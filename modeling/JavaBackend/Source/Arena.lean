import JavaBackend.Source.Tree

/-!
# Arenas

Program trees stored flat: a list of nodes in which a node names its children by their positions,
all smaller than its own. A node may be the child of several others. `Arena.trees` gives the tree
that hangs from each position.
-/

namespace JavaBackend

/-- A node whose children are positions. -/
structure Entry where
  kind : Kind Nat
  type : JavaType
  deriving DecidableEq, Repr

/-- Nodes that refer to earlier nodes only. -/
structure Arena where
  entries : Array Entry
  earlier : ∀ (i : Nat) (h : i < entries.size), ∀ child ∈ entries[i].kind.children, child < i

namespace Arena

def empty : Arena := ⟨#[], by simp⟩

def size (arena : Arena) : Nat := arena.entries.size

/-- Add a node at the end, if its children are there. -/
def push? (arena : Arena) (entry : Entry) : Option Arena :=
  if h : ∀ child ∈ entry.kind.children, child < arena.entries.size then
    some ⟨arena.entries.push entry, by
      intro i bound child mem
      rw [Array.getElem_push] at mem
      split at mem
      · next inside => exact arena.earlier i inside child mem
      · next outside =>
        have := h child mem
        rw [Array.size_push] at bound
        omega⟩
  else none

/-- The arena of the given nodes, if each refers to earlier ones only. -/
def ofList? (entries : List Entry) : Option Arena :=
  entries.foldlM push? empty

/-- What stands for a position that holds no node. An arena's nodes never refer to one. -/
def missing : Tree := .node (.literal .null) .void

/-- The tree at each position. -/
def trees (arena : Arena) : Array Tree :=
  arena.entries.foldl
    (fun trees entry =>
      trees.push (.node (entry.kind.map fun child => trees.getD child missing) entry.type)) #[]

end Arena

end JavaBackend
