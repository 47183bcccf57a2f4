import JavaBackend.Proofs.Words.Basic
import Mathlib.Algebra.Order.Ring.Nat

/-!
# Paths to calls

How often each call of a tree is written. Most children of a node are written once. The condition of
a loop that is tested first is written twice if it takes statements, in front of the loop and at the
end of each pass; the body of a clause is written once for each type of exceptions that the clause
handles. The number of copies of a call is the product of these numbers along the path to it, and
`Tree.written` is the sum over all paths.
-/

namespace JavaBackend

variable {α β : Type}

/-- How often the body of a clause is written: for each type, and once for every exception if the
    clause names no type. -/
def RescueClause.copies (clause : RescueClause α) : Nat := max 1 clause.types.length

/-- The body of a clause with the number of times that it is written. -/
def RescueClause.edge? (clause : RescueClause α) : Option (Nat × α) :=
  clause.body.map (clause.copies, ·)

/-- Children that are written once. -/
def once (children : List α) : List (Nat × α) := children.map (1, ·)

@[simp]
theorem once_nil : once ([] : List α) = [] := rfl

@[simp]
theorem once_cons {child : α} {children : List α} :
    once (child :: children) = (1, child) :: once children := rfl

@[simp]
theorem once_append {first second : List α} : once (first ++ second) = once first ++ once second :=
  List.map_append

namespace Kind

/-- The children of a node in evaluation order, each with the number of times that it is
    written. -/
def edges (isExpression : α → Bool) : Kind α → List (Nat × α)
  | .loop spec =>
    once spec.init.toList ++
      (if spec.checkFirst && !isExpression spec.cond then 2 else 1, spec.cond) ::
      once (spec.pre.toList ++ spec.body.toList ++ spec.post.toList)
  | .rescue body clauses otherwise =>
    once body.toList ++ clauses.filterMap RescueClause.edge? ++ once otherwise.toList
  | kind => once kind.children

theorem map_snd_edges (isExpression : α → Bool) (kind : Kind α) :
    (kind.edges isExpression).map Prod.snd = kind.children := by
  cases kind with
  | loop spec => simp [edges, once, children, Function.comp_def]
  | rescue body clauses otherwise =>
    simp [edges, once, RescueClause.edge?, children, List.map_filterMap, Function.comp_def]
  | _ => simp [edges, once, Function.comp_def]

theorem edges_map (f : α → β) (isExpression : β → Bool) (kind : Kind α) :
    (kind.map f).edges isExpression = (kind.edges (isExpression ∘ f)).map (Prod.map id f) := by
  have plain : once (kind.map f).children = (once kind.children).map (Prod.map id f) := by
    rw [children_map]
    simp [once]
  cases kind with
  | loop spec =>
    obtain ⟨_, _, _, body, _, init, pre, post⟩ := spec
    cases body <;> cases init <;> cases pre <;> cases post <;> simp [map, edges, once, Loop.map]
  | rescue body clauses otherwise =>
    have bodies : (clauses.map (RescueClause.map f)).filterMap RescueClause.edge? =
        (clauses.filterMap RescueClause.edge?).map (Prod.map id f) := by
      rw [List.filterMap_map, List.map_filterMap]
      refine congrArg (List.filterMap · clauses) (funext fun clause => ?_)
      obtain ⟨types, name, body⟩ := clause
      cases body <;> rfl
    cases body <;> cases otherwise <;> simp [map, edges, once, bodies]
  | _ => exact plain

/-- The method that a node itself calls. -/
def called? : Kind α → Option String
  | .call _ method _ _ => some method
  | _ => none

theorem called?_map (f : α → β) (kind : Kind α) : (kind.map f).called? = kind.called? := by
  cases kind <;> rfl

end Kind

/-- A path from the root of a tree to a call. -/
structure CallPath where
  /-- How often the child at the end of each edge is written. -/
  edges : List Nat
  /-- The method at the end of the path. -/
  method : String
  deriving DecidableEq, Repr

namespace CallPath

/-- How often the call at the end of the path is written. -/
def copies (path : CallPath) : Nat := path.edges.prod

def cons (times : Nat) (path : CallPath) : CallPath := ⟨times :: path.edges, path.method⟩

theorem copies_cons (times : Nat) (path : CallPath) : (path.cons times).copies = times * path.copies :=
  List.prod_cons

end CallPath

namespace Tree

/-- The paths to all calls of the tree, given the names that are variables. -/
def callPaths (isLocal : String → Bool) : Tree → List CallPath :=
  para fun kind _ =>
    kind.called?.toList.map (⟨[], ·⟩) ++
      (kind.edges (·.tree.isExpression isLocal)).flatMap fun (times, child) =>
        child.result.get.map (CallPath.cons times)

theorem callPaths_node (isLocal : String → Bool) (kind : Kind Tree) (type : JavaType) :
    (Tree.node kind type).callPaths isLocal =
      kind.called?.toList.map (⟨[], ·⟩) ++
        (kind.edges (·.isExpression isLocal)).flatMap fun (times, tree) =>
          (tree.callPaths isLocal).map (CallPath.cons times) := by
  rw [callPaths, para_node, Kind.called?_map, Kind.edges_map, List.flatMap_map]
  rfl

/-- What is written for the calls of the tree, in the unit `weight` of each method: over all paths
    to calls, the number of copies of the call. -/
def written (weight : String → Nat) (isLocal : String → Bool) (tree : Tree) : Nat :=
  ((tree.callPaths isLocal).map fun path => path.copies * weight path.method).sum

/-- What is written for trees, each as often as its number says. -/
def writtenAll (weight : String → Nat) (isLocal : String → Bool) (edges : List (Nat × Tree)) : Nat :=
  (edges.map fun (times, tree) => times * tree.written weight isLocal).sum

section

variable {weight : String → Nat} {isLocal : String → Bool}

@[simp]
theorem writtenAll_nil : writtenAll weight isLocal [] = 0 := rfl

@[simp]
theorem writtenAll_cons {times : Nat} {tree : Tree} {edges : List (Nat × Tree)} :
    writtenAll weight isLocal ((times, tree) :: edges) =
      times * tree.written weight isLocal + writtenAll weight isLocal edges := rfl

@[simp]
theorem writtenAll_append {first second : List (Nat × Tree)} :
    writtenAll weight isLocal (first ++ second) =
      writtenAll weight isLocal first + writtenAll weight isLocal second := by
  unfold writtenAll
  rw [List.map_append, List.sum_append]

/-- What one more edge in front of each path does. -/
theorem sum_map_cons (times : Nat) (paths : List CallPath) :
    ((paths.map (CallPath.cons times)).map fun path => path.copies * weight path.method).sum =
      times * (paths.map fun path => path.copies * weight path.method).sum := by
  induction paths with
  | nil => rfl
  | cons path rest ih =>
    rw [List.map_cons, List.map_cons, List.sum_cons, ih, CallPath.copies_cons, List.map_cons,
      List.sum_cons, Nat.mul_add, Nat.mul_assoc]
    rfl

theorem sum_flatMap_edges (edges : List (Nat × Tree)) :
    ((edges.flatMap fun (times, tree) => (tree.callPaths isLocal).map (CallPath.cons times)).map
      fun path => path.copies * weight path.method).sum = writtenAll weight isLocal edges := by
  induction edges with
  | nil => rfl
  | cons edge rest ih =>
    rw [List.flatMap_cons, List.map_append, List.sum_append, ih, sum_map_cons]
    rfl

/-- A node is written as its own call, and its children as often as its edges say. -/
theorem written_node (kind : Kind Tree) (type : JavaType) :
    (Tree.node kind type).written weight isLocal =
      kind.called?.elim 0 weight + writtenAll weight isLocal (kind.edges (·.isExpression isLocal)) := by
  unfold written
  rw [callPaths_node, List.map_append, List.sum_append, sum_flatMap_edges]
  cases kind.called? with
  | none => rfl
  | some method => simp [CallPath.copies]

end

end Tree

end JavaBackend
