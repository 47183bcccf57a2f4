import JavaBackend.Proofs.Footprints.Lowering
import JavaBackend.Proofs.Lowering.Silence
import JavaBackend.Proofs.Locals.InStep
import Mathlib.Data.Set.Insert

/-!
# The order of references

The parts of a node are lowered one after another, each for its value or for its effects: `Kind.visits`
lists them. A field is referred to where it is assigned and where its value is wanted; a field that is
read for nothing is left out. `Tree.Refers` gives the references of a tree in this order.

One choice hangs on the variables that are known: whether the condition of a loop is held in a variable.
What is known is what was known in front of the tree and what was assigned since, apart from temporaries.
-/

namespace JavaBackend

/-! ## Visits -/

/-- A tree that is lowered as a part of something. -/
structure Visit where
  tree : Tree
  /-- Whether its value is wanted. -/
  wanted : Bool
  /-- The variable of the block around it. -/
  bound : Option String

namespace Visit

/-- A tree in no block of its own. -/
def of (wanted : Bool) (tree : Tree) : Visit := ⟨tree, wanted, none⟩

/-- The variables that are known behind the visit, and may not have been in front of it. -/
def assigned (visit : Visit) : Set String :=
  {name | name ∈ visit.tree.freeAssigned ∧ visit.bound ≠ some name}

/-- Trees in order. The value is that of the last. -/
def ofSeq (wanted : Bool) : List Tree → List Visit
  | [] => []
  | [last] => [of wanted last]
  | first :: second :: rest => of false first :: ofSeq wanted (second :: rest)

end Visit

/-- What is known behind visits. -/
def learned (known : Set String) (visits : List Visit) : Set String :=
  known ∪ {name | ∃ visit ∈ visits, name ∈ visit.assigned}

/-- What is left of a loop behind its start. A condition that is held in a variable is evaluated at the
    end of a pass, and in front of the loop only if it is tested first. -/
def Loop.rounds (spec : Loop Tree) (held : Bool) : List Visit :=
  (if held && !spec.checkFirst then [] else [.of true spec.cond]) ++
    (spec.pre.toList ++ spec.body.toList ++ spec.post.toList).map (.of false) ++
    (if held then [.of true spec.cond] else [])

/-- The body of a clause, once for each type that it handles. -/
def RescueClause.visits (clause : RescueClause Tree) (wanted : Bool) : List Visit :=
  (clause.caught.flatMap fun _ => clause.body.toList).map (⟨·, wanted, clause.name⟩)

/-- The parts of a node in the order in which they are lowered, in a method that returns nothing if
    `void` is set. -/
def Kind.visits (void held wanted : Bool) : Kind Tree → List Visit
  | .assign _ value | .setField _ value _ | .raise value => [.of true value]
  | .call receiver _ args _ => (receiver.toList ++ args).map (.of true)
  | .new _ args => args.map (.of true)
  | .print value _ => value.toList.map (.of true)
  | .ret value => value.toList.map (.of !void)
  | .binary op left right => [.of (wanted || op.isLogical) left, .of wanted right]
  | .cond test yes no => .of true test :: (yes.toList ++ no.toList).map (.of wanted)
  | .seq nodes => Visit.ofSeq wanted nodes
  | .loop spec => spec.init.toList.map (.of false) ++ spec.rounds held
  | .forEach spec => .of true spec.iterable :: spec.body.toList.map (⟨·, false, some spec.var⟩)
  | .rescue body clauses otherwise =>
    body.toList.map (.of (wanted && otherwise.isNone)) ++ otherwise.toList.map (.of wanted) ++
      clauses.flatMap (·.visits wanted)
  | .ensure body cleanup => [.of wanted body, .of false cleanup]
  | kind => kind.children.map (.of wanted)

/-- The field that a node itself refers to. -/
def Kind.references (type : JavaType) (wanted : Bool) : Kind Tree → List FieldUse
  | .field name isStatic => if wanted then [⟨name, type, isStatic⟩] else []
  | .setField name _ isStatic => [⟨name, type.held, isStatic⟩]
  | _ => []

/-- Whether the condition of a loop is held in a variable: it is if it needs statements behind the start
    of the loop. Nothing is said of variables with the names of temporaries. -/
def Kind.Decides (known : Set String) (held : Bool) : Kind Tree → Prop
  | .loop spec => ∃ isLocal : String → Bool,
    (∀ name, isOwn name = true →
      (isLocal name = true ↔ name ∈ learned known (spec.init.toList.map (.of false)))) ∧
    held = !spec.cond.isExpression isLocal
  | _ => True

mutual

/-- The references of a tree in the order in which it is lowered. The target of an assignment comes in
    front of the value. -/
inductive Tree.Refers (void : Bool) : Set String → Bool → Tree → List FieldUse → Prop
  | node {known : Set String} {kind : Kind Tree} {type : JavaType} {held wanted : Bool}
      {uses : List FieldUse} (decided : kind.Decides known held)
      (parts : RefersAll void known (kind.visits void held wanted) uses) :
      Tree.Refers void known wanted (.node kind type) (kind.references type wanted ++ uses)

/-- The references of trees that are lowered one after another. -/
inductive RefersAll (void : Bool) : Set String → List Visit → List FieldUse → Prop
  | nil {known : Set String} : RefersAll void known [] []
  | cons {known : Set String} {visit : Visit} {rest : List Visit} {uses more : List FieldUse}
      (first : Tree.Refers void (known ∪ {name | visit.bound = some name}) visit.wanted visit.tree uses)
      (others : RefersAll void (learned known [visit]) rest more) :
      RefersAll void known (visit :: rest) (uses ++ more)

end

/-! ## What is known -/

theorem mem_learned {known : Set String} {visits : List Visit} {name : String} :
    name ∈ learned known visits ↔ name ∈ known ∨ ∃ visit ∈ visits, name ∈ visit.assigned :=
  Iff.rfl

@[simp]
theorem learned_nil (known : Set String) : learned known [] = known := by
  ext name
  simp [mem_learned]

theorem learned_append (known : Set String) (visits more : List Visit) :
    learned known (visits ++ more) = learned (learned known visits) more := by
  ext name
  simp only [mem_learned, List.mem_append, or_and_right, exists_or, or_assoc]

theorem learned_cons (known : Set String) (visit : Visit) (rest : List Visit) :
    learned known (visit :: rest) = learned (learned known [visit]) rest :=
  learned_append known [visit] rest

theorem RefersAll.append {void : Bool} {known : Set String} {visits more : List Visit}
    {uses others : List FieldUse} (first : RefersAll void known visits uses)
    (second : RefersAll void (learned known visits) more others) :
    RefersAll void known (visits ++ more) (uses ++ others) := by
  induction visits generalizing known uses with
  | nil =>
    cases first
    rwa [learned_nil] at second
  | cons visit rest ih =>
    cases first with
    | cons here behind =>
      rw [learned_cons] at second
      rw [List.append_assoc]
      exact .cons here (ih behind second)

/-- A tree in no block of its own. -/
theorem refersAll_singleton {void : Bool} {known : Set String} {wanted : Bool} {tree : Tree}
    {uses : List FieldUse} :
    RefersAll void known [.of wanted tree] uses ↔ tree.Refers void known wanted uses := by
  have unbound : known ∪ {name | (none : Option String) = some name} = known := by simp
  constructor
  · intro refers
    cases refers with
    | cons first others =>
      cases others
      rw [List.append_nil]
      exact unbound ▸ first
  · intro refers
    have all : RefersAll void known [.of wanted tree] (uses ++ []) :=
      .cons (unbound.symm ▸ refers : tree.Refers void (known ∪ _) wanted uses) .nil
    rwa [List.append_nil] at all

/-- The variable of a block is known inside. -/
theorem learned_bound (known : Set String) (name : String) (wanted : Bool) (trees : List Tree) :
    learned (known ∪ {name}) (trees.map (.of wanted)) =
      learned known (trees.map (⟨·, wanted, some name⟩)) ∪ {name} := by
  ext other
  by_cases same : other = name
  · simp [mem_learned, same]
  · have apart : name ≠ other := Ne.symm same
    simp [mem_learned, Visit.assigned, Visit.of, same, apart]

/-- Trees in a block refer to what they refer to where the variable of the block is known. -/
theorem RefersAll.bind {void : Bool} {known : Set String} {name : String} {wanted : Bool}
    {trees : List Tree} {uses : List FieldUse}
    (refers : RefersAll void (known ∪ {name}) (trees.map (.of wanted)) uses) :
    RefersAll void known (trees.map (⟨·, wanted, some name⟩)) uses := by
  induction trees generalizing known uses with
  | nil =>
    cases refers
    exact .nil
  | cons tree rest ih =>
    cases refers with
    | cons first others =>
      have inside : known ∪ {name} ∪ {other | (none : Option String) = some other} =
          known ∪ {other | some name = some other} := by
        ext other
        simp [eq_comm]
      refine .cons (inside ▸ first) (ih ?_)
      have behind := learned_bound known name wanted [tree]
      rw [List.map_singleton, List.map_singleton] at behind
      rwa [behind] at others

/-- The tree with the name that the block around it declares. -/
def Visit.place (visit : Visit) : Option String × Tree := (visit.bound, visit.tree)

theorem Visit.place_ofSeq (wanted : Bool) (nodes : List Tree) :
    (ofSeq wanted nodes).map place = nodes.map (none, ·) := by
  induction nodes with
  | nil => rfl
  | cons first rest ih =>
    cases rest with
    | nil => rfl
    | cons second rest => exact congrArg _ ih

theorem RescueClause.mem_place_visits {clause : RescueClause Tree} {wanted : Bool}
    {place : Option String × Tree} :
    place ∈ (clause.visits wanted).map Visit.place ↔ place ∈ clause.body.toList.map (clause.name, ·) := by
  have caught : clause.caught ≠ [] := by
    unfold RescueClause.caught
    split
    · exact List.cons_ne_nil _ _
    · next types => simpa using types
  obtain ⟨type, mem⟩ := List.exists_mem_of_ne_nil _ caught
  simp only [visits, List.map_map, List.mem_map, List.mem_flatMap]
  constructor
  · rintro ⟨tree, ⟨_, _, found⟩, same⟩
    exact ⟨tree, found, same⟩
  · rintro ⟨tree, found, same⟩
    exact ⟨tree, ⟨type, mem, found⟩, same⟩

/-- Each part of a node is visited, some more than once. -/
theorem Kind.mem_place_visits {kind : Kind Tree} {void held wanted : Bool}
    {place : Option String × Tree} :
    place ∈ (kind.visits void held wanted).map Visit.place ↔ place ∈ kind.boundChildren := by
  have same : (kind.visits void held wanted).map Visit.place = kind.boundChildren →
      (place ∈ (kind.visits void held wanted).map Visit.place ↔ place ∈ kind.boundChildren) := by
    intro same
    rw [same]
  cases kind with
  | seq nodes => exact same (Visit.place_ofSeq wanted nodes)
  | loop spec =>
    have tested : place ∈ ((if held && !spec.checkFirst then [] else [Visit.of true spec.cond]).map
          Visit.place) ∨
        place ∈ ((if held then [Visit.of true spec.cond] else []).map Visit.place) ↔
          place = (none, spec.cond) := by
      cases held <;> cases spec.checkFirst <;> simp [Visit.of, Visit.place]
    have parts : ∀ trees : List Tree, (trees.map (Visit.of false)).map Visit.place = trees.map (none, ·) :=
      fun trees => List.map_map
    simp only [visits, Loop.rounds, boundChildren, children, List.map_append, parts, List.mem_append,
      List.map_cons, List.mem_cons, ← tested]
    grind
  | rescue body clauses otherwise =>
    have handled : place ∈ (clauses.flatMap (·.visits wanted)).map Visit.place ↔
        place ∈ clauses.flatMap fun clause => clause.body.toList.map (clause.name, ·) := by
      simp only [List.map_flatMap, List.mem_flatMap, RescueClause.mem_place_visits]
    simp only [visits, boundChildren, List.map_append, List.mem_append, handled, List.map_map]
    rfl
  | _ => exact same (by simp [visits, boundChildren, children, Visit.of, Visit.place, Function.comp_def])

/-- What is known behind a node: what its parts assign, and what it assigns itself. -/
theorem learned_node (known : Set String) (kind : Kind Tree) (type : JavaType)
    (void held wanted : Bool) :
    learned known [.of wanted (.node kind type)] =
      learned known (kind.visits void held wanted) ∪ {name | name ∈ kind.ownNames} := by
  have part : ∀ name, (∃ visit ∈ kind.visits void held wanted, name ∈ visit.assigned) ↔
      ∃ place ∈ kind.boundChildren, name ∈ place.2.freeAssigned ∧ place.1 ≠ some name := by
    intro name
    constructor
    · rintro ⟨visit, mem, assigned⟩
      exact ⟨visit.place, Kind.mem_place_visits.mp (List.mem_map_of_mem mem), assigned⟩
    · rintro ⟨place, mem, assigned⟩
      obtain ⟨visit, found, rfl⟩ := List.mem_map.mp (Kind.mem_place_visits.mpr mem)
      exact ⟨visit, found, assigned⟩
  ext name
  have here : name ∈ (Visit.of wanted (.node kind type)).assigned ↔ name ∈ kind.ownNames ∨
      ∃ place ∈ kind.boundChildren, name ∈ place.2.freeAssigned ∧ place.1 ≠ some name := by
    simp [Visit.assigned, Visit.of, Tree.freeAssigned_node]
  rw [Set.mem_union, mem_learned, mem_learned, part]
  simp only [List.mem_singleton, exists_eq_left, here, Set.mem_ofPred_eq]
  rw [or_assoc, or_comm (a := name ∈ kind.ownNames)]

/-- What becomes of the value of an assignment, a loop or a call does not matter to what it refers to. -/
theorem Tree.Refers.of_wanted {void : Bool} {known : Set String} {kind : Kind Tree}
    {type type' : JavaType} {uses : List FieldUse} {wanted wanted' : Bool}
    (refers : (Tree.node kind type).Refers void known wanted uses)
    (visits : ∀ held, kind.visits void held wanted = kind.visits void held wanted')
    (references : kind.references type wanted = kind.references type' wanted') :
    (Tree.node kind type').Refers void known wanted' uses := by
  cases refers with
  | @node known kind type held _ uses decided parts =>
    rw [references]
    exact .node decided (visits held ▸ parts)

end JavaBackend
