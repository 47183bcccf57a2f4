import JavaBackend.Proofs.Lowering.Refusals

/-!
# Which trees can be lowered

A jump needs a loop around it, and a `redo` one whose body may be run again. `Tree.wellPlaced` says
that of a whole tree, with no mention of code and of the order in which it is laid out. The main result
is that it decides whether the tree is lowered: the variables, the supplies of names and the way in which
the value is asked for have no part in it, and a tree that is refused is refused because of a jump.

`Lower.Accepts m ctx ok` is the judgement behind it: from any progress, `m` ends well if `ok` holds,
and faults over a jump if it does not.
-/

namespace JavaBackend

open Java (Stmt Expr)

variable {α β : Type} {ctx : Context}

/-! ## Well placed jumps -/

namespace Kind

/-- Whether the jumps of a node have the loops that they need. `inside` is the innermost loop around
    the node: none, or one whose body may be run again or not. The condition of a loop is evaluated in
    the loop, and in front of it too if it is tested first. -/
def wellPlaced (child : Option Bool → α → Bool) (inside : Option Bool) : Kind α → Bool
  | .jump .redo => inside == some true
  | .jump .break | .jump .next => inside.isSome
  | .loop spec =>
    spec.init.all (child inside) && (!spec.checkFirst || child inside spec.cond) &&
      (spec.pre.all (child (some spec.redo)) && spec.body.all (child (some spec.redo)) &&
        spec.post.all (child (some spec.redo)) && child (some spec.redo) spec.cond)
  | .forEach spec => child inside spec.iterable && spec.body.all (child (some spec.redo))
  | kind => kind.children.all (child inside)

theorem wellPlaced_map (f : α → β) (child : Option Bool → β → Bool) (inside : Option Bool)
    (kind : Kind α) :
    (kind.map f).wellPlaced child inside = kind.wellPlaced (fun i a => child i (f a)) inside := by
  cases kind with
  | jump action => cases action <;> rfl
  | loop spec => simp [map, wellPlaced, Loop.map, Option.all_map]
  | forEach spec => simp [map, wellPlaced, ForEach.map, Option.all_map]
  | _ => exact (congrArg (List.all · _) (children_map f _)).trans List.all_map

end Kind

namespace Tree

/-- Whether every jump of the tree has the loop that it needs, given the innermost loop around the
    tree. -/
def wellPlaced (inside : Option Bool) (tree : Tree) : Bool :=
  tree.para (fun kind _ inside => kind.wellPlaced (fun i child => child.result.get i) inside) inside

theorem wellPlaced_node (inside : Option Bool) (kind : Kind Tree) (type : JavaType) :
    (Tree.node kind type).wellPlaced inside =
      kind.wellPlaced (fun i tree => tree.wellPlaced i) inside := by
  rw [wellPlaced, para_node, Kind.wellPlaced_map]
  rfl

/-- A body with a `redo` of its own cannot stand in a loop that has none. -/
theorem hasRedo_eq_false_of_wellPlaced (tree : Tree) :
    tree.wellPlaced (some false) = true → tree.hasRedo = false := by
  induction tree using Tree.induction with
  | step kind type ih =>
    intro placed
    rw [wellPlaced_node] at placed
    rw [hasRedo_node]
    have children : kind.children.all (·.wellPlaced (some false)) = true →
        kind.children.any hasRedo = false := by
      intro all
      rw [List.any_eq_false]
      intro tree mem
      rw [ih tree mem (List.all_eq_true.mp all tree mem)]
      exact Bool.false_ne_true
    cases kind with
    | jump action =>
      cases action with
      | redo => exact absurd placed Bool.false_ne_true
      | «break» | next => rfl
    | loop _ | forEach _ => rfl
    | _ => exact children placed

/-- The check in front of a loop finds nothing in a body that is well placed. -/
theorem any_hasRedo_eq_false {redo : Bool} {body : Option Tree}
    (placed : body.all (·.wellPlaced (some redo)) = true) :
    (!redo && body.any hasRedo) = false := by
  cases redo with
  | true => rfl
  | false =>
    cases body with
    | none => rfl
    | some tree => exact hasRedo_eq_false_of_wellPlaced tree placed

/-- The jumps of a tree are well placed just if none of them is misplaced. -/
theorem misplaced?_eq_none_iff (tree : Tree) :
    ∀ inside, tree.misplaced? inside = none ↔ tree.wellPlaced inside = true := by
  induction tree using Tree.induction with
  | step kind type ih =>
    intro inside
    rw [misplaced?_node, wellPlaced_node]
    have list : ∀ trees : List Tree, (∀ tree ∈ trees, tree ∈ kind.children) →
        (trees.findSome? (·.misplaced? inside) = none ↔
          trees.all (·.wellPlaced inside) = true) := by
      intro trees mem
      rw [List.findSome?_eq_none_iff, List.all_eq_true]
      exact forall₂_congr fun tree memTree => ih tree (mem tree memTree) inside
    have optional : ∀ (maybe : Option Tree) (inside : Option Bool),
        (∀ tree ∈ maybe.toList, tree ∈ kind.children) →
        (maybe.bind (·.misplaced? inside) = none ↔ maybe.all (·.wellPlaced inside) = true) := by
      intro maybe inside mem
      cases maybe with
      | none => simp
      | some tree => exact ih tree (mem tree (List.mem_singleton_self tree)) inside
    cases kind with
    | jump action => cases inside with
      | none => cases action <;> simp [Kind.misplaced?, Kind.wellPlaced]
      | some redo => cases redo <;> cases action <;> simp [Kind.misplaced?, Kind.wellPlaced]
    | loop spec =>
      have init := optional spec.init inside (by simp +contextual [Kind.children])
      have pre := optional spec.pre (some spec.redo) (by simp +contextual [Kind.children])
      have body := optional spec.body (some spec.redo) (by simp +contextual [Kind.children])
      have post := optional spec.post (some spec.redo) (by simp +contextual [Kind.children])
      have cond := ih spec.cond (by simp [Kind.children])
      have first : (if spec.checkFirst then spec.cond.misplaced? inside else none) = none ↔
          (!spec.checkFirst || spec.cond.wellPlaced inside) = true := by
        cases spec.checkFirst <;> simp [cond]
      simp only [Kind.misplaced?, Kind.wellPlaced, LoopCheck.misplaced?_eq_none_iff, Loop.check,
        Loop.prelude, Loop.untested, Option.or_eq_none_iff, init, pre, body, post, cond, first,
        Bool.and_eq_true, and_assoc]
      refine and_iff_right_of_imp fun placed => any_hasRedo_eq_false ?_
      exact placed.2.2.2.1
    | forEach spec =>
      have iterable := ih spec.iterable (by simp [Kind.children]) inside
      have body := optional spec.body (some spec.redo) (by simp +contextual [Kind.children])
      simp only [Kind.misplaced?, Kind.wellPlaced, LoopCheck.misplaced?_eq_none_iff, ForEach.check,
        iterable, body, Bool.and_eq_true]
      exact and_iff_right_of_imp fun placed => any_hasRedo_eq_false placed.2
    | rescue body clauses otherwise =>
      have bodyIff := list body.toList (by simp +contextual [Kind.children])
      have otherwiseIff := list otherwise.toList (by simp +contextual [Kind.children])
      rw [findSome?_toList] at bodyIff otherwiseIff
      have clausesIff : (clauses.findSome? fun clause => clause.body.bind (·.misplaced? inside)) = none ↔
          (clauses.filterMap RescueClause.body).all (·.wellPlaced inside) = true := by
        rw [← list _ (by simp +contextual [Kind.children])]
        simp only [List.findSome?_eq_none_iff, Option.bind_eq_none_iff, List.mem_filterMap]
        grind
      simp only [Kind.misplaced?, Kind.wellPlaced, Kind.children, List.all_append,
        Option.or_eq_none_iff, bodyIff, otherwiseIff, clausesIff, Bool.and_eq_true, and_assoc]
      exact and_congr_right fun _ => and_comm
    | _ => exact list _ fun _ mem => mem

end Tree

/-! ## Computations that a condition decides -/

/-- A fault over a jump that has no loop, or not the loop that it needs. -/
def Fault.isMisplacedJump : Fault → Bool
  | .outsideLoop _ | .redoUnsupported _ => true
  | _ => false

theorem Misplaced.Explains.isMisplacedJump {misplaced : Misplaced} {fault : Fault}
    (explains : misplaced.Explains ctx fault) : fault.isMisplacedJump = true := by
  cases misplaced with
  | outside action =>
    cases explains
    rfl
  | redoAround =>
    obtain ⟨_, _, _, rfl⟩ := explains
    rfl
  | redoWithin =>
    obtain ⟨_, rfl⟩ := explains
    rfl

namespace Lower

/-- From any progress, the computation ends well if `ok` holds, and faults over a jump if not. -/
def Accepts (m : Lower α) (ctx : Context) (ok : Prop) : Prop :=
  ∀ p, match (m ctx p).outcome with
    | .done _ _ => ok
    | .failed _ fault => ¬ ok ∧ fault.isMisplacedJump = true

theorem Accepts.congr {m : Lower α} {ok ok' : Prop} (accepts : Accepts m ctx ok)
    (same : ok ↔ ok') : Accepts m ctx ok' := by
  rwa [propext same] at accepts

/-- What is judged is accepted just if no jump is misplaced. -/
theorem Judges.accepts {m : Lower α} {verdict : Option Misplaced} (judges : Judges m ctx verdict) :
    Accepts m ctx (verdict = none) := by
  intro p
  have atP := judges p
  cases run : m ctx p with
  | mk outcome p' =>
    rw [run] at atP
    cases outcome with
    | done code a => exact atP
    | failed written fault =>
      obtain ⟨misplaced, rfl, explains⟩ := atP
      exact ⟨Option.some_ne_none misplaced, explains.isMisplacedJump⟩

theorem accepts_pure (a : α) : Accepts (pure a) ctx True := fun _ => trivial

theorem accepts_emit (stmt : Stmt) : Accepts (emit stmt) ctx True := fun _ => trivial

theorem accepts_declareLocal (type : JavaType) (name : String) (init : Expr) :
    Accepts (declareLocal type name init) ctx True :=
  (judges_declareLocal type name init).accepts.congr (iff_true_intro rfl)

theorem Accepts.bind {m : Lower α} {f : α → Lower β} {ok ok' : Prop} (first : Accepts m ctx ok)
    (next : ∀ a, Accepts (f a) ctx ok') : Accepts (m >>= f) ctx (ok ∧ ok') := by
  intro p
  show match (Lower.bind m f ctx p).outcome with
    | .done _ _ => ok ∧ ok'
    | .failed _ fault => ¬ (ok ∧ ok') ∧ fault.isMisplacedJump = true
  have atFirst := first p
  unfold Lower.bind
  cases run : m ctx p with
  | mk outcome p₁ =>
    rw [run] at atFirst
    cases outcome with
    | failed written fault => exact ⟨fun both => atFirst.1 both.1, atFirst.2⟩
    | done code a =>
      have atNext := next a p₁
      cases rest : f a ctx p₁ with
      | mk outcome p₂ =>
        rw [rest] at atNext
        simp only [rest]
        cases outcome with
        | failed written fault => exact ⟨fun both => atNext.1 both.2, atNext.2⟩
        | done more b => exact ⟨atFirst, atNext⟩

theorem accepts_forM {f : α → Lower Unit} {ok : α → Prop} (items : List α)
    (each : ∀ item ∈ items, Accepts (f item) ctx (ok item)) :
    Accepts (items.forM f) ctx (∀ item ∈ items, ok item) := by
  induction items with
  | nil => exact (accepts_pure ()).congr (by simp)
  | cons item rest ih =>
    rw [List.forall_mem_cons]
    refine (each item List.mem_cons_self).bind fun _ => ?_
    exact ih fun other mem => each other (List.mem_cons_of_mem _ mem)

end Lower

open Lower

/-! ## Trees -/

namespace Part

/-- The jumps of the part have the loops that they need. -/
def Placed (part : Part) (ctx : Context) : Prop := part.tree.wellPlaced ctx.inside = true

/-- Both ways to lower the part end well just if its jumps are well placed. -/
structure Fits (part : Part) (ctx : Context) : Prop where
  inline : Accepts part.toInline ctx (part.Placed ctx)
  statement : ∀ dest, Accepts (part.toStatement dest) ctx (part.Placed ctx)

variable {part : Part}

theorem misplaced?_eq_none_iff : part.misplaced? ctx = none ↔ part.Placed ctx :=
  part.tree.misplaced?_eq_none_iff ctx.inside

end Part

namespace Tree

theorem fits (tree : Tree) (ctx : Context) : tree.part.Fits ctx where
  inline := (tree.judged ctx).inline.accepts.congr Part.misplaced?_eq_none_iff
  statement dest := ((tree.judged ctx).statement dest).accepts.congr Part.misplaced?_eq_none_iff

theorem accepts_toExpr (tree : Tree) (ctx : Context) :
    Accepts tree.toExpr ctx (tree.part.Placed ctx) :=
  (Part.judges_toExpr tree.covers).accepts.congr Part.misplaced?_eq_none_iff

theorem accepts_toReturn (tree : Tree) (ctx : Context) :
    Accepts (toReturn (some tree)) ctx (tree.part.Placed ctx) := by
  have returned : Judges (lowerReturn (some tree.part)) ctx (tree.part.misplaced? ctx) :=
    judges_lowerReturn fun _ mem => Option.mem_some.mp mem ▸ tree.covers
  exact returned.accepts.congr Part.misplaced?_eq_none_iff

end Tree

end JavaBackend
