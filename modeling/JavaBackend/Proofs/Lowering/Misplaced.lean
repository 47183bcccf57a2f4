import JavaBackend.Proofs.Lowering.Loops

/-!
# Misplaced jumps

A jump needs a loop around it, and a `redo` one whose body may be run again. `Tree.misplaced?` is the
first jump of a tree that has no such loop, in the order in which lowering meets them, with no mention of
code.

`Lower.Judges m ctx verdict` says that a verdict decides a computation: from any progress, `m` ends well if
`verdict` is none, and faults over the jump that it names if it is one. There is one rule for each way to
build a computation.
-/

namespace JavaBackend

open Java (Stmt Code Piece Expr Test Handler)

variable {α β : Type} {ctx : Context}

theorem findSome?_cons_or (f : α → Option β) (item : α) (rest : List α) :
    (item :: rest).findSome? f = (f item).or (rest.findSome? f) := by
  rw [List.findSome?_cons]
  cases f item <;> rfl

theorem findSome?_toList (f : α → Option β) (item : Option α) :
    item.toList.findSome? f = item.bind f := by
  cases item with
  | none => rfl
  | some item => exact (findSome?_cons_or f item []).trans Option.or_none

/-! ## Misplaced jumps -/

/-- A jump that does not have the loop that it needs. -/
inductive Misplaced where
  /-- It has no loop around it. -/
  | outside (action : Jump)
  /-- It is a `redo` of the innermost loop around the tree. -/
  | redoAround
  /-- It is a `redo` of a loop in the tree. -/
  | redoWithin
  deriving DecidableEq, Repr

/-- The jump as it is seen from outside of one more loop. -/
def Misplaced.leave : Misplaced → Misplaced
  | .redoAround => .redoWithin
  | misplaced => misplaced

/-- The misplaced jumps of a loop: what the search for a `redo` in its body finds, before any of the loop
    is lowered, and the first ones in what runs before the loop and in a pass of it. Those of a pass are
    seen from inside. -/
structure LoopCheck where
  scanned : Bool
  prelude : Option Misplaced
  pass : Option Misplaced

namespace LoopCheck

/-- The first misplaced jump of a loop. -/
def misplaced? (check : LoopCheck) : Option Misplaced :=
  (if check.scanned then some .redoWithin else none).or (check.prelude.or (check.pass.map .leave))

theorem misplaced?_eq_none_iff {check : LoopCheck} :
    check.misplaced? = none ↔ check.scanned = false ∧ check.prelude = none ∧ check.pass = none := by
  unfold misplaced?
  cases check.scanned <;> simp

/-- The first misplaced jump is a `redo` of the loop itself, not of one around it or inside it. -/
def isOwnRedo (check : LoopCheck) : Bool :=
  check.scanned || (check.prelude.isNone && check.pass == some .redoAround)

theorem clear_of_isOwnRedo {check : LoopCheck} (own : check.isOwnRedo = true)
    (unscanned : check.scanned = false) : check.prelude = none ∧ check.pass = some .redoAround := by
  simpa [isOwnRedo, unscanned] using own

theorem misplaced?_of_isOwnRedo {check : LoopCheck} (own : check.isOwnRedo = true) :
    check.misplaced? = some .redoWithin := by
  unfold misplaced?
  cases scanned : check.scanned with
  | true => rfl
  | false =>
    obtain ⟨prelude, pass⟩ := clear_of_isOwnRedo own scanned
    rw [prelude, pass]
    rfl

end LoopCheck

namespace Loop

/-- What stands in front of a loop: its condition does if it is tested first. -/
def prelude (child : Option Bool → α → Option Misplaced) (inside : Option Bool) (spec : Loop α) :
    Option Misplaced :=
  (spec.init.bind (child inside)).or (if spec.checkFirst then child inside spec.cond else none)

/-- A pass of a loop, the condition apart. -/
def untested (child : α → Option Misplaced) (spec : Loop α) : Option Misplaced :=
  (spec.pre.bind child).or ((spec.body.bind child).or (spec.post.bind child))

def check (child : Option Bool → α → Option Misplaced) (hasRedo : α → Bool) (inside : Option Bool)
    (spec : Loop α) : LoopCheck where
  scanned := !spec.redo && spec.body.any hasRedo
  prelude := spec.prelude child inside
  pass := (spec.untested (child (some spec.redo))).or (child (some spec.redo) spec.cond)

end Loop

def ForEach.check (child : Option Bool → α → Option Misplaced) (hasRedo : α → Bool)
    (inside : Option Bool) (spec : ForEach α) : LoopCheck where
  scanned := !spec.redo && spec.body.any hasRedo
  prelude := child inside spec.iterable
  pass := spec.body.bind (child (some spec.redo))

namespace Kind

/-- The misplaced jumps of a node that is a loop. -/
def loopCheck? (child : Option Bool → α → Option Misplaced) (hasRedo : α → Bool)
    (inside : Option Bool) : Kind α → Option LoopCheck
  | .loop spec => some (spec.check child hasRedo inside)
  | .forEach spec => some (spec.check child hasRedo inside)
  | _ => none

/-- The first misplaced jump of a node. `inside` is the innermost loop around the node: none, or one
    whose body may be run again or not. What runs if there was no exception is lowered before the
    handlers of exceptions are. -/
def misplaced? (child : Option Bool → α → Option Misplaced) (hasRedo : α → Bool)
    (inside : Option Bool) : Kind α → Option Misplaced
  | .jump action =>
    match inside, action with
    | none, action => some (.outside action)
    | some false, .redo => some .redoAround
    | some _, _ => none
  | .loop spec => (spec.check child hasRedo inside).misplaced?
  | .forEach spec => (spec.check child hasRedo inside).misplaced?
  | .rescue body clauses otherwise =>
    (body.bind (child inside)).or ((otherwise.bind (child inside)).or
      (clauses.findSome? fun clause => clause.body.bind (child inside)))
  | kind => kind.children.findSome? (child inside)

theorem misplaced?_of_loopCheck? {child : Option Bool → α → Option Misplaced} {hasRedo : α → Bool}
    {inside : Option Bool} {kind : Kind α} {check : LoopCheck}
    (looped : kind.loopCheck? child hasRedo inside = some check) :
    kind.misplaced? child hasRedo inside = check.misplaced? := by
  cases kind with
  | loop spec | forEach spec =>
    cases looped
    rfl
  | _ => cases looped

theorem loopCheck?_map (f : α → β) (child : Option Bool → β → Option Misplaced) (hasRedo : β → Bool)
    (inside : Option Bool) (kind : Kind α) :
    (kind.map f).loopCheck? child hasRedo inside =
      kind.loopCheck? (fun i a => child i (f a)) (fun a => hasRedo (f a)) inside := by
  cases kind with
  | loop spec =>
    simp only [map, loopCheck?, Loop.check, Loop.map, Loop.prelude, Loop.untested, Option.bind_map,
      Option.any_map, Function.comp_def]
  | forEach spec =>
    simp only [map, loopCheck?, ForEach.check, ForEach.map, Option.bind_map, Option.any_map,
      Function.comp_def]
  | _ => rfl

theorem misplaced?_map (f : α → β) (child : Option Bool → β → Option Misplaced) (hasRedo : β → Bool)
    (inside : Option Bool) (kind : Kind α) :
    (kind.map f).misplaced? child hasRedo inside =
      kind.misplaced? (fun i a => child i (f a)) (fun a => hasRedo (f a)) inside := by
  have check := kind.loopCheck?_map f child hasRedo inside
  cases kind with
  | jump action => rfl
  | loop spec => exact congrArg LoopCheck.misplaced? (Option.some.inj check)
  | forEach spec => exact congrArg LoopCheck.misplaced? (Option.some.inj check)
  | rescue body clauses otherwise =>
    simp [map, misplaced?, List.findSome?_map, RescueClause.map, Option.bind_map, Function.comp_def]
  | _ => exact (congrArg (List.findSome? _) (children_map f _)).trans List.findSome?_map

end Kind

namespace Tree

/-- The first misplaced jump of a tree, given the innermost loop around the tree. -/
def misplaced? (inside : Option Bool) (tree : Tree) : Option Misplaced :=
  tree.para (fun kind _ inside => kind.misplaced? (fun i child => child.result.get i)
    (fun child => child.tree.hasRedo) inside) inside

/-- The misplaced jumps of a tree that is a loop. -/
def loopCheck? (inside : Option Bool) (tree : Tree) : Option LoopCheck :=
  tree.kind.loopCheck? (fun i child => child.misplaced? i) hasRedo inside

theorem misplaced?_node (inside : Option Bool) (kind : Kind Tree) (type : JavaType) :
    (Tree.node kind type).misplaced? inside =
      kind.misplaced? (fun i tree => tree.misplaced? i) hasRedo inside := by
  rw [misplaced?, para_node, Kind.misplaced?_map]
  rfl

/-- An expression has no jumps, so it can stand anywhere. -/
theorem misplaced?_of_isExpression (isLocal : String → Bool) (tree : Tree) :
    tree.isExpression isLocal = true → ∀ inside, tree.misplaced? inside = none := by
  induction tree using Tree.induction with
  | step kind type ih =>
    intro expression inside
    have children : kind.children.findSome? (·.misplaced? inside) = none := by
      rw [List.findSome?_eq_none_iff]
      intro tree mem
      exact ih tree mem (Kind.isExpression_of_mem_children expression tree mem) inside
    rw [misplaced?_node]
    cases kind with
    | loop _ | forEach _ | jump _ | rescue _ _ _ => exact absurd expression Bool.false_ne_true
    | _ => exact children

end Tree

/-! ## Computations that a verdict decides -/

/-- The fault is over the jump, which stands in this context. -/
def Misplaced.Explains (ctx : Context) (fault : Fault) : Misplaced → Prop
  | .outside action => fault = .outsideLoop action
  | .redoAround => ∃ loop others, ctx.loops = loop :: others ∧ fault = .redoUnsupported loop.form
  | .redoWithin => ∃ form, fault = .redoUnsupported form

theorem Misplaced.Explains.leave {misplaced : Misplaced} {fault : Fault} {loop : EnclosingLoop}
    (explains : misplaced.Explains { ctx with loops := loop :: ctx.loops } fault) :
    misplaced.leave.Explains ctx fault := by
  cases misplaced with
  | outside action => exact explains
  | redoWithin => exact explains
  | redoAround =>
    obtain ⟨loop, _, -, fault⟩ := explains
    exact ⟨loop.form, fault⟩

namespace Lower

variable {verdict verdict' : Option Misplaced}

/-- From any progress, the computation ends well if no jump is misplaced, and faults over the one that
    is given if there is one. -/
def Judges (m : Lower α) (ctx : Context) (verdict : Option Misplaced) : Prop :=
  ∀ p, match (m ctx p).outcome with
    | .done _ _ => verdict = none
    | .failed _ fault => ∃ misplaced, verdict = some misplaced ∧ misplaced.Explains ctx fault

/-- The choice between two computations may depend on the progress. -/
theorem judges_of_apply {m : Lower α}
    (choice : ∀ p, ∃ m', m ctx p = m' ctx p ∧ Judges m' ctx verdict) : Judges m ctx verdict := by
  intro p
  obtain ⟨m', same, judges⟩ := choice p
  rw [same]
  exact judges p

theorem judges_pure (a : α) : Judges (pure a) ctx none := fun _ => rfl

theorem judges_emit (stmt : Stmt) : Judges (emit stmt) ctx none := fun _ => rfl

theorem judges_context : Judges context ctx none := fun _ => rfl

theorem judges_useField (use : FieldUse) : Judges (useField use) ctx none := fun _ => rfl

theorem judges_freshName : Judges freshName ctx none := fun _ => rfl

theorem judges_freshLabel : Judges freshLabel ctx none := fun _ => rfl

theorem judges_newTemp (type : JavaType) (init : Expr) : Judges (newTemp type init) ctx none :=
  fun _ => rfl

theorem judges_declareLocal (type : JavaType) (name : String) (init : Expr) :
    Judges (declareLocal type name init) ctx none := by
  refine judges_of_apply fun p => ?_
  unfold declareLocal
  rw [scope_bind]
  refine ⟨_, rfl, ?_⟩
  split
  · exact judges_pure ()
  · exact fun _ => rfl

theorem judges_fail {fault : Fault} {misplaced : Misplaced} (explains : misplaced.Explains ctx fault) :
    Judges (fail fault : Lower α) ctx (some misplaced) :=
  fun _ => ⟨misplaced, rfl, explains⟩

/-- The first of two computations is judged first. -/
theorem Judges.bind {m : Lower α} {f : α → Lower β} (first : Judges m ctx verdict)
    (next : ∀ a, Judges (f a) ctx verdict') : Judges (m >>= f) ctx (verdict.or verdict') := by
  intro p
  show match (Lower.bind m f ctx p).outcome with
    | .done _ _ => verdict.or verdict' = none
    | .failed _ fault => ∃ misplaced, verdict.or verdict' = some misplaced ∧
      misplaced.Explains ctx fault
  have atFirst := first p
  unfold Lower.bind
  cases run : m ctx p with
  | mk outcome p₁ =>
    rw [run] at atFirst
    cases outcome with
    | failed written fault =>
      obtain ⟨misplaced, rfl, explains⟩ := atFirst
      exact ⟨misplaced, rfl, explains⟩
    | done code a =>
      cases atFirst
      have atNext := next a p₁
      cases rest : f a ctx p₁ with
      | mk outcome p₂ =>
        rw [rest] at atNext
        simp only [rest]
        cases outcome with
        | failed written fault => exact atNext
        | done more b => exact atNext

/-- What always ends well has no part in the verdict. -/
theorem Judges.bindNone {m : Lower α} {f : α → Lower β} (first : Judges m ctx none)
    (next : ∀ a, Judges (f a) ctx verdict) : Judges (m >>= f) ctx verdict :=
  first.bind next

theorem Judges.thenNone {m : Lower α} {f : α → Lower β} (first : Judges m ctx verdict)
    (next : ∀ a, Judges (f a) ctx none) : Judges (m >>= f) ctx verdict := by
  rw [← Option.or_none (o := verdict)]
  exact first.bind next

theorem Judges.map {m : Lower α} (judges : Judges m ctx verdict) (f : α → β) :
    Judges (f <$> m) ctx verdict := by
  rw [← bind_pure_comp]
  exact judges.thenNone fun a => judges_pure (f a)

theorem Judges.block {body : Lower Unit} (judges : Judges body ctx verdict)
    (opened : Thunk (List Piece)) : Judges (block opened body) ctx verdict := by
  intro p
  have atBody := judges p
  unfold Lower.block
  cases run : body ctx p with
  | mk outcome p₁ =>
    rw [run] at atBody
    cases outcome <;> exact atBody

theorem Judges.inLoop {loop : EnclosingLoop} {body : Lower α}
    (judges : Judges body { ctx with loops := loop :: ctx.loops } verdict) :
    Judges (inLoop loop body) ctx (verdict.map .leave) := by
  intro p
  have atBody := judges p
  unfold Lower.inLoop
  cases run : body { ctx with loops := loop :: ctx.loops } p with
  | mk outcome p₁ =>
    rw [run] at atBody
    cases outcome with
    | done code a => rw [atBody]; rfl
    | failed written fault =>
      obtain ⟨misplaced, rfl, explains⟩ := atBody
      exact ⟨misplaced.leave, rfl, explains.leave⟩

theorem Judges.withLocal {body : Lower α} (judges : Judges body ctx verdict)
    (name : String) (type : JavaType) : Judges (withLocal name type body) ctx verdict := by
  intro p
  unfold Lower.withLocal
  cases p.scope.reserve? name type with
  | none => exact judges p
  | some scope => exact judges { p with scope := scope }

end Lower

end JavaBackend
