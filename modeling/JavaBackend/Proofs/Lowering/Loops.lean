import JavaBackend.Proofs.Lowering.Expressions

/-!
# Loops in parts

Loops are lowered in one go. Here the parts of that get names: what a pass of a loop lays out, and what
is left of a loop once its test or its elements are at hand. The runs of loops are taken apart into the
runs of these, with labels and variables that the progress in front of a loop names.
-/

namespace JavaBackend

open Java (Stmt Code Piece Expr Test)
open Lower

variable {α : Type} {ctx : Context} {p p' : Progress} {code : Code}

/-! ## Names from the supplies -/

namespace Progress

/-- The name of the next temporary. -/
def nextTemp (p : Progress) : String := tempName (p.scope.temps + 1)

/-- The labels of the next labeled loop. -/
def nextLabels (p : Progress) : LabelPair :=
  ⟨labelName (p.scope.labels + 1), labelName (p.scope.labels + 2)⟩

def takeName (p : Progress) : Progress := { p with scope := p.scope.freshName.2 }

def takeTemp (p : Progress) (type : JavaType) : Progress :=
  { p with scope := (p.scope.freshTemp type).2 }

/-- Two labels are taken for a labeled loop. -/
def takeLabels (p : Progress) : Progress :=
  { p with scope := p.scope.freshLabel.2.freshLabel.2 }

/-- The statement that declares the next temporary. -/
def declareTemp (p : Progress) (type : JavaType) (init : Expr) : Stmt :=
  .declare type p.nextTemp init

/-- The flag of a body that may run again. -/
def flag (p : Progress) (redo : Bool) : Option String := if redo then some p.nextTemp else none

/-- The statement that declares a variable for a condition. -/
def declareFlag (p : Progress) : Stmt :=
  p.declareTemp .boolean (.literal JavaType.boolean.defaultValue)

def flagCode (p : Progress) (redo : Bool) : Code := if redo then [p.declareFlag] else []

def takeFlag (p : Progress) (redo : Bool) : Progress :=
  if redo then p.takeTemp .boolean else p

end Progress

/-- A context inside one more loop. -/
def Context.enter (ctx : Context) (loop : EnclosingLoop) : Context :=
  { ctx with loops := loop :: ctx.loops }

/-! ## Loops with a condition -/

/-- Every part of the loop is as it should be. -/
structure Loop.Each (P : α → Prop) (spec : Loop α) : Prop where
  init : ∀ part ∈ spec.init, P part
  cond : P spec.cond
  pre : ∀ part ∈ spec.pre, P part
  body : ∀ part ∈ spec.body, P part
  post : ∀ part ∈ spec.post, P part

theorem Loop.each_of_children {P : α → Prop} {spec : Loop α}
    (all : ∀ part ∈ (Kind.loop spec).children, P part) : spec.Each P := by
  simp only [Kind.children, List.forall_mem_append, List.forall_mem_cons, Option.mem_toList] at all
  exact ⟨all.1, all.2.1, all.2.2.1.1, all.2.2.1.2, all.2.2.2⟩

/-- One pass of a loop with a labeled body, up to the condition's new value if that is in a
    variable. -/
def lowerPass (spec : Loop Part) (inner : String) (flag : Option String) (held : Option Temp) :
    Lower Unit := do
  lowerEffects spec.pre
  lowerLabeledBody spec.body inner flag
  lowerEffects spec.post
  match held with
  | some held => held.refresh
  | none => return

/-- What is left of a loop with a labeled body once its test is at hand. -/
def lowerTestedLoop (spec : Loop Part) (cond : Expr) (held : Option Temp) : Lower Unit := do
  let test : Test := ⟨cond, spec.negative⟩
  let outer ← Lower.freshLabel
  let inner ← Lower.freshLabel
  let code ← Lower.block [labelPiece outer, loopOpening spec.checkFirst test] do
    let flag ← if spec.redo then some <$> Lower.newDefaultTemp .boolean else pure none
    Lower.inLoop ⟨.labeledWhile, some ⟨outer, inner⟩, flag⟩ (lowerPass spec inner flag held)
  Lower.emit (.labeled outer (loopStmt spec.checkFirst test code))

/-- What is left of a loop with a labeled body is its pass, under labels and a flag of its own. -/
theorem ends_lowerTestedLoop {spec : Loop Part} {cond : Expr} {held : Option Temp}
    (ends : Ends (lowerTestedLoop spec cond held) ctx p code () p') :
    ∃ pass, Ends (lowerPass spec p.nextLabels.inner (p.flag spec.redo) held)
        (ctx.enter ⟨.labeledWhile, p.nextLabels, p.flag spec.redo⟩)
        (p.takeLabels.takeFlag spec.redo) pass () p' ∧
      code = [.labeled p.nextLabels.outer (loopStmt spec.checkFirst ⟨cond, spec.negative⟩
        (p.flagCode spec.redo ++ pass))] := by
  obtain ⟨_, outer, _, _, first, rest, rfl⟩ := ends_bind.mp ends
  obtain ⟨_, inner, _, _, second, others, rfl⟩ := ends_bind.mp rest
  obtain ⟨body, _, run, last⟩ := ends_blockBind.mp others
  obtain ⟨rfl, rfl, rfl⟩ := ends_freshLabel.mp first
  obtain ⟨rfl, rfl, rfl⟩ := ends_freshLabel.mp second
  obtain ⟨rfl, rfl⟩ := ends_emit.mp last
  cases redo : spec.redo with
  | false =>
    rw [redo] at run
    obtain ⟨_, _, _, pass, unflagged, passed, rfl⟩ := ends_bind.mp run
    obtain ⟨rfl, rfl, rfl⟩ := ends_pure.mp unflagged
    exact ⟨pass, passed, rfl⟩
  | true =>
    rw [redo] at run
    obtain ⟨_, _, _, pass, flagged, passed, rfl⟩ := ends_bind.mp run
    obtain ⟨name, declared, rfl⟩ := ends_map.mp flagged
    obtain ⟨rfl, rfl, rfl⟩ := ends_newTemp.mp declared
    exact ⟨pass, passed, rfl⟩

/-- The test of a labeled loop is in place, or in a variable that is computed first if it is tested
    first. -/
theorem ends_loopTest {spec : Loop Part} {test : Expr × Option Temp}
    (ends : Ends (loopTest spec) ctx p code test p') :
    (spec.cond.tree.isExpression p.scope.isLocal = true ∧ test.2 = none ∧
      Ends spec.cond.toInline ctx p code test.1 p') ∨
    (spec.cond.tree.isExpression p.scope.isLocal = false ∧
      test = (.var p.nextTemp, some ⟨p.nextTemp, some spec.cond⟩) ∧
      ∃ first, code = p.declareFlag :: first ∧
        ((spec.checkFirst = true ∧ Ends (spec.cond.toStatement (.store (.into p.nextTemp))) ctx
          (p.takeTemp .boolean) first () p') ∨
        (spec.checkFirst = false ∧ first = [] ∧ p.takeTemp .boolean = p'))) := by
  unfold loopTest Ends at ends
  rw [Part.isExpression_bind] at ends
  split at ends
  · next placed =>
    obtain ⟨expr, ran, rfl⟩ := ends_map.mp ends
    exact .inl ⟨placed, rfl, ran⟩
  · next unplaced =>
    obtain ⟨_, name, _, _, declared, rest, rfl⟩ := ends_bind.mp ends
    obtain ⟨rfl, rfl, rfl⟩ := ends_newTemp.mp declared
    dsimp only at rest
    split at rest
    · next checked =>
      obtain ⟨first, _, _, _, ran, last, rfl⟩ := ends_bind.mp rest
      obtain ⟨rfl, rfl, rfl⟩ := ends_pure.mp last
      rw [List.append_nil]
      exact .inr ⟨Bool.eq_false_iff.mpr unplaced, rfl, first, rfl, .inl ⟨checked, ran⟩⟩
    · next unchecked =>
      obtain ⟨rfl, rfl, rfl⟩ := ends_pure.mp rest
      exact .inr ⟨Bool.eq_false_iff.mpr unplaced, rfl, [], rfl,
        .inr ⟨Bool.eq_false_iff.mpr unchecked, rfl, rfl⟩⟩

theorem lowerLabeledLoop_eq (spec : Loop Part) :
    lowerLabeledLoop spec = loopTest spec >>= fun test => lowerTestedLoop spec test.1 test.2 := rfl

/-- The condition is written in the loop if it is an expression, or else held in a variable. -/
theorem lowerLabeledLoop_apply (spec : Loop Part) (ctx : Context) (p : Progress) :
    lowerLabeledLoop spec ctx p =
      (if spec.cond.tree.isExpression p.scope.isLocal then
        spec.cond.toInline >>= fun cond => lowerTestedLoop spec cond none
      else newDefaultTemp .boolean >>= fun name =>
        (if spec.checkFirst then Temp.refresh ⟨name, some spec.cond⟩ else pure ()) >>= fun _ =>
          lowerTestedLoop spec (.var name) (some ⟨name, some spec.cond⟩)) ctx p := by
  rw [lowerLabeledLoop_eq]
  unfold loopTest
  rw [bind_assoc, Part.isExpression_bind]
  cases spec.cond.tree.isExpression p.scope.isLocal <;> cases spec.checkFirst <;>
    simp only [Bool.false_eq_true, if_true, if_false, bind_assoc, pure_bind]

/-- Whether the loop needs labels. -/
def Loop.isLabeled (spec : Loop Part) (isLocal : String → Bool) : Bool :=
  spec.redo || spec.post.isSome || !spec.cond.tree.isExpression isLocal

theorem Loop.isLabeled_eq_false {spec : Loop Part} {isLocal : String → Bool}
    (plain : spec.isLabeled isLocal = false) :
    spec.redo = false ∧ spec.post = none ∧ spec.cond.tree.isExpression isLocal = true := by
  simp only [isLabeled, Bool.or_eq_false_iff, Option.isSome_eq_false_iff, Option.isNone_iff_eq_none,
    Bool.not_eq_false'] at plain
  exact ⟨plain.1.1, plain.1.2, plain.2⟩

/-- The form of a loop is chosen before anything is laid out. -/
theorem lowerLoop_apply (spec : Loop Part) (ctx : Context) (p : Progress) :
    lowerLoop spec ctx p =
      ((if spec.redo then pure () else refuseRedo spec.body
          (if spec.isLabeled p.scope.isLocal then .labeledWhile else .plainWhile)) >>= fun _ =>
        lowerEffects spec.init >>= fun _ =>
          if spec.isLabeled p.scope.isLocal then lowerLabeledLoop spec else lowerPlainLoop spec)
        ctx p := by
  unfold lowerLoop Loop.isLabeled
  rw [Lower.scope_bind]
  cases spec.redo with
  | true =>
    rw [if_pos rfl, pure_bind]
    rfl
  | false => rfl

/-- A body that is not refused leaves no trace of the check. -/
theorem ends_refuseRedo {body : Option Part} {form : LoopForm} {redo : Bool}
    (ends : Ends (if redo then pure () else refuseRedo body form) ctx p code () p') :
    code = [] ∧ p = p' := by
  have unchanged : Ends (pure ()) ctx p code () p' → code = [] ∧ p = p' := by
    intro ends
    obtain ⟨rfl, -, rfl⟩ := ends_pure.mp ends
    exact ⟨rfl, rfl⟩
  unfold refuseRedo at ends
  split at ends
  · exact unchanged ends
  · split at ends
    · split at ends
      · exact absurd ends not_ends_fail
      · exact unchanged ends
    · exact unchanged ends

/-! ## Loops over elements -/

theorem ForEach.each_of_children {P : α → Prop} {spec : ForEach α}
    (all : ∀ part ∈ (Kind.forEach spec).children, P part) :
    P spec.iterable ∧ ∀ part ∈ spec.body, P part := by
  simpa only [Kind.children, List.forall_mem_cons, Option.mem_toList, Option.mem_def] using all

/-- The variable of a loop over elements, if the element's own name is taken. -/
def eachCopy (spec : ForEach Part) : Lower (Option String) := do
  if ← Lower.isLocal spec.var then some <$> Lower.freshName else pure none

/-- What is left of a loop over elements once these are at hand and the variable is chosen. -/
def lowerElements (spec : ForEach Part) (iterable : Expr) (copyOf : Option String) :
    Lower Unit := do
  let element := spec.iterable.tree.type.component?.getD .object
  let var := copyOf.getD spec.var
  let opening : Piece := .opening (Java.forHeading element var iterable)
  let copy : Lower Unit := copyInto (copyOf.map fun _ => spec.var) var
  if spec.redo then
    let outer ← Lower.freshLabel
    let inner ← Lower.freshLabel
    let code ← Lower.block [labelPiece outer, opening] do
      copy
      let flag ← Lower.newDefaultTemp .boolean
      Lower.inLoop ⟨.labeledForEach, some ⟨outer, inner⟩, some flag⟩ do
        eachBody spec element copyOf (lowerLabeledBody spec.body inner (some flag))
    Lower.emit (.labeled outer (.forEach element var iterable code))
  else
    let code ← Lower.block [opening] do
      copy
      Lower.inLoop ⟨.plainForEach, none, none⟩
        (eachBody spec element copyOf (lowerEffects spec.body))
    Lower.emit (.forEach element var iterable code)

theorem lowerForEach_eq (spec : ForEach Part) :
    lowerForEach spec =
      ((if spec.redo then pure () else refuseRedo spec.body .plainForEach) >>= fun _ =>
        spec.iterable.toExpr >>= fun iterable =>
          eachCopy spec >>= fun copyOf => lowerElements spec iterable copyOf) := by
  have choice : ∀ f : Option String → Lower Unit, (do
      let copyOf ← if ← Lower.isLocal spec.var then some <$> Lower.freshName else pure none
      f copyOf) = eachCopy spec >>= f := by
    intro f
    unfold eachCopy
    rw [bind_assoc]
    refine bind_congr fun known => ?_
    cases known <;> rfl
  unfold lowerForEach lowerElements
  cases redo : spec.redo with
  | true =>
    refine Eq.trans ?_ (pure_bind () _).symm
    refine bind_congr fun iterable => ?_
    exact choice _
  | false =>
    refine bind_congr fun _ => bind_congr fun iterable => ?_
    exact choice _

/-- The run of a loop over elements without labels. -/
theorem ends_plainElements {spec : ForEach Part} {iterable : Expr} {copyOf : Option String}
    (plain : spec.redo = false)
    (ends : Ends (lowerElements spec iterable copyOf) ctx p code () p') :
    ∃ (copy : Code) (p₁ : Progress) (pass : Code),
      Ends (copyInto (copyOf.map fun _ => spec.var) (copyOf.getD spec.var)) ctx p copy () p₁ ∧
      Ends (eachBody spec (spec.iterable.tree.type.component?.getD .object) copyOf
          (lowerEffects spec.body))
        { ctx with loops := ⟨.plainForEach, none, none⟩ :: ctx.loops } p₁ pass () p' ∧
      code = [.forEach (spec.iterable.tree.type.component?.getD .object) (copyOf.getD spec.var)
        iterable (copy ++ pass)] := by
  unfold lowerElements at ends
  rw [plain] at ends
  obtain ⟨inner, _, run, last⟩ := ends_blockBind.mp ends
  obtain ⟨rfl, rfl⟩ := ends_emit.mp last
  obtain ⟨copy, _, p₁, pass, copied, passed, rfl⟩ := ends_bind.mp run
  exact ⟨copy, p₁, pass, copied, passed, rfl⟩

/-- What is left of a loop over elements with a labeled body is that body, under labels and a flag of
    its own. -/
theorem ends_labeledElements {spec : ForEach Part} {iterable : Expr} {copyOf : Option String}
    (redo : spec.redo = true)
    (ends : Ends (lowerElements spec iterable copyOf) ctx p code () p') :
    ∃ (copy : Code) (q : Progress) (pass : Code),
      Ends (copyInto (copyOf.map fun _ => spec.var) (copyOf.getD spec.var)) ctx p.takeLabels copy () q ∧
      Ends (eachBody spec (spec.iterable.tree.type.component?.getD .object) copyOf
          (lowerLabeledBody spec.body p.nextLabels.inner (some q.nextTemp)))
        (ctx.enter ⟨.labeledForEach, p.nextLabels, q.nextTemp⟩) (q.takeTemp .boolean) pass () p' ∧
      code = [.labeled p.nextLabels.outer (.forEach (spec.iterable.tree.type.component?.getD .object)
        (copyOf.getD spec.var) iterable (copy ++ q.declareFlag :: pass))] := by
  unfold lowerElements at ends
  rw [redo] at ends
  obtain ⟨_, outer, _, _, first, rest, rfl⟩ := ends_bind.mp ends
  obtain ⟨_, inner, _, _, second, others, rfl⟩ := ends_bind.mp rest
  obtain ⟨body, _, run, last⟩ := ends_blockBind.mp others
  obtain ⟨rfl, rfl, rfl⟩ := ends_freshLabel.mp first
  obtain ⟨rfl, rfl, rfl⟩ := ends_freshLabel.mp second
  obtain ⟨rfl, rfl⟩ := ends_emit.mp last
  obtain ⟨copy, _, q, _, copied, flagged, rfl⟩ := ends_bind.mp run
  obtain ⟨_, _, _, pass, declared, passed, rfl⟩ := ends_bind.mp flagged
  obtain ⟨rfl, rfl, rfl⟩ := ends_newTemp.mp declared
  exact ⟨copy, q, pass, copied, passed, rfl⟩

/-- The variable of a loop over elements takes no name from a supply. -/
theorem ends_eachBody {spec : ForEach Part} {element : JavaType} {copyOf : Option String}
    {body : Lower Unit} (ends : Ends (eachBody spec element copyOf body) ctx p code () p') :
    ∃ q q', q.scope.supply = p.scope.supply ∧ p'.scope.supply = q'.scope.supply ∧
      Ends body ctx q code () q' := by
  unfold eachBody at ends
  split at ends
  · exact ⟨p, p', rfl, rfl, ends⟩
  · exact ends_withLocal_supply ends

/-! ## Jumps -/

/-- The code for a jump of a loop. -/
inductive EnclosingLoop.Jumps (loop : EnclosingLoop) : Jump → Code → Prop
  | break : Jumps loop .break [.break (loop.labels.map LabelPair.outer)]
  | nextPlain (plain : loop.labels = none) : Jumps loop .next [.continue none]
  | nextLabeled {labels : LabelPair} (labeled : loop.labels = some labels) :
    Jumps loop .next [.break (some labels.inner)]
  | redo {labels : LabelPair} {flag : String} (labeled : loop.labels = some labels)
    (flagged : loop.redoFlag = some flag) :
    Jumps loop .redo
      [.store (.into flag) (.literal (.bool true)), .continue (some labels.inner)]

/-- A jump is one of the innermost loop. -/
theorem ends_lowerJump {action : Jump} (ends : Ends (lowerJump action) ctx p code () p') :
    p = p' ∧ ∃ loop others, ctx.loops = loop :: others ∧ loop.Jumps action code := by
  unfold lowerJump Ends at ends
  rw [Lower.context_bind] at ends
  cases around : ctx.loops with
  | nil =>
    rw [around] at ends
    exact absurd ends not_ends_fail
  | cons loop others =>
    rw [around] at ends
    obtain ⟨form, labels, flag⟩ := loop
    cases action with
    | «break» =>
      obtain ⟨rfl, rfl⟩ := ends_emit.mp ends
      exact ⟨rfl, _, others, rfl, .break⟩
    | next =>
      cases labels with
      | none =>
        obtain ⟨rfl, rfl⟩ := ends_emit.mp ends
        exact ⟨rfl, _, others, rfl, .nextPlain rfl⟩
      | some labels =>
        obtain ⟨rfl, rfl⟩ := ends_emit.mp ends
        exact ⟨rfl, _, others, rfl, .nextLabeled rfl⟩
    | redo =>
      cases labels with
      | none => exact absurd ends not_ends_fail
      | some labels =>
        cases flag with
        | none => exact absurd ends not_ends_fail
        | some flag =>
          obtain ⟨_, _, _, _, set, last, rfl⟩ := ends_bind.mp ends
          obtain ⟨rfl, rfl⟩ := ends_emit.mp set
          obtain ⟨rfl, rfl⟩ := ends_emit.mp last
          exact ⟨rfl, _, others, rfl, .redo rfl rfl⟩

end JavaBackend
