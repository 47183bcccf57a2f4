import JavaBackend.Proofs.Lowering.Acceptance
import JavaBackend.Proofs.Meaning.Rounds

/-!
# The code of loops

The rules for loops and jumps: if the code of a loop's parts does what the parts mean, then the code
of the loop does what the loop means. A loop with a condition has four forms of code: its body is
labeled or not, and its condition stands in place or is computed into a variable. A loop over elements
has a labeled body if that may be run again.
-/

namespace JavaBackend

open Java (Stmt Code Expr Sink Env Result Exec Test)
open Java.Exec (inBlock catchLabel catchBreak catchContinue)
open Lower Meaning

variable {α β : Type} {S : Setting} {ctx : Context} {p p' : Progress} {code : Code}
  {type : JavaType}

namespace Setting

variable {base lo mid hi : Nat} {loops : List EnclosingLoop}

/-! ## Loops with a condition -/

/-- The parts of a loop do what they mean. -/
structure Passes (S : Setting) (spec : Loop Tree) : Prop where
  init : ∀ part ∈ spec.init, S.Acts false part
  pre : ∀ part ∈ spec.pre, S.Acts false part
  post : ∀ part ∈ spec.post, S.Acts false part
  body : ∀ part ∈ spec.body, S.Acts true part
  cond : S.Evaluates spec.cond
  /-- Whether the condition is an expression does not depend on the variables that are known. -/
  steady : ∀ known known', spec.cond.isExpression known = spec.cond.isExpression known'

variable {spec : Loop Tree}

/-- A round is over. -/
theorem matches_round {I near : Env → Prop} {ρ : Env} (kept : I ρ) (again : Bool) (h : History) :
    Matches loops (Matches.Round I (Reaches (fun _ _ ρ' => I ρ') ())) near
      ((pure again : Meaning Bool) h) ((pure again : Exec Bool) ρ h) := by
  cases again with
  | true => exact ⟨ρ, rfl, kept⟩
  | false => exact .inl ⟨ρ, rfl, (), ρ, rfl, kept⟩

/-- Whether a condition in place holds. -/
theorem matches_test {expr : Expr} {ρ : Env} (spec : Loop (Meaning Value))
    (yields : S.Yields ctx lo lo [] (expr.eval S.world) spec.cond) (high : lo ≤ S.top)
    (ready : S.Ready ctx lo ρ) (h : History) :
    Matches loops (Matches.Round (· = ρ) (Reaches (fun _ _ ρ' => ρ' = ρ) ())) (· = ρ)
      (spec.test h) (Test.holds S.world ⟨expr, spec.negative⟩ ρ h) := by
  have agree : Matches loops _ (· = ρ) (spec.cond.closed h) _ :=
    (yields.agrees high ρ h ready).closed
  refine agree.bind ?_
  rintro _ value ρ' h' ⟨rfl, frame⟩
  refine matches_round ?_ _ h'
  exact frame.eq_of_le (Nat.le_refl lo)

/-- What a Java loop does between its jumps. -/
def loopRounds (n : Nat) (checkFirst : Bool) (test pass : Exec Bool) : Exec Unit :=
  if checkFirst then (do if ← test then rounds Exec.running pass n)
  else rounds Exec.running pass n

theorem exec_loopStmt (checkFirst : Bool) (test : Test) (body : Code) (names : List String) :
    (loopStmt checkFirst test body).exec S.world S.n names =
      catchBreak (loopRounds S.n checkFirst (test.holds S.world)
        (do catchContinue names (Exec.inBlock (S.exec body)); test.holds S.world)) := by
  cases checkFirst <;> rfl

/-- A loop whose condition is in place runs side by side with the source if each pass does. -/
theorem matches_loopRounds {expr : Expr} {ρ : Env} {work : Exec Unit} (spec : Loop (Meaning Value))
    (yields : S.Yields ctx lo lo [] (expr.eval S.world) spec.cond) (high : lo ≤ S.top)
    (ready : S.Ready ctx lo ρ)
    (pass : ∀ h, Matches loops (Reaches fun _ _ ρ' => ρ' = ρ) (· = ρ) (spec.work S.n h) (work ρ h))
    (h : History) :
    Matches loops (Reaches fun _ _ ρ' => ρ' = ρ) (· = ρ) (spec.passes S.n h)
      (loopRounds S.n spec.checkFirst (Test.holds S.world ⟨expr, spec.negative⟩)
        (do work; Test.holds S.world ⟨expr, spec.negative⟩) ρ h) := by
  have tested : ∀ h, Matches loops (Matches.Round (· = ρ) (Reaches (fun _ _ ρ' => ρ' = ρ) ()))
      (· = ρ) (spec.test h) (Test.holds S.world ⟨expr, spec.negative⟩ ρ h) :=
    matches_test spec yields high ready
  have step : ∀ ρ' h, ρ' = ρ → Matches loops
      (Matches.Round (· = ρ) (Reaches (fun _ _ ρ' => ρ' = ρ) ())) (· = ρ) (spec.pass S.n h)
      ((do work; Test.holds S.world ⟨expr, spec.negative⟩) ρ' h) := by
    rintro _ h rfl
    refine (pass h).bind ?_
    rintro _ _ _ h' rfl
    exact tested h'
  have all := Matches.rounds step S.n
  unfold Loop.passes loopRounds
  split
  · exact Matches.round_bind (tested h) all
  · exact all ρ h rfl

/-- A pass with nothing after the body. -/
theorem work_of_post_none (noPost : spec.post = none) :
    (spec.map S.meaning).work S.n = (do
      (effects (spec.pre.map S.meaning)).closed
      again S.n (spec.body.map S.meaning)) := by
  unfold Loop.work Loop.map
  rw [noPost]
  exact bind_congr fun _ => bind_pure_unit

theorem performs_plainLoop (passes : S.Passes spec) (noPost : spec.post = none)
    (expression : spec.cond.isExpression p.scope.isLocal = true)
    (ends : Ends (lowerPlainLoop (spec.map Tree.part)) ctx p code () p') :
    S.Performs ctx p.scope.temps p'.scope.temps [] code
      (untilBreak ((spec.map S.meaning).passes S.n)) := by
  obtain ⟨_, expr, p₁, _, inline, rest, rfl⟩ := ends_bind.mp ends
  obtain ⟨inner, _, run, last⟩ := ends_blockBind.mp rest
  obtain ⟨rfl, rfl⟩ := ends_emit.mp last
  obtain ⟨rfl, same, yields⟩ := passes.cond.inPlace expression inline
  obtain ⟨preCode, _, _, bodyCode, preEnds, bodyEnds, rfl⟩ := ends_bind.mp (ends_inLoop.mp run)
  have pre : S.Performs _ _ _ [] _ _ := performs_lowerEffects passes.pre preEnds
  have performs := pre.closed.append (performs_lowerEffects passes.body bodyEnds)
  rw [same] at performs
  refine ⟨performs.grows, fun high ρ h ready => ?_⟩
  have ready' := ready.inLoop ⟨.plainWhile, none, none⟩ (fun _ mem => nomatch mem)
  have work : ∀ h, Matches (⟨.plainWhile, none, none⟩ :: ctx.loops) (Reaches fun _ _ ρ' => ρ' = ρ)
      (· = ρ) ((spec.map S.meaning).work S.n h)
      (catchContinue [] (Exec.inBlock (S.exec (preCode ++ bodyCode))) ρ h) := by
    intro h
    have agree := performs.inBlock (Context.head?_reach _ true) high ready' h
    rw [work_of_post_none noPost]
    exact Matches.again_plain_after agree rfl S.n []
  have all := matches_loopRounds (spec.map S.meaning) yields (Nat.le_trans performs.grows high) ready
    work h
  rw [List.nil_append, exec_singleton, exec_loopStmt]
  refine (all.untilBreak rfl (Loop.onlyBreaks_passes _ _)).mono ?_ fun _ near => near
  rintro _ h' _ ⟨b, _, reached, rfl⟩
  exact ⟨b, _, reached, Frame.refl _ _ _⟩

/-! ### Loops with a labeled body -/

/-- A pass up to the test, and what is left of it then. -/
theorem within_work {loop : EnclosingLoop} {others : List EnclosingLoop} {labels : LabelPair}
    {held : Option Temp} (passes : S.Passes spec) (around : ctx.loops = loop :: others)
    (labeled : loop.labels = some labels) (distinct : labels.outer ≠ labels.inner)
    (fresh : ∀ name ∈ loop.redoFlag, ∃ k, base < k ∧ name = tempName k)
    (below : base ≤ p.scope.temps)
    (ends : Ends (lowerPass (spec.map Tree.part) labels.inner loop.redoFlag held) ctx p code () p') :
    ∃ work p₁ rest, code = work ++ rest ∧
      S.Within base ctx p.scope.temps p₁.scope.temps ctx.loops ((spec.map S.meaning).work S.n)
        (S.exec work) ∧
      Ends (match held with | some held => held.refresh | none => pure ()) ctx p₁ rest () p' := by
  obtain ⟨preCode, _, _, _, preEnds, others₁, rfl⟩ := ends_bind.mp ends
  obtain ⟨bodyCode, _, _, _, bodyEnds, others₂, rfl⟩ := ends_bind.mp others₁
  obtain ⟨postCode, _, p₃, rest, postEnds, last, rfl⟩ := ends_bind.mp others₂
  have pre : S.Performs _ _ _ [] _ _ := performs_lowerEffects passes.pre preEnds
  have body : S.Within base _ _ _ _ _ _ :=
    within_labeledBody passes.body around labeled distinct fresh bodyEnds
  have post : S.Performs _ _ _ [] _ _ := performs_lowerEffects passes.post postEnds
  refine ⟨preCode ++ (bodyCode ++ postCode), p₃, rest, by simp only [List.append_assoc], ?_, last⟩
  have bound := Nat.le_trans below pre.grows
  have within := (pre.closed.within below).andThen
    (body.andThen (post.closed.within (Nat.le_trans bound body.grows)))
  rw [← exec_append, ← exec_append] at within
  exact within

theorem labels_distinct (n : Nat) : labelName (n + 1) ≠ labelName (n + 2) := by
  intro same
  have := labelName_inj same
  omega

/-- The code of a loop with a labeled body. -/
theorem opens_lowerTestedLoop {cond : Expr} {held : Option Temp}
    (ends : Ends (lowerTestedLoop (spec.map Tree.part) cond held) ctx p code () p') :
    ∃ (loop : EnclosingLoop) (labels : LabelPair) (start : Code) (p₁ : Progress) (pass : Code),
      loop.labels = some labels ∧ labels.outer ≠ labels.inner ∧
      (∀ name ∈ loop.redoFlag, ∃ k, p.scope.temps < k ∧ name = tempName k) ∧
      S.Opens ctx { ctx with loops := loop :: ctx.loops } p.scope.temps p₁.scope.temps start ∧
      Ends (lowerPass (spec.map Tree.part) labels.inner loop.redoFlag held)
        { ctx with loops := loop :: ctx.loops } p₁ pass () p' ∧
      code = [.labeled labels.outer (loopStmt spec.checkFirst ⟨cond, spec.negative⟩
        (start ++ pass))] := by
  obtain ⟨pass, passed, rfl⟩ := ends_lowerTestedLoop ends
  refine ⟨⟨.labeledWhile, p.nextLabels, p.flag spec.redo⟩, p.nextLabels, p.flagCode spec.redo, _, pass,
    rfl, labels_distinct _, ?_, ?_, passed, rfl⟩
  · intro name found
    unfold Progress.flag at found
    split at found <;> cases found
    exact ⟨p.scope.temps + 1, Nat.lt_succ_self _, rfl⟩
  · have redo : (spec.map Tree.part).redo = spec.redo := rfl
    rw [redo]
    cases spec.redo with
    | false => exact opens_unflagged rfl
    | true => exact opens_flagged rfl _ _

/-- A loop with a labeled body whose condition is in place. -/
theorem performs_testedLoop {expr : Expr} (passes : S.Passes spec)
    (yields : S.Yields ctx p.scope.temps p.scope.temps [] (expr.eval S.world) (S.meaning spec.cond))
    (ends : Ends (lowerTestedLoop (spec.map Tree.part) expr none) ctx p code () p') :
    S.Performs ctx p.scope.temps p'.scope.temps [] code
      (untilBreak ((spec.map S.meaning).passes S.n)) := by
  obtain ⟨loop, labels, start, p₁, _, labeled, distinct, fresh, ⟨grows, opens⟩, pass, rfl⟩ :=
    opens_lowerTestedLoop (S := S) ends
  obtain ⟨work, p₂, _, rfl, within, last⟩ :=
    within_work passes rfl labeled distinct fresh grows pass
  obtain ⟨rfl, -, rfl⟩ := ends_pure.mp last
  have grows' := within.grows
  refine ⟨Nat.le_trans grows grows', fun high ρ h ready => ?_⟩
  obtain ⟨ρ₁, starts, started, ready₁⟩ := opens (Nat.le_trans grows' high) ρ ready
  have only := (spec.map S.meaning).onlyBreaks_work S.n
  have each : ∀ h, Matches (loop :: ctx.loops) (Reaches fun _ _ ρ' => ρ' = ρ) (· = ρ)
      ((spec.map S.meaning).work S.n h)
      (catchContinue [labels.outer] (Exec.inBlock (S.exec (start ++ (work ++ [])))) ρ h) := by
    intro h
    rw [List.append_nil]
    refine Matches.catchContinue_of_onlyBreaks ?_ only _
    exact within.inBlock ready.above high (only.noRedo _) (starts work h) started ready₁ ready.free
  have all := matches_loopRounds (spec.map S.meaning) yields (by omega) ready each h
  have runs : S.exec [.labeled labels.outer (loopStmt spec.checkFirst ⟨expr, spec.negative⟩
      (start ++ (work ++ [])))] = _ := exec_singleton _
  rw [runs, Stmt.exec, exec_loopStmt]
  have named : loop.labels.map LabelPair.outer = some labels.outer := by rw [labeled]; rfl
  refine (all.untilBreak named (Loop.onlyBreaks_passes _ _)).mono ?_ fun _ near => near
  rintro _ h' _ ⟨b, _, reached, rfl⟩
  exact ⟨b, _, reached, Frame.refl _ _ _⟩

/-- A pass that leaves the condition's value in a variable, and the test of that variable. -/
theorem matches_heldPass {name : String} {ρ : Env} {I : Env → Prop} {java : Exec Unit} {h : History}
    (spec : Loop (Meaning Value))
    (block : Matches loops (Reaches fun value _ ρ' => ρ' = ρ.set name value) (· = ρ)
      ((do spec.work S.n; spec.cond.closed) h) (java ρ h))
    (kept : I ρ) (keptSet : ∀ value, I (ρ.set name value)) :
    Matches loops (Matches.Round I (Reaches (fun _ _ ρ' => I ρ') ())) I (spec.pass S.n h)
      ((do java; Test.holds S.world ⟨.var name, spec.negative⟩) ρ h) := by
  have unfolded : spec.pass S.n = (do
      let cond ← (do spec.work S.n; spec.cond.closed)
      return cond.isTrue != spec.negative) := by
    rw [bind_assoc]
    rfl
  rw [unfolded]
  refine (block.mono (fun _ _ _ done => done) ?_).bind ?_
  · rintro _ rfl
    exact kept
  · rintro cond _ _ h' rfl
    rw [Test.holds_var (Env.set_self _ _ _)]
    exact matches_round (keptSet cond) _ h'

/-- All passes, the first of which depends on the variable as well if the loop is tested first. -/
theorem matches_passesFrom {name : String} {ρ : Env} {I : Env → Prop} {pass : Exec Bool}
    {value : Value} (spec : Loop (Meaning Value))
    (step : ∀ ρ h, I ρ → Matches loops (Matches.Round I (Reaches (fun _ _ ρ' => I ρ') ())) I
      (spec.pass S.n h) (pass ρ h))
    (kept : I ρ) (held : ρ name = some value) (h : History) :
    Matches loops (Reaches fun _ _ ρ' => I ρ') I (spec.passesFrom S.n value h)
      (loopRounds S.n spec.checkFirst (Test.holds S.world ⟨.var name, spec.negative⟩) pass ρ h) := by
  have all := Matches.rounds step S.n ρ h kept
  unfold Loop.passesFrom loopRounds
  cases spec.checkFirst with
  | false => exact all
  | true =>
    rw [if_pos rfl, if_pos rfl, Exec.bind_apply, Test.holds_var held]
    cases value.isTrue != spec.negative with
    | true => exact all
    | false => exact ⟨(), ρ, rfl, kept⟩

/-- A loop with a labeled body whose condition is in a variable. -/
theorem matches_heldLoop {j : Nat} (passes : S.Passes spec) (bound : j ≤ p.scope.temps)
    (ends : Ends (lowerTestedLoop (spec.map Tree.part) (.var (tempName j))
      (some ⟨tempName j, some spec.cond.part⟩)) ctx p code () p') :
    p.scope.temps ≤ p'.scope.temps ∧ (S.bot < j → p'.scope.temps ≤ S.top → ∀ {near ρ value} h,
      S.Ready ctx p.scope.temps ρ → ρ (tempName j) = some value →
      Matches [] (Reaches fun _ _ ρ' => ∃ value, ρ' = ρ.set (tempName j) value) near
        (untilBreak ((spec.map S.meaning).passesFrom S.n value) h) (S.exec code ρ h)) := by
  obtain ⟨loop, labels, start, p₁, _, labeled, distinct, fresh, ⟨grows, opens⟩, pass, rfl⟩ :=
    opens_lowerTestedLoop (S := S) ends
  obtain ⟨work, p₂, rest, rfl, within, last⟩ :=
    within_work passes rfl labeled distinct fresh grows pass
  have grows' := within.grows
  have outer : S.Outer p₂.scope.temps (.into (tempName j)) := .inr ⟨j, by omega, rfl⟩
  have delivers := passes.cond.store outer last
  have grows'' := delivers.grows
  refine ⟨by omega, fun low high near ρ value h ready held => ?_⟩
  have only := (spec.map S.meaning).onlyBreaks_work S.n
  -- Between two passes only the condition's variable can differ.
  let I : Env → Prop := fun ρ' => ∃ value, ρ' = ρ.set (tempName j) value
  have here : I ρ := ⟨value, (Env.set_eq_self held).symm⟩
  have step : ∀ ρ' h, I ρ' → Matches (loop :: ctx.loops)
      (Matches.Round I (Reaches (fun _ _ ρ' => I ρ') ())) I ((spec.map S.meaning).pass S.n h)
      ((do
        catchContinue [labels.outer] (Exec.inBlock (S.exec (start ++ (work ++ rest))))
        Test.holds S.world ⟨.var (tempName j), spec.negative⟩) ρ' h) := by
    rintro _ h ⟨old, rfl⟩
    have ready' := ready.set low bound (by omega) old
    obtain ⟨ρ₁, starts, started, ready₁⟩ := opens (by omega) _ ready'
    have block := within.inBlock_deliver delivers ready.above grows high only
      ((starts _ h).trans (by rw [exec_append])) started ready₁ ready'.free bound (by simp)
    refine matches_heldPass (spec.map S.meaning) ?_ ⟨old, rfl⟩ fun value => ⟨value, Env.set_set _ _ _ _⟩
    exact block.catchContinue_of_onlyBreaks (only.bind fun _ => onlyBreaks_closed _) _
  have all := matches_passesFrom (spec.map S.meaning) step here held h
  have runs : S.exec [.labeled labels.outer (loopStmt spec.checkFirst
      ⟨.var (tempName j), spec.negative⟩ (start ++ (work ++ rest)))] = _ := exec_singleton _
  rw [runs, Stmt.exec, exec_loopStmt]
  have named : loop.labels.map LabelPair.outer = some labels.outer := by rw [labeled]; rfl
  exact all.untilBreak named (Loop.onlyBreaks_passesFrom _ _ _)

/-- The condition is computed into a variable in front of the loop. -/
theorem performs_heldLoop {testCode loopCode : Code} {p₁ : Progress} (passes : S.Passes spec)
    (bound : p.scope.temps + 1 ≤ p₁.scope.temps)
    (ends : Ends (lowerTestedLoop (spec.map Tree.part) (.var (tempName (p.scope.temps + 1)))
      (some ⟨tempName (p.scope.temps + 1), some spec.cond.part⟩)) ctx p₁ loopCode () p')
    {first : Meaning Value}
    (tested : S.Simulates ctx p.scope.temps p₁.scope.temps [] first (S.exec testCode) fun ρ =>
      Reaches fun value _ ρ' => Frame p.scope.temps p₁.scope.temps ρ ρ' ∧
        ρ' (tempName (p.scope.temps + 1)) = some value) :
    S.Performs ctx p.scope.temps p'.scope.temps [] (testCode ++ loopCode)
      (do untilBreak ((spec.map S.meaning).passesFrom S.n (← first.closed))) := by
  obtain ⟨grows, loop⟩ := matches_heldLoop passes bound ends
  have low := tested.grows
  refine ⟨Nat.le_trans low grows, fun high ρ h ready => ?_⟩
  rw [exec_append]
  have start : Matches [] _ (Frame p.scope.temps p'.scope.temps ρ) (first.closed h) _ :=
    (tested.agrees (Nat.le_trans grows high) ρ h ready).closed
  refine start.bind ?_
  rintro value _ ρ₁ h₁ ⟨frame, held⟩
  have above := ready.above
  have ready₁ := ready.frame frame low (Nat.le_trans grows high)
  refine (loop (by omega) high h₁ ready₁ held).mono ?_ fun _ near => near
  rintro _ h₂ _ ⟨b, _, reached, last, rfl⟩
  refine ⟨b, _, reached, ?_⟩
  exact (frame.mono (Nat.le_refl _) grows).trans (Frame.set (by omega) (by omega) ρ₁ last)

theorem performs_labeledLoop (passes : S.Passes spec)
    (ends : Ends (lowerLabeledLoop (spec.map Tree.part)) ctx p code () p') :
    S.Performs ctx p.scope.temps p'.scope.temps [] code
      (untilBreak ((spec.map S.meaning).passes S.n)) := by
  rw [lowerLabeledLoop_eq] at ends
  obtain ⟨_, ⟨cond, held⟩, p₁, _, tested, loop, rfl⟩ := ends_bind.mp ends
  rcases ends_loopTest tested with ⟨expression, rfl, inline⟩ | ⟨-, same, first, rfl, run⟩
  · obtain ⟨rfl, same, yields⟩ := passes.cond.inPlace expression inline
    rw [← same] at yields ⊢
    exact performs_testedLoop passes yields loop
  · cases same
    rcases run with ⟨checkFirst, refreshed⟩ | ⟨checkFirst, rfl, rfl⟩
    · have outer : S.Outer (p.takeTemp .boolean).scope.temps (.into (tempName (p.scope.temps + 1))) :=
        .inr ⟨_, Nat.le_refl _, rfl⟩
      have delivers := passes.cond.store outer refreshed
      rw [Loop.passes_checked (show spec.checkFirst = true from checkFirst), untilBreak_closed_bind]
      exact performs_heldLoop passes delivers.grows loop (delivers.held _ _)
    · rw [Loop.passes_unchecked (show spec.checkFirst = false from checkFirst) S.n
        (.literal JavaType.boolean.defaultValue)]
      refine performs_heldLoop passes (Nat.le_refl _) loop (?_ : S.Simulates _ _ _ [] (pure _) _ _)
      exact held_declare _ _

theorem performs_loop (passes : S.Passes spec)
    (ends : Ends (lowerLoop (spec.map Tree.part)) ctx p code () p') :
    S.Performs ctx p.scope.temps p'.scope.temps [] code ((spec.map S.meaning).meaning S.n) := by
  unfold Ends at ends
  rw [lowerLoop_apply] at ends
  obtain ⟨_, _, p₁, _, refused, rest, rfl⟩ := ends_bind.mp ends
  obtain ⟨_, _, p₂, loopCode, started, loop, rfl⟩ := ends_bind.mp rest
  obtain ⟨rfl, rfl⟩ := ends_refuseRedo refused
  have init : S.Performs _ _ _ [] _ _ := performs_lowerEffects passes.init started
  have all : S.Performs ctx p₂.scope.temps p'.scope.temps [] loopCode
      (untilBreak ((spec.map S.meaning).passes S.n)) := by
    cases labeled : (spec.map Tree.part).isLabeled p.scope.isLocal with
    | true =>
      rw [labeled] at loop
      exact performs_labeledLoop passes loop
    | false =>
      rw [labeled] at loop
      obtain ⟨-, post, expression⟩ := Loop.isLabeled_eq_false labeled
      have later : spec.cond.isExpression p₂.scope.isLocal = true :=
        (passes.steady _ _).trans expression
      exact performs_plainLoop passes (Option.map_eq_none_iff.mp post) later loop
  exact init.closed.append (all.map fun _ => Value.null)

theorem acts_loop {jumps : Bool} (passes : S.Passes spec) : S.Acts jumps (.node (.loop spec) type) := by
  intro ctx p code p' ends
  rw [Tree.toStatement_node] at ends
  obtain ⟨_, _, _, _, loop, last, rfl⟩ := ends_bind.mp ends
  obtain ⟨rfl, -, rfl⟩ := ends_pure.mp last
  rw [List.append_nil, S.meaning_node]
  exact (performs_loop passes loop).widen

/-! ## Jumps -/

/-- Code that leaves by a jump of the innermost loop. -/
theorem performs_jump {action : Jump} {loop : EnclosingLoop} {others : List EnclosingLoop}
    (around : ctx.loops = loop :: others)
    (jumped : ∀ ρ h, S.Ready ctx lo ρ → loop.Jumped ρ h action (S.exec code ρ h)) :
    S.Performs ctx lo lo (ctx.reach true) code (left action : Meaning Value) where
  grows := Nat.le_refl lo
  agrees _ ρ h ready := ⟨loop, others, ρ, around, Frame.refl lo lo ρ, jumped ρ h ready⟩

theorem acts_jump (action : Jump) : S.Acts true (.node (.jump action) type) := by
  intro ctx p code p' ends
  rw [Tree.toStatement_node] at ends
  rw [S.meaning_node]
  obtain ⟨rfl, loop, others, around, jumps⟩ := ends_lowerJump ends
  refine performs_jump around fun ρ h ready => ?_
  cases jumps with
  | «break» =>
    rw [exec_singleton]
    exact .break
  | nextPlain plain =>
    rw [exec_singleton]
    exact .nextPlain plain
  | nextLabeled labeled =>
    rw [exec_singleton]
    exact .nextLabeled labeled
  | @redo _ flag labeled flagged =>
    obtain ⟨k, -, -, known⟩ := ready.flag loop (by rw [around]; rfl) flag flagged
    rw [exec_store known, exec_singleton]
    exact .redo labeled flagged

/-! ## Loops over elements -/

/-- The parts of a loop over elements do what they mean. -/
structure Elements (S : Setting) (spec : ForEach Tree) : Prop where
  iterable : S.Evaluates spec.iterable
  body : ∀ part ∈ spec.body, S.Acts true part
  /-- The variable's value is up to others. -/
  changes : S.world.isVolatile spec.var = true

variable {each : ForEach Tree}

/-- The element's variable is bound, and what else stands at the start of a pass is done. -/
def Binds (S : Setting) (ctx : Context) (lo mid : Nat) (name : String) (start : Code) : Prop :=
  lo ≤ mid ∧ (mid ≤ S.top → ∀ element ρ, S.Ready ctx lo ρ → ∃ ρ₁,
    (∀ rest h, (do Exec.declareVar S.world name element; S.exec (start ++ rest)) ρ h =
      S.exec rest ρ₁ h) ∧ Frame lo mid ρ ρ₁ ∧ S.Ready ctx mid ρ₁)

theorem binds_var {name : String} (changes : S.world.isVolatile name = true) :
    S.Binds ctx lo lo name [] := by
  refine ⟨Nat.le_refl lo, fun _ element ρ ready => ⟨ρ, fun rest h => ?_, Frame.refl lo lo ρ, ready⟩⟩
  rw [Exec.bind_apply, Exec.declareVar, changes]
  rfl

/-- The loop has a variable of its own, whose value is copied. -/
theorem binds_copy {name : String} (changes : S.world.isVolatile name = true) :
    S.Binds ctx lo (lo + 1) (tempName (lo + 1))
      [.store (.into name) (.var (tempName (lo + 1)))] := by
  refine ⟨Nat.le_succ lo, fun high element ρ ready => ?_⟩
  have above := ready.above
  have frame : Frame lo (lo + 1) ρ (ρ.set (tempName (lo + 1)) element) :=
    Frame.set (Nat.lt_succ_self lo) (Nat.le_refl _) ρ element
  have ready₁ := ready.frame frame (Nat.le_succ lo) high
  refine ⟨_, fun rest h => ?_, frame, ready₁⟩
  rw [Exec.bind_apply, declareVar_temp (by omega) high (ready.free _ (Nat.lt_succ_self lo))]
  show ((Exec.readVar S.world (tempName (lo + 1)) >>= Exec.deliver S.world (.into name)) >>=
    fun _ => S.exec rest) _ h = _
  rw [bind_assoc, Exec.bind_apply, Exec.readVar, Env.set_self]
  show (Exec.deliver S.world (.into name) element >>= fun _ => S.exec rest) _ h = _
  rw [Exec.bind_apply, Exec.deliver, ready₁.names name (S.volatile name changes), changes]
  rfl

theorem binds_copyInto {copyOf : Option String} {ctx' : Context} {q q' : Progress} {code' : Code}
    (elements : S.Elements each)
    (chosen : Ends (eachCopy (each.map Tree.part)) ctx p code copyOf p')
    (copied : Ends (copyInto (copyOf.map fun _ => each.var) (copyOf.getD each.var)) ctx' q code' ()
      q') :
    code = [] ∧ q = q' ∧
      S.Binds ctx p.scope.temps p'.scope.temps (copyOf.getD each.var) code' := by
  unfold eachCopy Ends at chosen
  rw [Lower.isLocal_bind] at chosen
  split at chosen
  · obtain ⟨name, fresh, rfl⟩ := ends_map.mp chosen
    obtain ⟨rfl, rfl, rfl⟩ := ends_freshName.mp fresh
    obtain ⟨rfl, rfl⟩ := ends_emit.mp copied
    exact ⟨rfl, rfl, binds_copy elements.changes⟩
  · obtain ⟨rfl, rfl, rfl⟩ := ends_pure.mp chosen
    obtain ⟨rfl, -, rfl⟩ := ends_pure.mp copied
    exact ⟨rfl, rfl, binds_var elements.changes⟩

/-- One pass of a loop over elements. -/
theorem matches_element {ctx' : Context} {mid' : Nat} {name : String} {copy start body : Code}
    {meaning : Meaning Unit} {ρ : Env} (binds : S.Binds ctx lo mid name copy)
    (opens : S.Opens ctx ctx' mid mid' start)
    (within : S.Within lo ctx' mid' hi loops meaning (S.exec body)) (high : hi ≤ S.top)
    (noRedo : meaning.NoRedo loops) (ready : S.Ready ctx lo ρ) (element : Value) (h : History) :
    Matches loops (Reaches fun _ _ ρ' => ρ' = ρ) (· = ρ) (meaning h)
      (Exec.inBlock (do
        Exec.declareVar S.world name element
        S.exec (copy ++ (start ++ body))) ρ h) := by
  obtain ⟨grows, bound⟩ := binds
  obtain ⟨grows', opened⟩ := opens
  have grows'' := within.grows
  obtain ⟨ρ₁, binding, frame, ready₁⟩ := bound (by omega) element ρ ready
  obtain ⟨ρ₂, starting, frame', ready₂⟩ := opened (by omega) ρ₁ ready₁
  refine within.inBlock ready.above high noRedo ((binding _ h).trans (starting _ h)) ?_ ready₂
    ready.free
  exact (frame.mono (Nat.le_refl lo) grows').trans (frame'.mono grows (Nat.le_refl mid'))

/-- A loop over elements, once these are at hand. -/
theorem matches_elements {label : Option String} {loop : EnclosingLoop}
    {others : List EnclosingLoop} {meaning : Meaning Unit} {ρ : Env} {near : Env → Prop}
    {pass : Value → Exec Unit} (named : loop.labels.map LabelPair.outer = label)
    (only : OnlyBreaks meaning)
    (step : ∀ element h, Matches (loop :: others) (Reaches fun _ _ ρ' => ρ' = ρ) (· = ρ)
      (meaning h) (pass element ρ h)) (collection : Value) (h : History) :
    Matches [] (Reaches fun _ _ ρ' => ρ' = ρ) near
      ((do
        let elements ← S.world.elementsNow collection
        untilBreak (elements.forM fun _ => meaning)) h)
      (Java.Exec.catchLoop label (do
        let elements ← Exec.ofMeaning (S.world.elementsNow collection)
        elements.forM pass) ρ h) := by
  have each : ∀ element ρ' h, ρ' = ρ → Matches (loop :: others) (Reaches fun _ _ ρ' => ρ' = ρ)
      (· = ρ) (meaning h) (pass element ρ' h) := by
    rintro element _ h rfl
    exact step element h
  have all := Matches.forM each (S.world.elements h collection) ρ h rfl
  have found : Java.Exec.catchLoop label (do
      let elements ← Exec.ofMeaning (S.world.elementsNow collection)
      elements.forM pass) ρ h =
      Java.Exec.catchLoop label ((S.world.elements h collection).forM pass) ρ h :=
    Java.Exec.catchLoop_congr rfl
  rw [found]
  exact all.untilBreak named (only.forM _)

/-- The code of a loop over elements is one statement. -/
theorem performs_elements {iterable : Expr} {label : Option String} {stmt : Stmt} {lo₁ : Nat}
    {pass : Value → Exec Unit} (loop : EnclosingLoop)
    (yields : S.Yields ctx lo lo₁ code (iterable.eval S.world) (S.meaning each.iterable))
    (grows : lo₁ ≤ hi)
    (runs : stmt.exec S.world S.n [] = Java.Exec.catchLoop label (do
      let collection ← iterable.eval S.world
      let elements ← Exec.ofMeaning (S.world.elementsNow collection)
      elements.forM pass))
    (named : loop.labels.map LabelPair.outer = label)
    (step : hi ≤ S.top → ∀ ρ, S.Ready ctx lo₁ ρ → ∀ element h,
      Matches (loop :: ctx.loops) (Reaches fun _ _ ρ' => ρ' = ρ) (· = ρ)
        (again S.n (each.body.map S.meaning) h) (pass element ρ h)) :
    S.Performs ctx lo hi [] (code ++ [stmt]) ((each.map S.meaning).meaning S.world S.n) := by
  have low := yields.grows
  have all : S.Performs ctx lo hi [] (code ++ [stmt]) (do
      let collection ← (S.meaning each.iterable).closed
      let elements ← S.world.elementsNow collection
      untilBreak (elements.forM fun _ => again S.n (each.body.map S.meaning))) := by
    refine ⟨Nat.le_trans low grows, fun high ρ h ready => ?_⟩
    have evaluated : Matches [] _ (Frame lo hi ρ) ((S.meaning each.iterable).closed h) _ :=
      (yields.agrees (Nat.le_trans grows high) ρ h ready).closed
    rw [exec_concat, runs]
    refine evaluated.catchLoop_bind ?_
    rintro _ collection ρ₁ h₁ ⟨rfl, frame⟩
    have ready₁ := ready.frame frame low (Nat.le_trans grows high)
    refine (matches_elements named (onlyBreaks_again _ _) (step high ρ₁ ready₁) collection h₁).mono
      ?_ fun _ near => near
    rintro _ h₂ _ ⟨b, _, reached, rfl⟩
    exact ⟨b, _, reached, frame.mono (Nat.le_refl lo) grows⟩
  refine (all.map fun _ => Value.null).of_effects ?_
  unfold ForEach.meaning
  simp only [bind_assoc]
  rfl

section

variable {iterable : Expr} {copyOf : Option String} {p₁ : Progress} {code₁ code₂ : Code}
  (elements : S.Elements each)
  (yields : S.Yields ctx lo p.scope.temps code (iterable.eval S.world) (S.meaning each.iterable))
  (chosen : Ends (eachCopy (each.map Tree.part)) ctx p code₁ copyOf p₁)
  (ends : Ends (lowerElements (each.map Tree.part) iterable copyOf) ctx p₁ code₂ () p')

include elements yields chosen ends

theorem performs_plainElements (plain : each.redo = false) :
    S.Performs ctx lo p'.scope.temps [] (code ++ (code₁ ++ code₂))
      ((each.map S.meaning).meaning S.world S.n) := by
  obtain ⟨copy, _, _, copied, passed, rfl⟩ := ends_plainElements plain ends
  obtain ⟨rfl, rfl, binds⟩ := binds_copyInto elements chosen copied
  obtain ⟨q, q', start, stop, bodyEnds⟩ := ends_eachBody passed
  have performs := performs_lowerEffects elements.body bodyEnds
  have low : q.scope.temps = p₁.scope.temps := congrArg Supply.temps start
  have high : p'.scope.temps = q'.scope.temps := congrArg Supply.temps stop
  rw [low, ← high] at performs
  refine performs_elements ⟨.plainForEach, none, none⟩ yields
    (Nat.le_trans binds.1 performs.grows) rfl rfl fun high ρ ready element h => ?_
  refine Matches.again_plain ?_ rfl S.n []
  refine matches_element binds (opens_unflagged rfl) (performs.within binds.1) high ?_ ready element h
  rintro _ _ _ _ ⟨rfl⟩
  rfl

theorem performs_labeledElements (labeled : each.redo = true) :
    S.Performs ctx lo p'.scope.temps [] (code ++ (code₁ ++ code₂))
      ((each.map S.meaning).meaning S.world S.n) := by
  obtain ⟨copy, _, _, copied, passed, rfl⟩ := ends_labeledElements labeled ends
  obtain ⟨rfl, rfl, binds⟩ := binds_copyInto elements chosen copied
  obtain ⟨q, q', start, stop, bodyEnds⟩ := ends_eachBody passed
  have low : q.scope.temps = p₁.scope.temps + 1 := congrArg Supply.temps start
  have high : p'.scope.temps = q'.scope.temps := congrArg Supply.temps stop
  let loop : EnclosingLoop := ⟨.labeledForEach, p₁.nextLabels, p₁.nextTemp⟩
  have fresh : ∀ name ∈ loop.redoFlag, ∃ k, p.scope.temps < k ∧ name = tempName k := by
    rintro _ ⟨rfl⟩
    exact ⟨p₁.scope.temps + 1, Nat.lt_succ_of_le binds.1, rfl⟩
  have within : S.Within p.scope.temps { ctx with loops := loop :: ctx.loops } _ _ _ _ _ :=
    within_labeledBody elements.body (rfl : _ = loop :: _) (rfl : loop.labels = some p₁.nextLabels)
      (labels_distinct _) fresh bodyEnds
  rw [low, ← high] at within
  have grows := Nat.le_trans binds.1 (Nat.le_of_succ_le within.grows)
  refine performs_elements loop yields grows rfl rfl fun high ρ ready element h => ?_
  refine Matches.catchContinue_of_onlyBreaks ?_ (onlyBreaks_again _ _) [p₁.nextLabels.outer]
  exact matches_element binds (opens_flagged rfl _ _) within high
    ((onlyBreaks_again _ _).noRedo _) ready element h

end

theorem performs_forEach (elements : S.Elements each)
    (ends : Ends (lowerForEach (each.map Tree.part)) ctx p code () p') :
    S.Performs ctx p.scope.temps p'.scope.temps [] code
      ((each.map S.meaning).meaning S.world S.n) := by
  rw [lowerForEach_eq] at ends
  obtain ⟨_, _, _, _, refused, rest, rfl⟩ := ends_bind.mp ends
  obtain ⟨rfl, rfl⟩ := ends_refuseRedo refused
  obtain ⟨_, iterable, _, _, evaluated, others, rfl⟩ := ends_bind.mp rest
  obtain ⟨_, copyOf, _, _, chosen, loop, rfl⟩ := ends_bind.mp others
  have yields := elements.iterable.toExpr evaluated
  rw [List.nil_append]
  cases redo : each.redo with
  | true => exact performs_labeledElements elements yields chosen loop redo
  | false => exact performs_plainElements elements yields chosen loop redo

theorem acts_forEach {jumps : Bool} (elements : S.Elements each) :
    S.Acts jumps (.node (.forEach each) type) := by
  intro ctx p code p' ends
  rw [Tree.toStatement_node] at ends
  obtain ⟨_, _, _, _, loop, last, rfl⟩ := ends_bind.mp ends
  obtain ⟨rfl, -, rfl⟩ := ends_pure.mp last
  rw [List.append_nil, S.meaning_node]
  exact (performs_forEach elements loop).widen

end Setting

end JavaBackend
