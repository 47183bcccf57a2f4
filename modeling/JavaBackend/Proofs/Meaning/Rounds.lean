import JavaBackend.Proofs.Meaning.Nodes

/-!
# Rounds of a loop

A loop's passes and the runs of its body are both `rounds`, in the source and in Java, and go back
equally often. `Matches.rounds` goes from one round to all of them. What differs is how a jump ends a
round: a plain loop has Java's own jumps, and in a labeled loop the labels and the flag take their
place.
-/

namespace JavaBackend

open Java (Stmt Code Expr Sink Env Result Exec Test)
open Java.Exec (inBlock catchLabel catchBreak catchContinue)
open Lower Meaning

variable {α β : Type} {S : Setting} {ctx : Context} {p p' : Progress} {code : Code}
  {type : JavaType}

/-- A test of a variable that the code has declared. -/
theorem Java.Test.holds_var {w : World} {name : String} {ρ : Env} {value : Value}
    (known : ρ name = some value) (negated : Bool) (h : History) :
    Test.holds w ⟨.var name, negated⟩ ρ h = .done (value.isTrue != negated) ρ h := by
  show (Exec.readVar w name >>= _) ρ h = _
  rw [Exec.bind_apply, Exec.readVar, known]
  rfl

/-! ## Jumps that leave a loop -/

namespace Java.Exec

/-- A loop with a label, or without one. -/
def catchLoop : Option String → Exec Unit → Exec Unit
  | none, loop => catchBreak loop
  | some label, loop => catchLabel label (catchBreak loop)

variable {label : Option String} {loop : Exec Unit} {ρ ρ' : Env} {h h' : History}

theorem catchLoop_congr {loop' : Exec Unit} (same : loop ρ h = loop' ρ' h') :
    catchLoop label loop ρ h = catchLoop label loop' ρ' h' := by
  cases label <;> simp only [catchLoop, catchLabel, catchBreak, same]

theorem catchLoop_done (reached : loop ρ h = .done () ρ' h') :
    catchLoop label loop ρ h = .done () ρ' h' := by
  cases label <;> simp only [catchLoop, catchLabel, catchBreak, reached]

theorem catchLoop_broke (reached : loop ρ h = .broke label ρ' h') :
    catchLoop label loop ρ h = .done () ρ' h' := by
  cases label <;> simp only [catchLoop, catchLabel, catchBreak, reached, if_true]

theorem catchLoop_running (reached : loop ρ h = .running h') :
    catchLoop label loop ρ h = .running h' := by
  cases label <;> simp only [catchLoop, catchLabel, catchBreak, reached]

/-- What is evaluated at the start of a loop is evaluated outside of it as well. -/
theorem catchLoop_bind_done {first : Exec Unit} {value : Exec β} {rest : β → Exec Unit} {b : β}
    (reached : (do first; value) ρ h = .done b ρ' h') :
    (do first; catchLoop label (value >>= rest)) ρ h = catchLoop label (rest b) ρ' h' := by
  rw [bind_apply] at reached ⊢
  cases started : first ρ h with
  | done _ ρ₁ h₁ =>
    rw [started] at reached
    refine catchLoop_congr ?_
    rw [bind_apply, show value ρ₁ h₁ = _ from reached]
  | broke _ _ _ | continued _ _ _ | returned _ _ | thrown _ _ | running _ | stuck =>
    rw [started] at reached
    cases reached

theorem catchLoop_bind_running {first : Exec Unit} {value : Exec β} {rest : β → Exec Unit}
    (reached : (do first; value) ρ h = .running h') :
    (do first; catchLoop label (value >>= rest)) ρ h = .running h' := by
  rw [bind_apply] at reached ⊢
  cases started : first ρ h with
  | done _ ρ₁ h₁ =>
    rw [started] at reached
    refine catchLoop_running ?_
    rw [bind_apply, show value ρ₁ h₁ = _ from reached]
  | running _ =>
    rw [started] at reached
    cases reached
    rfl
  | broke _ _ _ | continued _ _ _ | returned _ _ | thrown _ _ | stuck =>
    rw [started] at reached
    cases reached

end Java.Exec

open Java.Exec (catchLoop catchLoop_done catchLoop_broke catchLoop_running catchLoop_bind_done
  catchLoop_bind_running)

namespace Meaning

/-- No jump but `break` leaves. -/
def OnlyBreaks (meaning : Meaning α) : Prop :=
  ∀ h jump h', meaning h = .left jump h' → jump = .break

theorem onlyBreaks_pure (value : α) : OnlyBreaks (pure value : Meaning α) := by
  intro h jump h' left
  cases left

theorem onlyBreaks_closed (meaning : Meaning α) : OnlyBreaks meaning.closed := by
  intro h jump h' left
  unfold closed at left
  split at left
  · cases left
  · next other => exact absurd left (other _ _)

theorem onlyBreaks_attempt (body : Meaning Unit) : OnlyBreaks (attempt body) := by
  intro h jump h' left
  unfold attempt at left
  split at left <;> cases left
  rfl

theorem OnlyBreaks.bind {first : Meaning α} {next : α → Meaning β} (firstBreaks : OnlyBreaks first)
    (nextBreaks : ∀ value, OnlyBreaks (next value)) : OnlyBreaks (first >>= next) := by
  intro h jump h' left
  rw [bind_apply] at left
  split at left
  · exact nextBreaks _ _ jump h' left
  · next ending =>
    cases left
    exact firstBreaks h jump h' ending
  · cases left
  · cases left

theorem OnlyBreaks.rounds {pass : Meaning Bool} (passBreaks : OnlyBreaks pass) (n : Nat) :
    OnlyBreaks (rounds running pass n) := by
  have finished : OnlyBreaks (running : Meaning Unit) := by
    intro h jump h' left
    cases left
  induction n with
  | zero =>
    refine passBreaks.bind fun again => ?_
    cases again with
    | true => exact finished
    | false => exact onlyBreaks_pure ()
  | succ n ih =>
    refine passBreaks.bind fun again => ?_
    cases again with
    | true => exact ih
    | false => exact onlyBreaks_pure ()

/-- A body that never asks to be run again is run once. -/
theorem again_apply {n : Nat} {body : Option (Meaning Value)} {h : History}
    (once : ∀ h', effects body h ≠ .left .redo h') :
    again n body h =
      match effects body h with
      | .left .next h' => .done () h'
      | ending => ending := by
  have step : ∀ more : Meaning Unit, (do if ← attempt (effects body) then more) h =
      match effects body h with
      | .left .next h' => .done () h'
      | ending => ending := by
    intro more
    rw [bind_apply]
    unfold attempt
    cases ending : effects body h with
    | left jump h' =>
      cases jump with
      | redo => exact absurd ending (once h')
      | «break» | next => rfl
    | done _ _ | running _ | undefined => rfl
  cases n with
  | zero => exact step running
  | succ n => exact step (rounds running (attempt (effects body)) n)

theorem OnlyBreaks.forM {pass : Meaning Unit} (passBreaks : OnlyBreaks pass) (values : List Value) :
    OnlyBreaks (values.forM fun _ => pass) := by
  induction values with
  | nil => exact onlyBreaks_pure ()
  | cons value rest ih => exact passBreaks.bind fun _ => ih

theorem onlyBreaks_again (n : Nat) (body : Option (Meaning Value)) : OnlyBreaks (again n body) :=
  (onlyBreaks_attempt _).rounds n

end Meaning

theorem Loop.onlyBreaks_test (spec : Loop (Meaning Value)) : OnlyBreaks spec.test :=
  (onlyBreaks_closed _).bind fun _ => onlyBreaks_pure _

/-- The passes of a loop whose condition has been evaluated, if it is tested first. -/
def Loop.passesFrom (spec : Loop (Meaning Value)) (n : Nat) (cond : Value) : Meaning Unit :=
  if spec.checkFirst then
    if cond.isTrue != spec.negative then rounds running (spec.pass n) n else return
  else rounds running (spec.pass n) n

theorem Loop.passes_checked {spec : Loop (Meaning Value)} (checked : spec.checkFirst = true)
    (n : Nat) : spec.passes n = (do spec.passesFrom n (← spec.cond.closed)) := by
  unfold passes passesFrom test
  simp only [checked, if_true, bind_assoc, pure_bind]

theorem Loop.passes_unchecked {spec : Loop (Meaning Value)} (unchecked : spec.checkFirst = false)
    (n : Nat) (cond : Value) : spec.passes n = spec.passesFrom n cond := by
  unfold passes passesFrom
  simp only [unchecked, Bool.false_eq_true, if_false]

theorem Loop.onlyBreaks_work (spec : Loop (Meaning Value)) (n : Nat) : OnlyBreaks (spec.work n) :=
  (onlyBreaks_closed _).bind fun _ => (onlyBreaks_again n _).bind fun _ => onlyBreaks_closed _

theorem Loop.onlyBreaks_pass (spec : Loop (Meaning Value)) (n : Nat) : OnlyBreaks (spec.pass n) :=
  (spec.onlyBreaks_work n).bind fun _ => spec.onlyBreaks_test

theorem Loop.onlyBreaks_passesFrom (spec : Loop (Meaning Value)) (n : Nat) (cond : Value) :
    OnlyBreaks (spec.passesFrom n cond) := by
  have all := (spec.onlyBreaks_pass n).rounds n
  unfold passesFrom
  split
  · split
    · exact all
    · exact onlyBreaks_pure ()
  · exact all

theorem Loop.onlyBreaks_passes (spec : Loop (Meaning Value)) (n : Nat) :
    OnlyBreaks (spec.passes n) := by
  cases checkFirst : spec.checkFirst with
  | true =>
    rw [passes_checked checkFirst]
    exact (onlyBreaks_closed _).bind fun cond => spec.onlyBreaks_passesFrom n cond
  | false =>
    rw [passes_unchecked checkFirst n .null]
    exact spec.onlyBreaks_passesFrom n .null

namespace Matches

variable {loops : List EnclosingLoop} {near : Env → Prop} {ρ : Env} {h : History}

/-! ## Rounds -/

/-- A round that asks for another one keeps `I`. The last one leaves a loop of rounds as `Done`
    says, at its end or by a jump. -/
def Round (I : Env → Prop) (Done : History → Result Unit → Prop) : Bool → History → Result Bool → Prop
  | true, h, result => ∃ ρ, result = .done true ρ h ∧ I ρ
  | false, h, result => (∃ ρ, result = .done false ρ h ∧ Done h (.done () ρ h)) ∨
      ∃ label ρ, result = .broke label ρ h ∧ Done h (.broke label ρ h)

/-- One round more. -/
theorem round_bind {I : Env → Prop} {Done : History → Result Unit → Prop} {pass : Meaning Bool}
    {pass' : Exec Bool} {more : Meaning Unit} {more' : Exec Unit}
    (step : Matches loops (Round I Done) near (pass h) (pass' ρ h))
    (rest : ∀ ρ h, I ρ → Matches loops (fun _ => Done) near (more h) (more' ρ h)) :
    Matches loops (fun _ => Done) near ((do if ← pass then more) h)
      ((do if ← pass' then more') ρ h) := by
  rw [Meaning.bind_apply, Exec.bind_apply]
  rcases step.cases with ⟨again, h', ending, last⟩ |
    ⟨jump, h', loop, others, ρ', ending, around, close, jumped⟩ | ⟨h', ending, reached⟩
  · rw [ending]
    cases again with
    | true =>
      obtain ⟨ρ', reached, kept⟩ := last
      rw [reached]
      exact rest ρ' h' kept
    | false =>
      rcases last with ⟨ρ', reached, done⟩ | ⟨label, ρ', reached, done⟩
      · rw [reached]
        exact done
      · rw [reached]
        exact done
  · rw [ending]
    exact ⟨loop, others, ρ', around, close, jumped.bind⟩
  · rw [ending, reached]
    rfl

/-- All rounds are run side by side if each of them is. -/
theorem rounds {I : Env → Prop} {Done : History → Result Unit → Prop} {pass : Meaning Bool}
    {pass' : Exec Bool}
    (step : ∀ ρ h, I ρ → Matches loops (Round I Done) near (pass h) (pass' ρ h)) (n : Nat) :
    ∀ ρ h, I ρ → Matches loops (fun _ => Done) near (rounds running pass n h)
      (JavaBackend.rounds Exec.running pass' n ρ h) := by
  induction n with
  | zero => exact fun ρ h kept => round_bind (step ρ h kept) fun _ _ _ => rfl
  | succ n ih => exact fun ρ h kept => round_bind (step ρ h kept) ih

/-- One round for each of some values. -/
theorem forM {I : Env → Prop} {pass : Meaning Unit} {pass' : Value → Exec Unit}
    (step : ∀ value ρ h, I ρ →
      Matches loops (Reaches fun _ _ ρ' => I ρ') near (pass h) (pass' value ρ h))
    (values : List Value) : ∀ ρ h, I ρ →
      Matches loops (Reaches fun _ _ ρ' => I ρ') near ((values.forM fun _ => pass) h)
        (values.forM pass' ρ h) := by
  induction values with
  | nil => exact fun ρ h kept => ⟨(), ρ, rfl, kept⟩
  | cons value rest ih =>
    exact fun ρ h kept => (step value ρ h kept).bind fun _ _ ρ' h' kept' => ih ρ' h' kept'

/-! ## Jumps of one loop -/

section Jumps

variable {loop : EnclosingLoop} {others : List EnclosingLoop} {labels : LabelPair}
  {body : Option (Meaning Value)} {near' : Env → Prop} {I : Env → Prop} {java : Exec Unit}

theorem catchContinue_of_onlyBreaks {meaning : Meaning α} {good : α → Unit → Env → Prop}
    (agree : Matches loops (Reaches good) near (meaning h) (java ρ h)) (only : OnlyBreaks meaning)
    (names : List String) :
    Matches loops (Reaches good) near (meaning h) (catchContinue names java ρ h) := by
  unfold catchContinue
  rcases agree.cases with ⟨value, h', ending, b, ρ', reached, holds⟩ |
    ⟨jump, h', loop, others, ρ', ending, around, close, jumped⟩ | ⟨h', ending, reached⟩
  · rw [ending, reached]
    exact ⟨b, ρ', rfl, holds⟩
  · obtain rfl := only h jump h' ending
    rw [ending]
    refine ⟨loop, others, ρ', around, close, ?_⟩
    generalize java ρ h = result at jumped ⊢
    cases jumped
    exact .break
  · rw [ending, reached]
    rfl

/-- A loop is left by its label, or by Java's own `break` if it has none. -/
theorem untilBreak {meaning : Meaning Unit} {label : Option String}
    (agree : Matches (loop :: others) (Reaches fun _ _ ρ' => I ρ') I (meaning h) (java ρ h))
    (named : loop.labels.map LabelPair.outer = label) (only : OnlyBreaks meaning) :
    Matches [] (Reaches fun _ _ ρ' => I ρ') near' (meaning.untilBreak h)
      (catchLoop label java ρ h) := by
  unfold Meaning.untilBreak
  rcases agree.cases with ⟨value, h', ending, b, ρ', reached, holds⟩ |
    ⟨jump, h', _, _, ρ', ending, ⟨⟩, holds, jumped⟩ | ⟨h', ending, reached⟩
  · rw [ending]
    exact ⟨b, ρ', catchLoop_done reached, holds⟩
  · obtain rfl := only h jump h' ending
    rw [ending]
    generalize reached : java ρ h = result at jumped
    cases jumped
    rw [named] at reached
    exact ⟨(), ρ', catchLoop_broke reached, holds⟩
  · rw [ending]
    exact catchLoop_running reached

/-- Something is evaluated first, and a loop depends on it. -/
theorem catchLoop_bind {good : α → β → Env → Prop} {meaning : Meaning α} {next : α → Meaning Unit}
    {Done : Unit → History → Result Unit → Prop} {label : Option String} {value : Exec β}
    {rest : β → Exec Unit}
    (agree : Matches [] (Reaches good) near (meaning h) ((do java; value) ρ h))
    (after : ∀ a b ρ' h', good a b ρ' →
      Matches [] Done near' (next a h') (catchLoop label (rest b) ρ' h')) :
    Matches [] Done near' ((meaning >>= next) h)
      ((do java; catchLoop label (value >>= rest)) ρ h) := by
  rw [Meaning.bind_apply]
  rcases agree.cases with ⟨a, h', ending, b, ρ', reached, holds⟩ | ⟨_, _, _, _, _, _, ⟨⟩, _⟩ |
    ⟨h', ending, reached⟩
  · rw [ending, catchLoop_bind_done reached]
    exact after a b ρ' h' holds
  · rw [ending]
    exact catchLoop_bind_running reached

/-- The body of a plain loop, in which `next` is Java's own `continue`. -/
theorem again_plain {h₁ : History}
    (agree : Matches (loop :: others) (Reaches fun _ _ ρ' => I ρ') I (effects body h₁) (java ρ h))
    (plain : loop.labels = none) (n : Nat) (names : List String) :
    Matches (loop :: others) (Reaches fun _ _ ρ' => I ρ') I (again n body h₁)
      (catchContinue names java ρ h) := by
  have once : ∀ h', effects body h₁ ≠ .left .redo h' := by
    intro h' ending
    rw [ending] at agree
    obtain ⟨_, _, ρ', ⟨⟩, holds, jumped⟩ := agree
    generalize java ρ h = result at jumped
    cases jumped with
    | redo labeled _ => cases plain.symm.trans labeled
  rw [again_apply once]
  unfold catchContinue
  rcases agree.cases with ⟨value, h', ending, b, ρ', reached, holds⟩ |
    ⟨jump, h', _, _, ρ', ending, ⟨⟩, holds, jumped⟩ | ⟨h', ending, reached⟩
  · rw [ending, reached]
    exact ⟨b, ρ', rfl, holds⟩
  · rw [ending]
    generalize java ρ h = result at jumped ⊢
    cases jumped with
    | «break» => exact ⟨loop, others, ρ', rfl, holds, .break⟩
    | nextPlain _ => exact ⟨(), ρ', rfl, holds⟩
    | nextLabeled labeled => cases plain.symm.trans labeled
    | redo labeled _ => cases plain.symm.trans labeled
  · rw [ending, reached]
    rfl

/-- The same with something in front of the body, in the same block. -/
theorem again_plain_after {first : Meaning α}
    (agree : Matches (loop :: others) (Reaches fun _ _ ρ' => I ρ') I
      ((do let _ ← first.closed; effects body) h) (java ρ h))
    (plain : loop.labels = none) (n : Nat) (names : List String) :
    Matches (loop :: others) (Reaches fun _ _ ρ' => I ρ') I
      ((do let _ ← first.closed; again n body) h) (catchContinue names java ρ h) := by
  rw [Meaning.bind_apply] at agree ⊢
  unfold Meaning.closed at agree ⊢
  cases ending : first h with
  | done value h₁ =>
    rw [ending] at agree
    exact again_plain agree plain n names
  | left jump h₁ =>
    rw [ending] at agree
    exact agree.elim
  | running h₁ =>
    rw [ending] at agree
    unfold catchContinue
    rw [show java ρ h = _ from agree]
    rfl
  | undefined =>
    rw [ending] at agree
    exact agree.elim

/-- The label of the body does not stop a jump out of the loop. -/
theorem labeled_break {ρ' : Env} {h' : History} (labeled : loop.labels = some labels)
    (distinct : labels.outer ≠ labels.inner)
    (reached : java ρ h = .broke (loop.labels.map LabelPair.outer) ρ' h') :
    loop.Jumped ρ' h' .break (catchLabel labels.inner java ρ h) := by
  have outer : loop.labels.map LabelPair.outer = some labels.outer := by rw [labeled]; rfl
  unfold catchLabel
  rw [reached, outer]
  show loop.Jumped ρ' h' .break (if _ then _ else _)
  rw [if_neg distinct, ← outer]
  exact .break

/-- A body in a labeled block, which `next` leaves by the block's label. -/
theorem again_block
    (agree : Matches (loop :: others) (Reaches fun _ _ ρ' => I ρ') I (effects body h) (java ρ h))
    (labeled : loop.labels = some labels) (unflagged : loop.redoFlag = none)
    (distinct : labels.outer ≠ labels.inner) (n : Nat) :
    Matches (loop :: others) (Reaches fun _ _ ρ' => I ρ') I (again n body h)
      (catchLabel labels.inner java ρ h) := by
  have once : ∀ h', effects body h ≠ .left .redo h' := by
    intro h' ending
    rw [ending] at agree
    obtain ⟨_, _, ρ', ⟨⟩, holds, jumped⟩ := agree
    generalize java ρ h = result at jumped
    cases jumped with
    | redo _ flagged => cases unflagged.symm.trans flagged
  rw [again_apply once]
  rcases agree.cases with ⟨value, h', ending, b, ρ', reached, holds⟩ |
    ⟨jump, h', _, _, ρ', ending, ⟨⟩, holds, jumped⟩ | ⟨h', ending, reached⟩
  · unfold catchLabel
    rw [ending, reached]
    exact ⟨b, ρ', rfl, holds⟩
  · rw [ending]
    generalize reached : java ρ h = result at jumped
    cases jumped with
    | «break» => exact ⟨loop, others, ρ', rfl, holds, labeled_break labeled distinct reached⟩
    | nextPlain plain => cases plain.symm.trans labeled
    | nextLabeled labeled' =>
      cases labeled.symm.trans labeled'
      unfold catchLabel
      rw [reached]
      exact ⟨(), ρ', if_pos rfl, holds⟩
    | redo _ flagged => cases unflagged.symm.trans flagged
  · unfold catchLabel
    rw [ending, reached]
    rfl

/-- One run of a body that may be run again. -/
theorem attempt_flagged {w : World} {flag : String} {ρ₁ : Env} {Done : History → Result Unit → Prop}
    (agree : Matches (loop :: others) (Reaches fun _ _ ρ' => ρ' = ρ₁) (· = ρ₁) (effects body h)
      (java ρ h))
    (labeled : loop.labels = some labels) (flagged : loop.redoFlag = some flag)
    (cleared : ρ₁ flag = some (.bool false)) (kept : I ρ₁)
    (keptSet : I (ρ₁.set flag (.bool true))) (done : ∀ h, Done h (.done () ρ₁ h))
    (skipped : ∀ h, Done h (.broke (some labels.inner) ρ₁ h)) :
    Matches (loop :: others) (Round I Done) I (attempt (effects body) h)
      ((do catchContinue [labels.inner] java; Test.holds w ⟨.var flag, false⟩) ρ h) := by
  rw [Exec.bind_apply]
  unfold attempt catchContinue
  rcases agree.cases with ⟨value, h', ending, b, _, reached, rfl⟩ |
    ⟨jump, h', _, _, _, ending, ⟨⟩, rfl, jumped⟩ | ⟨h', ending, reached⟩
  · rw [ending, reached]
    exact .inl ⟨_, Test.holds_var cleared false h', done h'⟩
  · rw [ending]
    generalize java ρ h = result at jumped ⊢
    cases jumped with
    | «break» => exact ⟨loop, others, _, rfl, kept, .break⟩
    | nextPlain plain => cases plain.symm.trans labeled
    | nextLabeled labeled' =>
      cases labeled.symm.trans labeled'
      exact .inr ⟨_, _, rfl, skipped h'⟩
    | redo labeled' flagged' =>
      cases labeled.symm.trans labeled'
      cases flagged.symm.trans flagged'
      refine ⟨_, ?_, keptSet⟩
      simp only [List.mem_singleton, if_true]
      exact Test.holds_var (Env.set_self _ _ _) false h'
  · rw [ending, reached]
    rfl

/-- A body that may be run again, which `next` leaves by the label and `redo` starts over. -/
theorem again_flagged {w : World} {flag : String} {ρ₁ : Env}
    (agree : ∀ ρ h, I ρ → Matches (loop :: others) (Reaches fun _ _ ρ' => ρ' = ρ₁) (· = ρ₁)
      (effects body h) (java ρ h))
    (labeled : loop.labels = some labels) (flagged : loop.redoFlag = some flag)
    (distinct : labels.outer ≠ labels.inner) (cleared : ρ₁ flag = some (.bool false)) (kept : I ρ₁)
    (keptSet : I (ρ₁.set flag (.bool true))) (n : Nat) (start : I ρ) :
    Matches (loop :: others) (Reaches fun _ _ ρ' => I ρ') I (again n body h)
      (catchLabel labels.inner (catchBreak (JavaBackend.rounds Exec.running
        (do catchContinue [labels.inner] java; Test.holds w ⟨.var flag, false⟩) n)) ρ h) := by
  have all : Matches (loop :: others) (fun _ h result =>
      result = .done () ρ₁ h ∨ result = .broke (some labels.inner) ρ₁ h) I (again n body h)
      (JavaBackend.rounds Exec.running
        (do catchContinue [labels.inner] java; Test.holds w ⟨.var flag, false⟩) n ρ h) :=
    Matches.rounds (fun ρ h holds => attempt_flagged (agree ρ h holds) labeled flagged cleared kept
      keptSet (fun _ => .inl rfl) (fun _ => .inr rfl)) n ρ h start
  generalize JavaBackend.rounds Exec.running _ n = runs at all ⊢
  rcases all.cases with ⟨value, h', ending, reached | reached⟩ |
    ⟨jump, h', _, _, ρ', ending, ⟨⟩, holds, jumped⟩ | ⟨h', ending, reached⟩
  · unfold catchLabel catchBreak
    rw [ending, reached]
    exact ⟨(), ρ₁, rfl, kept⟩
  · unfold catchLabel catchBreak
    rw [ending, reached]
    exact ⟨(), ρ₁, if_pos rfl, kept⟩
  · obtain rfl := onlyBreaks_again n body h jump h' ending
    rw [ending]
    refine ⟨loop, others, ρ', rfl, holds, labeled_break labeled distinct ?_⟩
    generalize reached : runs ρ h = result at jumped
    cases jumped
    unfold catchBreak
    rw [reached, labeled]
    rfl
  · unfold catchLabel catchBreak
    rw [ending, reached]
    rfl

end Jumps

end Matches

/-- A jump leaves without an assignment to the flag. -/
def Meaning.NoRedo (meaning : Meaning α) (loops : List EnclosingLoop) : Prop :=
  ∀ h h', meaning h = .left .redo h' → ∀ loop ∈ loops.head?, loop.redoFlag = none

theorem Meaning.OnlyBreaks.noRedo {meaning : Meaning α} (only : OnlyBreaks meaning)
    (loops : List EnclosingLoop) : meaning.NoRedo loops := by
  intro h h' left
  cases only h .redo h' left

/-- The end of a block. -/
theorem Matches.mapEnv {loops : List EnclosingLoop} {near near' : Env → Prop} {f : Env → Env}
    {Done Done' : α → History → Result β → Prop} {meaning : Meaning α} {h : History} {result : Result β}
    (agree : Matches loops Done near (meaning h) result) (noRedo : meaning.NoRedo loops)
    (done : ∀ value h result, Done value h result → Done' value h (result.mapEnv f))
    (left : ∀ ρ, near ρ → near' (f ρ)) :
    Matches loops Done' near' (meaning h) (result.mapEnv f) := by
  rcases agree.cases with ⟨value, h', ending, good⟩ |
    ⟨jump, h', loop, rest, ρ', ending, around, close, jumped⟩ | ⟨h', ending, rfl⟩ <;> rw [ending]
  · exact done value h' result good
  · refine ⟨loop, rest, f ρ', around, left ρ' close, ?_⟩
    cases jumped with
    | «break» => exact .break
    | nextPlain plain => exact .nextPlain plain
    | nextLabeled labeled => exact .nextLabeled labeled
    | redo _ flagged =>
      have unflagged := noRedo h h' ending loop (by rw [around]; rfl)
      cases unflagged.symm.trans flagged
  · rfl

/-- Code that no jump leaves may be closed. -/
theorem Matches.closed {loops : List EnclosingLoop} {near near' : Env → Prop}
    {Done : α → History → Result β → Prop} {meaning : Meaning α} {h : History} {result : Result β}
    (agree : Matches [] Done near (meaning h) result) :
    Matches loops Done near' (meaning.closed h) result := by
  unfold Meaning.closed
  rcases agree.cases with ⟨value, h', ending, done⟩ | ⟨_, _, _, _, _, _, ⟨⟩, _⟩ | ⟨h', ending, reached⟩
  · rw [ending]
    exact done
  · rw [ending]
    exact reached

/-- What cannot be left may stand in front of a loop as well. -/
theorem Meaning.untilBreak_closed_bind (first : Meaning α) (next : α → Meaning Unit) :
    untilBreak (first.closed >>= next) = first.closed >>= fun value => untilBreak (next value) := by
  funext h
  rw [bind_apply]
  unfold untilBreak
  rw [bind_apply]
  unfold closed
  cases first h <;> rfl

/-! ## Parts of a pass -/

namespace Setting

/-- Code inside of a block that began once `base` temporaries were handed out. -/
structure Within (S : Setting) (base : Nat) (ctx : Context) (lo hi : Nat)
    (loops : List EnclosingLoop) (meaning : Meaning α) (code : Exec Unit) : Prop where
  grows : lo ≤ hi
  agrees : S.bot ≤ base → hi ≤ S.top → ∀ ρ₀ ρ h, Frame base lo ρ₀ ρ → S.Ready ctx lo ρ →
    Matches loops (Reaches fun _ _ ρ' => Frame base hi ρ₀ ρ' ∧ S.Ready ctx hi ρ')
      (Frame base hi ρ₀) (meaning h) (code ρ h)

variable {base lo mid hi : Nat} {loops : List EnclosingLoop}

theorem Performs.within {meaning : Meaning α} (performs : S.Performs ctx lo hi loops code meaning)
    (below : base ≤ lo) : S.Within base ctx lo hi loops meaning (S.exec code) where
  grows := performs.grows
  agrees _ high ρ₀ ρ h started ready := by
    have grows := performs.grows
    have before := started.mono (Nat.le_refl base) grows
    refine (performs.agrees high ρ h ready).mono ?_ ?_
    · rintro value h' _ ⟨b, ρ', rfl, frame⟩
      exact ⟨b, ρ', rfl, before.trans (frame.mono below (Nat.le_refl hi)), ready.frame frame grows high⟩
    · exact fun ρ' near => before.trans (near.mono below (Nat.le_refl hi))

theorem Within.andThen {first : Meaning α} {second : Meaning β} {code₁ code₂ : Exec Unit}
    (within₁ : S.Within base ctx lo mid loops first code₁)
    (within₂ : S.Within base ctx mid hi loops second code₂) :
    S.Within base ctx lo hi loops (do let _ ← first; second) (do code₁; code₂) where
  grows := Nat.le_trans within₁.grows within₂.grows
  agrees above high ρ₀ ρ h started ready := by
    have grows := within₂.grows
    refine ((within₁.agrees above (Nat.le_trans grows high) ρ₀ ρ h started ready).mono
      (fun _ _ _ done => done) fun _ near => near.mono (Nat.le_refl base) grows).bind ?_
    rintro _ _ ρ₁ h₁ ⟨frame, ready₁⟩
    exact within₂.agrees above high ρ₀ ρ₁ h₁ frame ready₁

theorem performs_lowerEffects {jumps : Bool} {tree : Option Tree}
    (acts : ∀ part ∈ tree, S.Acts jumps part)
    (ends : Ends (lowerEffects (tree.map Tree.part)) ctx p code () p') :
    S.Performs ctx p.scope.temps p'.scope.temps (ctx.reach jumps) code
      (effects (tree.map S.meaning)) := by
  cases tree with
  | none =>
    obtain ⟨rfl, -, rfl⟩ := ends_pure.mp ends
    exact performs_nil _ ()
  | some tree => exact (acts tree rfl ends).map fun _ => ()

theorem Performs.closed {meaning : Meaning α} (performs : S.Performs ctx lo hi [] code meaning) :
    S.Performs ctx lo hi loops code meaning.closed where
  grows := performs.grows
  agrees below ρ h ready := (performs.agrees below ρ h ready).closed

/-- A body in a labeled block. -/
theorem within_block {body : Option Tree} {loop : EnclosingLoop} {others : List EnclosingLoop}
    {labels : LabelPair} (acts : ∀ part ∈ body, S.Acts true part)
    (around : ctx.loops = loop :: others) (labeled : loop.labels = some labels)
    (unflagged : loop.redoFlag = none) (distinct : labels.outer ≠ labels.inner)
    (ends : Ends (lowerLabeledBody (body.map Tree.part) labels.inner none) ctx p code () p') :
    S.Within base ctx p.scope.temps p'.scope.temps ctx.loops (again S.n (body.map S.meaning))
      (S.exec code) := by
  obtain ⟨inner, _, run, last⟩ := ends_blockBind.mp ends
  obtain ⟨rfl, rfl⟩ := ends_emit.mp last
  have performs := performs_lowerEffects acts run
  refine ⟨performs.grows, fun above high ρ₀ ρ h started ready => ?_⟩
  have agree := performs.inBlock (ctx.head?_reach true) high ready h
  change Matches ctx.loops _ _ _ _ at agree
  rw [exec_singleton]
  rw [around] at agree ⊢
  have started' := started.mono (Nat.le_refl base) performs.grows
  refine (agree.again_block labeled unflagged distinct S.n).mono ?_ ?_
  · rintro _ h' _ ⟨b, ρ', reached, rfl⟩
    exact ⟨b, ρ', reached, started', ready.mono performs.grows⟩
  · rintro _ rfl
    exact started'

/-- A variable that the code has declared is assigned. -/
theorem exec_store {name : String} {ρ : Env} (known : (ρ name).isSome) (value : Literal)
    (code : Code) (h : History) :
    S.exec (.store (.into name) (.literal value) :: code) ρ h =
      S.exec code (ρ.set name (.literal value)) h := by
  obtain ⟨old, held⟩ := Option.isSome_iff_exists.mp known
  show (Exec.deliver S.world (.into name) (.literal value) >>= fun _ => S.exec code) ρ h = _
  rw [Exec.bind_apply, Exec.deliver_into held]

/-- A block whose first statement assigns a variable from outside. -/
theorem inBlock_store {name : String} {ρ : Env} (known : (ρ name).isSome) (value : Literal)
    (code : Code) (h : History) :
    inBlock (S.exec (.store (.into name) (.literal value) :: code)) ρ h =
      inBlock (S.exec code) (ρ.set name (.literal value)) h := by
  unfold inBlock
  rw [exec_store known, Env.leave_of_set known]

/-- A body that may be run again. -/
theorem within_flagged {body : Option Tree} {loop : EnclosingLoop} {others : List EnclosingLoop}
    {labels : LabelPair} {k : Nat} (acts : ∀ part ∈ body, S.Acts true part)
    (around : ctx.loops = loop :: others) (labeled : loop.labels = some labels)
    (flagged : loop.redoFlag = some (tempName k)) (distinct : labels.outer ≠ labels.inner)
    (inBase : base < k)
    (ends : Ends (lowerLabeledBody (body.map Tree.part) labels.inner (some (tempName k))) ctx p code
      () p') :
    S.Within base ctx p.scope.temps p'.scope.temps ctx.loops (again S.n (body.map S.meaning))
      (S.exec code) := by
  obtain ⟨inner, _, run, last⟩ := ends_blockBind.mp ends
  obtain ⟨rfl, rfl⟩ := ends_emit.mp last
  obtain ⟨_, _, _, run', clear, rest, rfl⟩ := ends_bind.mp run
  obtain ⟨rfl, rfl⟩ := ends_emit.mp clear
  have performs := performs_lowerEffects acts rest
  have grows := performs.grows
  refine ⟨grows, fun above high ρ₀ ρ h started ready => ?_⟩
  obtain ⟨j, bound, same, known⟩ := ready.flag loop (by rw [around]; rfl) _ flagged
  cases tempName_inj same
  obtain ⟨old, held⟩ := Option.isSome_iff_exists.mp known
  -- Between two runs of the body only the flag can differ.
  let I : Env → Prop := fun ρ' => ∃ value, ρ' = ρ.set (tempName k) value
  have agree : ∀ ρ' h, I ρ' → Matches (loop :: others)
      (Reaches fun _ _ ρ'' => ρ'' = ρ.set (tempName k) (.bool false))
      (· = ρ.set (tempName k) (.bool false)) (effects (body.map S.meaning) h)
      (inBlock (S.exec (.store (.into (tempName k)) (.literal (.bool false)) :: run')) ρ' h) := by
    rintro _ h ⟨value, rfl⟩
    have ready₁ := ready.set (by omega) bound (by omega) (.bool false)
    have here := performs.inBlock (ctx.head?_reach true) high ready₁ h
    change Matches ctx.loops _ _ _ _ at here
    rw [inBlock_store (by simp), Env.set_set, ← around]
    exact here
  have all := Matches.again_flagged agree labeled flagged distinct (Env.set_self _ _ _) ⟨_, rfl⟩
    ⟨_, Env.set_set _ _ _ _⟩ S.n ⟨old, (Env.set_eq_self held).symm⟩ (w := S.world) (h := h)
  have inFrame : ∀ value, Frame base _ ρ₀ (ρ.set (tempName k) value) := fun value =>
    (started.mono (Nat.le_refl base) grows).trans (Frame.set inBase (by omega) ρ value)
  rw [around, exec_singleton]
  refine all.mono ?_ ?_
  · rintro _ h' _ ⟨b, _, reached, value, rfl⟩
    exact ⟨b, _, reached, inFrame value, (ready.set (by omega) bound (by omega) value).mono grows⟩
  · rintro _ ⟨value, rfl⟩
    exact inFrame value

/-- The body of a labeled loop. -/
theorem within_labeledBody {body : Option Tree} {loop : EnclosingLoop}
    {others : List EnclosingLoop} {labels : LabelPair} (acts : ∀ part ∈ body, S.Acts true part)
    (around : ctx.loops = loop :: others) (labeled : loop.labels = some labels)
    (distinct : labels.outer ≠ labels.inner)
    (fresh : ∀ name ∈ loop.redoFlag, ∃ k, base < k ∧ name = tempName k)
    (ends : Ends (lowerLabeledBody (body.map Tree.part) labels.inner loop.redoFlag) ctx p code ()
      p') :
    S.Within base ctx p.scope.temps p'.scope.temps ctx.loops (again S.n (body.map S.meaning))
      (S.exec code) := by
  cases flagged : loop.redoFlag with
  | none =>
    rw [flagged] at ends
    exact within_block acts around labeled flagged distinct ends
  | some flag =>
    obtain ⟨k, inBase, rfl⟩ := fresh flag flagged
    rw [flagged] at ends
    exact within_flagged acts around labeled flagged distinct inBase ends

/-! ## Blocks of a pass -/

/-- At the end of the block its variables are gone. -/
theorem Within.inBlock {meaning : Meaning Unit} {exec java : Exec Unit} {ρ ρ₁ : Env} {h : History}
    (within : S.Within base ctx lo hi loops meaning exec) (above : S.bot ≤ base)
    (high : hi ≤ S.top) (noRedo : meaning.NoRedo loops) (starts : java ρ h = exec ρ₁ h)
    (started : Frame base lo ρ ρ₁) (ready : S.Ready ctx lo ρ₁)
    (free : ∀ k, base < k → ρ (tempName k) = none) :
    Matches loops (Reaches fun _ _ ρ' => ρ' = ρ) (· = ρ) (meaning h)
      (Exec.inBlock java ρ h) := by
  have agree := within.agrees above high ρ ρ₁ h started ready
  unfold Exec.inBlock
  rw [starts]
  refine agree.mapEnv noRedo ?_ fun ρ' frame => frame.leave free
  rintro _ h' _ ⟨b, ρ', rfl, frame, -⟩
  exact ⟨b, _, rfl, frame.leave free⟩

/-- The block puts a value into a variable from outside before it ends. -/
theorem Within.inBlock_deliver {meaning : Meaning Unit} {cond : Meaning Value} {exec java : Exec Unit}
    {last : Code} {ρ ρ₁ : Env} {h : History} {j : Nat}
    (within : S.Within base ctx lo mid loops meaning exec)
    (delivers : S.Delivers ctx mid hi last (.into (tempName j)) cond) (above : S.bot ≤ base)
    (below : base ≤ lo) (high : hi ≤ S.top) (only : OnlyBreaks meaning)
    (starts : java ρ h = (do exec; S.exec last) ρ₁ h) (started : Frame base lo ρ ρ₁)
    (ready : S.Ready ctx lo ρ₁) (free : ∀ k, base < k → ρ (tempName k) = none) (bound : j ≤ base)
    (known : (ρ (tempName j)).isSome) :
    Matches loops (Reaches fun value _ ρ' => ρ' = ρ.set (tempName j) value) (· = ρ)
      ((do meaning; cond.closed) h) (Exec.inBlock java ρ h) := by
  have grows := within.grows
  have grows' := delivers.grows
  have agree : Matches loops (fun value h result => ∃ ρ', Frame base hi ρ ρ' ∧
      result = Exec.deliver S.world (.into (tempName j)) value ρ' h) (Frame base hi ρ)
      ((do meaning; cond.closed) h) ((do exec; S.exec last) ρ₁ h) := by
    refine ((within.agrees above (by omega) ρ ρ₁ h started ready).mono (fun _ _ _ done => done)
      fun _ near => near.mono (Nat.le_refl base) grows').bind ?_
    rintro _ _ ρ₂ h₂ ⟨frame, ready₂⟩
    refine Matches.closed ((delivers.agrees high ρ₂ h₂ ready₂).mono ?_ fun _ near => near)
    rintro value h₃ _ ⟨ρ₃, near, rfl⟩
    refine ⟨ρ₃, ?_, rfl⟩
    exact (frame.mono (Nat.le_refl base) grows').trans (near.mono (by omega) (Nat.le_refl hi))
  unfold Exec.inBlock
  rw [starts]
  refine agree.mapEnv ((only.bind fun _ => onlyBreaks_closed _).noRedo loops) ?_ fun ρ' frame =>
    frame.leave free
  rintro value h' _ ⟨ρ', frame, rfl⟩
  obtain ⟨old, held⟩ := Option.isSome_iff_exists.mp known
  rw [Exec.deliver_into ((frame.temp (.inl bound)).trans held)]
  refine ⟨(), _, rfl, ?_⟩
  rw [Env.leave_set known, frame.leave free]

/-- Inside of a loop whose flag is declared. -/
theorem Ready.inLoop {ρ : Env} (ready : S.Ready ctx lo ρ) (loop : EnclosingLoop)
    (flag : ∀ name ∈ loop.redoFlag, ∃ k, k ≤ lo ∧ name = tempName k ∧ (ρ name).isSome) :
    S.Ready { ctx with loops := loop :: ctx.loops } lo ρ where
  owner := ready.owner
  static := ready.static
  above := ready.above
  free := ready.free
  names := ready.names
  flag other mem name memName := by
    cases mem
    exact flag name memName

/-- Statements at the start of a block, in which the innermost loop is another one. -/
def Opens (S : Setting) (ctx ctx' : Context) (lo mid : Nat) (start : Code) : Prop :=
  lo ≤ mid ∧ (mid ≤ S.top → ∀ ρ, S.Ready ctx lo ρ → ∃ ρ₁,
    (∀ rest h, S.exec (start ++ rest) ρ h = S.exec rest ρ₁ h) ∧ Frame lo mid ρ ρ₁ ∧
      S.Ready ctx' mid ρ₁)

theorem opens_unflagged {loop : EnclosingLoop} (unflagged : loop.redoFlag = none) :
    S.Opens ctx { ctx with loops := loop :: ctx.loops } lo lo [] := by
  refine ⟨Nat.le_refl lo, fun _ ρ ready => ⟨ρ, fun _ _ => rfl, Frame.refl lo lo ρ, ?_⟩⟩
  refine ready.inLoop loop fun name mem => ?_
  rw [unflagged] at mem
  cases mem

theorem opens_flagged {loop : EnclosingLoop} (flagged : loop.redoFlag = some (tempName (lo + 1)))
    (type : JavaType) (init : Literal) :
    S.Opens ctx { ctx with loops := loop :: ctx.loops } lo (lo + 1)
      [.declare type (tempName (lo + 1)) (.literal init)] := by
  refine ⟨Nat.le_succ lo, fun high ρ ready => ?_⟩
  have frame : Frame lo (lo + 1) ρ (ρ.set (tempName (lo + 1)) (.literal init)) :=
    Frame.set (Nat.lt_succ_self lo) (Nat.le_refl _) ρ _
  refine ⟨_, fun rest h => exec_declare ready high type init rest h, frame, ?_⟩
  refine (ready.frame frame (Nat.le_succ lo) high).inLoop loop fun name mem => ?_
  rw [flagged] at mem
  cases mem
  exact ⟨lo + 1, Nat.le_refl _, rfl, by rw [Env.set_self]; rfl⟩

end Setting

end JavaBackend
