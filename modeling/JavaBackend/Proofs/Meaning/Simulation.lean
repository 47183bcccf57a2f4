import JavaBackend.Proofs.Lowering.Expressions
import JavaBackend.Proofs.Meaning.Java

/-!
# Java code that does what a tree means

The vocabulary in which the code of a tree is compared with its meaning. The two run side by side:
they do the same, event by event, end together, and end in the same way. The code has temporaries
besides, so its variables are those from before up to the temporaries that the lowering handed out in
between (`Frame`).

A jump that leaves the meaning of a tree leaves its code as well, and `EnclosingLoop.Jumped` says how:
by the jump that the innermost loop around the tree takes for it.
-/

namespace JavaBackend

open Java (Stmt Code Expr Sink Env Result Exec)
open Java.Exec (deliver)

variable {α β γ δ : Type}

/-! ## Variables -/

/-- Only temporaries with numbers from `lo + 1` to `hi` may differ. -/
def Frame (lo hi : Nat) (ρ ρ' : Env) : Prop :=
  ∀ name, (∀ k, lo < k → k ≤ hi → name ≠ tempName k) → ρ' name = ρ name

namespace Frame

variable {lo mid hi : Nat} {ρ ρ₁ ρ₂ : Env}

theorem refl (lo hi : Nat) (ρ : Env) : Frame lo hi ρ ρ := fun _ _ => rfl

theorem trans (first : Frame lo hi ρ ρ₁) (second : Frame lo hi ρ₁ ρ₂) : Frame lo hi ρ ρ₂ :=
  fun name other => (second name other).trans (first name other)

theorem mono {lo' hi' : Nat} (frame : Frame lo hi ρ ρ₁) (below : lo' ≤ lo) (above : hi ≤ hi') :
    Frame lo' hi' ρ ρ₁ :=
  fun name other => frame name fun k low high => other k (by omega) (by omega)

theorem set {k : Nat} (low : lo < k) (high : k ≤ hi) (ρ : Env) (value : Value) :
    Frame lo hi ρ (ρ.set (tempName k) value) :=
  fun _ other => Env.set_of_ne value (other k low high)

theorem temp {k : Nat} (frame : Frame lo hi ρ ρ₁) (outside : k ≤ lo ∨ hi < k) :
    ρ₁ (tempName k) = ρ (tempName k) := by
  refine frame _ fun other low high same => ?_
  have := tempName_inj same
  omega

/-- With no temporaries in between nothing differs. -/
theorem eq_of_le (frame : Frame lo hi ρ ρ₁) (none : hi ≤ lo) : ρ₁ = ρ :=
  funext fun name => frame name fun k low high => by omega

/-- At the end of a block all is as before, if the temporaries belong to the block. -/
theorem leave (frame : Frame lo hi ρ ρ₁) (free : ∀ k, lo < k → ρ (tempName k) = none) :
    Env.leave ρ ρ₁ = ρ := by
  funext name
  unfold Env.leave
  split
  · next known =>
    refine frame name fun k low _ same => ?_
    rw [same, free k low] at known
    cases known
  · next unknown => exact (Option.not_isSome_iff_eq_none.mp unknown).symm

end Frame

/-- An assignment to a variable from outside outlives the block. -/
theorem Java.Env.leave_set {ρ ρ₁ : Env} {name : String} (known : (ρ name).isSome)
    (value : Value) : Env.leave ρ (ρ₁.set name value) = (Env.leave ρ ρ₁).set name value := by
  funext other
  unfold Env.leave Env.set
  by_cases same : other = name
  · subst same
    rw [if_pos known, if_pos rfl, if_pos rfl]
  · rw [if_neg same, if_neg same]

/-- A block leaves the same variables behind, whatever one of them holds at its start. -/
theorem Java.Env.leave_of_set {ρ : Env} {name : String} (known : (ρ name).isSome) (value : Value) :
    Env.leave (ρ.set name value) = Env.leave ρ := by
  funext ρ' other
  unfold Env.leave Env.set
  by_cases same : other = name
  · subst same
    rw [if_pos rfl, if_pos known]
    rfl
  · rw [if_neg same]

/-! ## What is held fixed -/

/-- What a run of the lowering and of its code takes place in. -/
structure Setting where
  world : World
  /-- How often a loop goes back. -/
  n : Nat
  /-- The variables of the method that the tree mentions. -/
  names : List String
  /-- The temporaries that were handed out before. -/
  bot : Nat
  /-- The temporaries that are handed out in the end. -/
  top : Nat
  volatile : ∀ name, world.isVolatile name = true → name ∈ names
  clean : ∀ name ∈ names, ∀ k, bot < k → k ≤ top → name ≠ tempName k

namespace Setting

theorem stable_temp (S : Setting) {k : Nat} (low : S.bot < k) (high : k ≤ S.top) :
    S.world.isVolatile (tempName k) = false := by
  rw [Bool.eq_false_iff]
  intro changed
  exact S.clean _ (S.volatile _ changed) k low high rfl

/-- What holds when code starts that was lowered once `lo` temporaries were handed out. -/
structure Ready (S : Setting) (ctx : Context) (lo : Nat) (ρ : Env) : Prop where
  owner : ctx.owner = S.world.owner
  static : ctx.isStatic = S.world.isStatic
  above : S.bot ≤ lo
  free : ∀ k, lo < k → ρ (tempName k) = none
  names : ∀ name ∈ S.names, ρ name = none
  flag : ∀ loop ∈ ctx.loops.head?, ∀ flag ∈ loop.redoFlag,
    ∃ k, k ≤ lo ∧ flag = tempName k ∧ (ρ flag).isSome

namespace Ready

variable {S : Setting} {ctx : Context} {lo hi : Nat} {ρ ρ' : Env}

theorem frame (ready : S.Ready ctx lo ρ) (changed : Frame lo hi ρ ρ') (grows : lo ≤ hi)
    (below : hi ≤ S.top) : S.Ready ctx hi ρ' where
  owner := ready.owner
  static := ready.static
  above := Nat.le_trans ready.above grows
  free k high := by
    rw [changed.temp (.inr high)]
    exact ready.free k (by omega)
  names name mem := by
    have above := ready.above
    rw [changed name fun k low high => S.clean name mem k (by omega) (by omega)]
    exact ready.names name mem
  flag loop memLoop flag mem := by
    obtain ⟨k, bound, rfl, known⟩ := ready.flag loop memLoop flag mem
    exact ⟨k, Nat.le_trans bound grows, rfl, by rwa [changed.temp (.inl bound)]⟩

theorem mono (ready : S.Ready ctx lo ρ) (grows : lo ≤ hi) : S.Ready ctx hi ρ where
  owner := ready.owner
  static := ready.static
  above := Nat.le_trans ready.above grows
  free k high := ready.free k (by omega)
  names := ready.names
  flag loop memLoop flag mem := by
    obtain ⟨k, bound, same, known⟩ := ready.flag loop memLoop flag mem
    exact ⟨k, Nat.le_trans bound grows, same, known⟩

/-- A temporary from before may be assigned. -/
theorem set {k : Nat} (ready : S.Ready ctx lo ρ) (low : S.bot < k) (high : k ≤ lo)
    (below : lo ≤ S.top) (value : Value) : S.Ready ctx lo (ρ.set (tempName k) value) where
  owner := ready.owner
  static := ready.static
  above := ready.above
  free j above := by
    rw [Env.set_of_ne value fun same => ?_]
    · exact ready.free j above
    · have := tempName_inj same
      omega
  names name mem := by
    rw [Env.set_of_ne value (S.clean name mem k low (Nat.le_trans high below))]
    exact ready.names name mem
  flag loop memLoop flag mem := by
    obtain ⟨j, bound, same, known⟩ := ready.flag loop memLoop flag mem
    refine ⟨j, bound, same, ?_⟩
    unfold Env.set
    split
    · rfl
    · exact known

end Ready

end Setting

/-! ## Runs side by side -/

/-- How the code for a jump of the innermost loop ends. -/
inductive EnclosingLoop.Jumped (loop : EnclosingLoop) (ρ : Env) (h : History) :
    Jump → Result α → Prop
  | break : Jumped loop ρ h .break (.broke (loop.labels.map LabelPair.outer) ρ h)
  | nextPlain (plain : loop.labels = none) : Jumped loop ρ h .next (.continued none ρ h)
  | nextLabeled {labels : LabelPair} (labeled : loop.labels = some labels) :
    Jumped loop ρ h .next (.broke (some labels.inner) ρ h)
  | redo {labels : LabelPair} {flag : String} (labeled : loop.labels = some labels)
    (flagged : loop.redoFlag = some flag) :
    Jumped loop ρ h .redo (.continued (some labels.inner) (ρ.set flag (.bool true)) h)

theorem EnclosingLoop.Jumped.bind {loop : EnclosingLoop} {ρ ρ₀ : Env} {h h₀ : History}
    {jump : Jump} {first : Exec α} {next : α → Exec β}
    (jumped : loop.Jumped ρ h jump (first ρ₀ h₀)) :
    loop.Jumped ρ h jump ((first >>= next) ρ₀ h₀) := by
  rw [Exec.bind_apply]
  generalize first ρ₀ h₀ = result at jumped ⊢
  cases jumped with
  | «break» => exact .break
  | nextPlain plain => exact .nextPlain plain
  | nextLabeled labeled => exact .nextLabeled labeled
  | redo labeled flagged => exact .redo labeled flagged

/-- A jump out of a block. -/
theorem EnclosingLoop.Jumped.inBlock {loop : EnclosingLoop} {ρ ρ' : Env} {h h' : History}
    {jump : Jump} {body : Exec α} (jumped : loop.Jumped ρ' h' jump (body ρ h))
    (known : ∀ flag ∈ loop.redoFlag, (ρ flag).isSome) :
    loop.Jumped (Env.leave ρ ρ') h' jump (Exec.inBlock body ρ h) := by
  unfold Exec.inBlock
  generalize body ρ h = result at jumped ⊢
  cases jumped with
  | «break» => exact .break
  | nextPlain plain => exact .nextPlain plain
  | nextLabeled labeled => exact .nextLabeled labeled
  | redo labeled flagged =>
    show loop.Jumped _ h' .redo (.continued _ (Env.leave ρ (ρ'.set _ _)) h')
    rw [Env.leave_set (known _ flagged)]
    exact .redo labeled flagged

/-- The end of a meaning and that of code agree: `Done` relates the value of a meaning that is done to
    the end of the code, and jumps leave variables that are `near`. There is no agreement with a
    meaning that is undefined. -/
def Matches (loops : List EnclosingLoop) (Done : α → History → Result β → Prop)
    (near : Env → Prop) : Ending α → Result β → Prop
  | .done value h, result => Done value h result
  | .left jump h, result =>
    ∃ loop rest ρ, loops = loop :: rest ∧ near ρ ∧ loop.Jumped ρ h jump result
  | .running h, result => result = .running h
  | .undefined, _ => False

/-- The code is done, too, and so are its result and its variables. -/
def Reaches (good : α → β → Env → Prop) (value : α) (h : History) (result : Result β) : Prop :=
  ∃ b ρ, result = .done b ρ h ∧ good value b ρ

namespace Matches

variable {loops : List EnclosingLoop} {near near' : Env → Prop} {h : History} {ρ : Env}

/-- The ways in which two ends agree. -/
theorem cases {Done : α → History → Result β → Prop} {ending : Ending α} {result : Result β}
    (agree : Matches loops Done near ending result) :
    (∃ value h, ending = .done value h ∧ Done value h result) ∨
      (∃ jump h loop rest ρ, ending = .left jump h ∧ loops = loop :: rest ∧ near ρ ∧
        loop.Jumped ρ h jump result) ∨
      ∃ h, ending = .running h ∧ result = .running h := by
  cases ending with
  | done value h => exact .inl ⟨value, h, rfl, agree⟩
  | left jump h =>
    obtain ⟨loop, rest, ρ, left⟩ := agree
    exact .inr (.inl ⟨jump, h, loop, rest, ρ, rfl, left⟩)
  | running h => exact .inr (.inr ⟨h, rfl, agree⟩)
  | undefined => exact agree.elim

theorem mono {Done Done' : α → History → Result β → Prop} {ending : Ending α} {result : Result β}
    (agree : Matches loops Done near ending result)
    (weaker : ∀ value h result, Done value h result → Done' value h result)
    (nearer : ∀ ρ, near ρ → near' ρ) : Matches loops Done' near' ending result := by
  rcases agree.cases with ⟨value, h, rfl, done⟩ | ⟨jump, h, loop, rest, ρ, rfl, around, close, jumped⟩ |
    ⟨h, rfl, rfl⟩
  · exact weaker value h result done
  · exact ⟨loop, rest, ρ, around, nearer ρ close, jumped⟩
  · rfl

/-- Where no jump can leave, the loops around have no part. -/
theorem widen {Done : α → History → Result β → Prop} {ending : Ending α} {result : Result β}
    (agree : Matches [] Done near ending result) : Matches loops Done near' ending result := by
  rcases agree.cases with ⟨value, h, rfl, done⟩ | ⟨_, _, _, _, _, _, ⟨⟩, _⟩ | ⟨h, rfl, rfl⟩
  · exact done
  · rfl

/-- One after the other on both sides. -/
theorem bind {good : α → β → Env → Prop} {Done : γ → History → Result δ → Prop}
    {first : Meaning α} {next : α → Meaning γ} {code : Exec β} {rest : β → Exec δ}
    (agree : Matches loops (Reaches good) near (first h) (code ρ h))
    (after : ∀ value b ρ' h', good value b ρ' →
      Matches loops Done near (next value h') (rest b ρ' h')) :
    Matches loops Done near ((first >>= next) h) ((code >>= rest) ρ h) := by
  rw [Meaning.bind_apply]
  rcases agree.cases with ⟨value, h', ending, b, ρ', reached, holds⟩ |
    ⟨jump, h', loop, others, ρ', ending, around, close, jumped⟩ | ⟨h', ending, reached⟩
  · rw [ending, Exec.bind_apply, reached]
    exact after value b ρ' h' holds
  · rw [ending]
    exact ⟨loop, others, ρ', around, close, jumped.bind⟩
  · rw [ending, Exec.bind_apply, reached]
    rfl

/-- What is known of the value of a meaning may be put on the meaning's side only. -/
theorem map {good : α → β → Env → Prop} {Done : γ → History → Result β → Prop} {first : Meaning α}
    {code : Exec β} (f : α → γ) (agree : Matches loops (Reaches good) near (first h) (code ρ h))
    (holds : ∀ value b ρ' h', good value b ρ' → Done (f value) h' (.done b ρ' h')) :
    Matches loops Done near ((f <$> first) h) (code ρ h) := by
  rw [← bind_pure_comp, ← bind_pure code]
  exact agree.bind fun value b ρ' h' good => holds value b ρ' h' good

end Matches

/-! ## Code for a meaning -/

namespace Setting

variable (S : Setting) (ctx : Context) (lo hi : Nat)

/-- The statements in the setting's world. -/
def exec (code : Code) : Exec Unit := Stmt.execCode S.world S.n code

/-- Code that was lowered while the temporaries from `lo + 1` to `hi` were handed out runs side by
    side with a meaning. -/
structure Simulates (loops : List EnclosingLoop) (meaning : Meaning α) (code : Exec β)
    (Done : Env → α → History → Result β → Prop) : Prop where
  grows : lo ≤ hi
  agrees : hi ≤ S.top → ∀ ρ h, S.Ready ctx lo ρ →
    Matches loops (Done ρ) (Frame lo hi ρ) (meaning h) (code ρ h)

/-- The code is there for the effects. -/
def Performs (loops : List EnclosingLoop) (code : Code) (meaning : Meaning α) : Prop :=
  S.Simulates ctx lo hi loops meaning (S.exec code) fun ρ => Reaches fun _ _ ρ' => Frame lo hi ρ ρ'

/-- The code puts the value somewhere, and that is the last that it does. -/
def Delivers (code : Code) (sink : Sink) (meaning : Meaning Value) : Prop :=
  S.Simulates ctx lo hi [] meaning (S.exec code) fun ρ value h result =>
    ∃ ρ', Frame lo hi ρ ρ' ∧ result = deliver S.world sink value ρ' h

/-- What is evaluated after the code has the value. -/
def Yields (code : Code) (rest : Exec β) (meaning : Meaning β) : Prop :=
  S.Simulates ctx lo hi [] meaning (do S.exec code; rest) fun ρ =>
    Reaches fun value b ρ' => b = value ∧ Frame lo hi ρ ρ'

/-- What is evaluated has the value, and does nothing else, whatever temporaries come later. -/
def Settled (rest : Exec β) (value : β) (ρ : Env) : Prop :=
  ∀ ρ' h, Frame hi S.top ρ ρ' → rest ρ' h = .done value ρ' h

/-- The code evaluates all there is to evaluate, and the value is at hand from then on. -/
def Fixes (code : Code) (rest : Exec β) (meaning : Meaning β) : Prop :=
  S.Simulates ctx lo hi [] meaning (S.exec code) fun ρ =>
    Reaches fun value _ ρ' => Frame lo hi ρ ρ' ∧ S.Settled hi rest value ρ'

variable {S ctx lo hi} {mid : Nat}

theorem exec_singleton (stmt : Stmt) : S.exec [stmt] = stmt.exec S.world S.n [] :=
  Stmt.execCode_singleton S.world S.n stmt

theorem exec_append (first second : Code) :
    S.exec (first ++ second) = (do S.exec first; S.exec second) :=
  Stmt.execCode_append S.world S.n first second

theorem exec_concat (code : Code) (stmt : Stmt) :
    S.exec (code ++ [stmt]) = (do S.exec code; stmt.exec S.world S.n []) := by
  rw [exec_append]
  exact congrArg _ (funext fun _ => exec_singleton stmt)

/-! ### Values in place -/

theorem yields_pure (value : β) : S.Yields ctx lo lo [] (pure value) (pure value) where
  grows := Nat.le_refl lo
  agrees _ ρ _ _ := ⟨value, ρ, rfl, rfl, Frame.refl lo lo ρ⟩

/-- What the world is asked for needs none of the code's variables. -/
theorem yields_ask (event : Event) :
    S.Yields ctx lo lo [] (Exec.ofMeaning (S.world.ask event)) (S.world.ask event) where
  grows := Nat.le_refl lo
  agrees _ ρ h _ := ⟨S.world.answer (h ++ [event]), ρ, rfl, rfl, Frame.refl lo lo ρ⟩

theorem Yields.bind {code : Code} {rest : Exec β} {meaning : Meaning β} {next : β → Exec γ}
    {after : β → Meaning γ} (first : S.Yields ctx lo hi code rest meaning)
    (second : ∀ value, S.Yields ctx hi hi [] (next value) (after value)) :
    S.Yields ctx lo hi code (rest >>= next) (meaning >>= after) where
  grows := first.grows
  agrees below ρ h ready := by
    rw [← bind_assoc]
    refine (first.agrees below ρ h ready).bind ?_
    rintro _ value ρ' h' ⟨rfl, frame⟩
    have ready' := ready.frame frame first.grows below
    refine ((second value).agrees below ρ' h' ready').mono ?_ ?_
    · rintro _ h'' _ ⟨last, ρ'', reached, rfl, same⟩
      exact ⟨last, ρ'', reached, rfl, frame.trans (same.mono first.grows (Nat.le_refl hi))⟩
    · exact fun ρ'' same => frame.trans (same.mono first.grows (Nat.le_refl hi))

theorem Yields.map {code : Code} {rest : Exec β} {meaning : Meaning β} (f : β → γ)
    (first : S.Yields ctx lo hi code rest meaning) :
    S.Yields ctx lo hi code (do return f (← rest)) (do return f (← meaning)) :=
  first.bind fun _ => yields_pure _

/-! ### Values that are at hand -/

theorem Settled.mono {rest : Exec β} {value : β} {ρ ρ' : Env}
    (settled : S.Settled mid rest value ρ) (frame : Frame mid hi ρ ρ') (grows : mid ≤ hi)
    (below : hi ≤ S.top) : S.Settled hi rest value ρ' := by
  intro ρ'' h later
  exact settled ρ'' h ((frame.mono (Nat.le_refl mid) below).trans (later.mono grows (Nat.le_refl _)))

theorem Fixes.yields {code : Code} {rest : Exec β} {meaning : Meaning β}
    (fixes : S.Fixes ctx lo hi code rest meaning) : S.Yields ctx lo hi code rest meaning where
  grows := fixes.grows
  agrees below ρ h ready := by
    rw [← bind_pure meaning]
    refine (fixes.agrees below ρ h ready).bind ?_
    rintro value _ ρ' h' ⟨frame, settled⟩
    exact ⟨value, ρ', settled ρ' h' (Frame.refl hi S.top ρ'), rfl, frame⟩

/-- Two values are evaluated one after the other, and both are at hand after that. -/
theorem Fixes.both {code₁ code₂ : Code} {rest₁ : Exec β} {rest₂ : Exec γ} {meaning₁ : Meaning β}
    {meaning₂ : Meaning γ} (f : β → γ → δ) (first : S.Fixes ctx lo mid code₁ rest₁ meaning₁)
    (second : S.Fixes ctx mid hi code₂ rest₂ meaning₂) :
    S.Fixes ctx lo hi (code₁ ++ code₂) (do let a ← rest₁; let b ← rest₂; return f a b)
      (do let a ← meaning₁; let b ← meaning₂; return f a b) where
  grows := Nat.le_trans first.grows second.grows
  agrees below ρ h ready := by
    have low := first.grows
    have high := second.grows
    rw [exec_append]
    refine ((first.agrees (by omega) ρ h ready).mono (fun _ _ _ done => done)
      fun _ near => near.mono (Nat.le_refl lo) high).bind ?_
    rintro a _ ρ₁ h₁ ⟨frame₁, settled₁⟩
    have ready₁ := ready.frame frame₁ low (by omega)
    have across := frame₁.mono (Nat.le_refl lo) high
    rw [bind_pure_comp, ← bind_pure (S.exec code₂), ← bind_pure_comp]
    refine ((second.agrees below ρ₁ h₁ ready₁).mono (fun _ _ _ done => done)
      fun _ near => across.trans (near.mono low (Nat.le_refl hi))).bind ?_
    rintro b _ ρ₂ h₂ ⟨frame₂, settled₂⟩
    refine ⟨_, ρ₂, rfl, across.trans (frame₂.mono low (Nat.le_refl hi)), fun ρ₃ h₃ later => ?_⟩
    rw [Exec.bind_apply, settled₁.mono frame₂ high below ρ₃ h₃ later]
    show (rest₂ >>= _) ρ₃ h₃ = _
    rw [Exec.bind_apply, settled₂ ρ₃ h₃ later]
    rfl

theorem fixes_pure {rest : Exec β} {value : β} (pure : ∀ ρ h, rest ρ h = .done value ρ h) :
    S.Fixes ctx lo lo [] rest (Pure.pure value) where
  grows := Nat.le_refl lo
  agrees _ ρ _ _ := ⟨(), ρ, rfl, Frame.refl lo lo ρ, fun ρ' h' _ => pure ρ' h'⟩

/-! ### Statements -/

/-- Code for its effects, and other code after it. -/
theorem Performs.andThen {loops : List EnclosingLoop} {code : Code} {meaning : Meaning α}
    {next : Exec β} {after : Meaning γ} {Done Done' : Env → γ → History → Result β → Prop}
    (first : S.Performs ctx lo mid loops code meaning)
    (second : S.Simulates ctx mid hi loops after next Done)
    (weaker : ∀ ρ ρ', Frame lo hi ρ ρ' → ∀ value h result, Done ρ' value h result →
      Done' ρ value h result) :
    S.Simulates ctx lo hi loops (do let _ ← meaning; after) (do S.exec code; next) Done' where
  grows := Nat.le_trans first.grows second.grows
  agrees below ρ h ready := by
    have low := first.grows
    have high := second.grows
    refine ((first.agrees (by omega) ρ h ready).mono (fun _ _ _ done => done)
      fun _ near => near.mono (Nat.le_refl lo) high).bind ?_
    rintro _ _ ρ₁ h₁ frame
    have across := frame.mono (Nat.le_refl lo) high
    refine (second.agrees below ρ₁ h₁ (ready.frame frame low (by omega))).mono ?_ ?_
    · exact weaker ρ ρ₁ across
    · exact fun _ near => across.trans (near.mono low (Nat.le_refl hi))

theorem Performs.append {loops : List EnclosingLoop} {code₁ code₂ : Code} {meaning₁ : Meaning α}
    {meaning₂ : Meaning β} (first : S.Performs ctx lo mid loops code₁ meaning₁)
    (second : S.Performs ctx mid hi loops code₂ meaning₂) :
    S.Performs ctx lo hi loops (code₁ ++ code₂) (do let _ ← meaning₁; meaning₂) := by
  unfold Performs
  rw [exec_append]
  refine first.andThen second fun ρ ρ' frame value h result => ?_
  rintro ⟨b, ρ'', reached, near⟩
  exact ⟨b, ρ'', reached, frame.trans (near.mono first.grows (Nat.le_refl hi))⟩

theorem Performs.deliver {code₁ code₂ : Code} {sink : Sink} {meaning₁ : Meaning α}
    {meaning₂ : Meaning Value} (first : S.Performs ctx lo mid [] code₁ meaning₁)
    (second : S.Delivers ctx mid hi code₂ sink meaning₂) :
    S.Delivers ctx lo hi (code₁ ++ code₂) sink (do let _ ← meaning₁; meaning₂) := by
  unfold Delivers
  rw [exec_append]
  refine first.andThen second fun ρ ρ' frame value h result => ?_
  rintro ⟨ρ'', near, reached⟩
  exact ⟨ρ'', frame.trans (near.mono first.grows (Nat.le_refl hi)), reached⟩

/-- Only what a meaning does matters to code that is there for the effects. -/
theorem Performs.of_effects {loops : List EnclosingLoop} {code : Code} {meaning : Meaning α}
    {meaning' : Meaning β} (performs : S.Performs ctx lo hi loops code meaning)
    (same : (do let _ ← meaning'; return ()) = (do let _ ← meaning; return ())) :
    S.Performs ctx lo hi loops code meaning' where
  grows := performs.grows
  agrees below ρ h ready := by
    have agree := performs.agrees below ρ h ready
    have sameHere := congrFun same h
    rw [Meaning.bind_apply, Meaning.bind_apply] at sameHere
    generalize meaning h = ending at agree sameHere
    generalize meaning' h = ending' at sameHere ⊢
    cases ending <;> cases ending' <;> cases sameHere <;> exact agree

theorem Performs.map {loops : List EnclosingLoop} {code : Code} {meaning : Meaning α} (f : α → β)
    (performs : S.Performs ctx lo hi loops code meaning) :
    S.Performs ctx lo hi loops code (do return f (← meaning)) :=
  performs.of_effects (by rw [bind_assoc]; rfl)

/-- Where no jump can leave, the loops around have no part. -/
theorem Performs.widen {loops : List EnclosingLoop} {code : Code} {meaning : Meaning α}
    (performs : S.Performs ctx lo hi [] code meaning) : S.Performs ctx lo hi loops code meaning where
  grows := performs.grows
  agrees below ρ h ready := (performs.agrees below ρ h ready).widen

theorem performs_nil (loops : List EnclosingLoop) (value : α) :
    S.Performs ctx lo lo loops [] (pure value) where
  grows := Nat.le_refl lo
  agrees _ ρ _ _ := ⟨(), ρ, rfl, Frame.refl lo lo ρ⟩

theorem Yields.perform {code : Code} {expr : Expr} {meaning : Meaning Value}
    (yields : S.Yields ctx lo hi code (expr.eval S.world) meaning) (loops : List EnclosingLoop) :
    S.Performs ctx lo hi loops (code ++ [.eval expr]) meaning where
  grows := yields.grows
  agrees below ρ h ready := by
    rw [exec_concat, ← bind_pure meaning]
    show Matches loops _ _ _ ((S.exec code >>= fun _ => expr.eval S.world >>= fun _ => pure ()) ρ h)
    rw [← bind_assoc]
    refine Matches.bind (yields.agrees below ρ h ready).widen ?_
    rintro value _ ρ' h' ⟨-, frame⟩
    exact ⟨(), ρ', rfl, frame⟩

theorem Yields.store {code : Code} {expr : Expr} {meaning : Meaning Value}
    (yields : S.Yields ctx lo hi code (expr.eval S.world) meaning) (sink : Sink) :
    S.Delivers ctx lo hi (code ++ [.store sink expr]) sink meaning where
  grows := yields.grows
  agrees below ρ h ready := by
    rw [exec_concat, ← bind_pure meaning]
    show Matches [] _ _ _
      ((S.exec code >>= fun _ => expr.eval S.world >>= Exec.deliver S.world sink) ρ h)
    rw [← bind_assoc]
    refine (yields.agrees below ρ h ready).bind ?_
    rintro _ value ρ' h' ⟨rfl, frame⟩
    exact ⟨ρ', frame, rfl⟩

/-! ### Temporaries -/

theorem declareVar_temp {k : Nat} (low : S.bot < k) (high : k ≤ S.top) {ρ : Env}
    (free : ρ (tempName k) = none) (value : Value) (h : History) :
    Exec.declareVar S.world (tempName k) value ρ h = .done () (ρ.set (tempName k) value) h := by
  unfold Exec.declareVar
  rw [S.stable_temp low high, free]
  rfl

theorem settled_temp {k : Nat} {ρ : Env} {value : Value} (below : k ≤ hi)
    (held : ρ (tempName k) = some value) :
    S.Settled hi (Expr.eval S.world (.var (tempName k))) value ρ := by
  intro ρ' h frame
  show Exec.readVar S.world (tempName k) ρ' h = _
  unfold Exec.readVar
  rw [frame.temp (.inl below), held]

/-- A value is declared as a temporary's first. -/
theorem Yields.declare {code : Code} {expr : Expr} {meaning : Meaning Value}
    (yields : S.Yields ctx lo hi code (expr.eval S.world) meaning) (type : JavaType) :
    S.Fixes ctx lo (hi + 1) (code ++ [.declare type (tempName (hi + 1)) expr])
      (Expr.eval S.world (.var (tempName (hi + 1)))) meaning where
  grows := Nat.le_succ_of_le yields.grows
  agrees below ρ h ready := by
    have low := yields.grows
    have above := ready.above
    rw [exec_concat, ← bind_pure meaning]
    show Matches [] _ _ _ ((S.exec code >>= fun _ => expr.eval S.world >>=
      Exec.declareVar S.world (tempName (hi + 1))) ρ h)
    rw [← bind_assoc]
    refine ((yields.agrees (by omega) ρ h ready).mono (fun _ _ _ done => done)
      fun _ near => near.mono (Nat.le_refl lo) (Nat.le_succ hi)).bind ?_
    rintro _ value ρ' h' ⟨rfl, frame⟩
    have free : ρ' (tempName (hi + 1)) = none := by
      rw [frame.temp (.inr (Nat.lt_succ_self hi))]
      exact ready.free _ (by omega)
    rw [declareVar_temp (by omega) below free]
    refine ⟨(), _, rfl, ?_, settled_temp (Nat.le_refl _) (Env.set_self _ _ _)⟩
    exact (frame.mono (Nat.le_refl lo) (Nat.le_succ hi)).trans (Frame.set (by omega) (by omega) _ _)

/-- A temporary is declared with some value. -/
theorem exec_declare {lo : Nat} {ρ : Env} (ready : S.Ready ctx lo ρ) (high : lo < S.top)
    (type : JavaType) (init : Literal) (code : Code) (h : History) :
    S.exec (.declare type (tempName (lo + 1)) (.literal init) :: code) ρ h =
      S.exec code (ρ.set (tempName (lo + 1)) (.literal init)) h := by
  have above := ready.above
  show (Exec.declareVar S.world (tempName (lo + 1)) (.literal init) >>= fun _ => S.exec code) ρ h = _
  rw [Exec.bind_apply, declareVar_temp (by omega) high (ready.free _ (Nat.lt_succ_self lo))]

theorem held_declare (type : JavaType) (init : Literal) :
    S.Simulates ctx lo (lo + 1) [] (pure (.literal init) : Meaning Value)
      (S.exec [.declare type (tempName (lo + 1)) (.literal init)]) fun ρ =>
        Reaches fun value _ ρ' => Frame lo (lo + 1) ρ ρ' ∧
          ρ' (tempName (lo + 1)) = some value where
  grows := Nat.le_succ lo
  agrees below ρ h ready := by
    rw [exec_declare ready below]
    refine ⟨(), _, rfl, ?_, Env.set_self _ _ _⟩
    exact Frame.set (Nat.lt_succ_self lo) (Nat.le_refl _) ρ _

/-- A temporary is declared with some value, and code puts the value into it. -/
theorem Delivers.held {code : Code} {meaning : Meaning Value} (type : JavaType) (init : Literal)
    (delivers : S.Delivers ctx (lo + 1) hi code (.into (tempName (lo + 1))) meaning) :
    S.Simulates ctx lo hi [] meaning
      (S.exec (.declare type (tempName (lo + 1)) (.literal init) :: code)) fun ρ =>
        Reaches fun value _ ρ' => Frame lo hi ρ ρ' ∧ ρ' (tempName (lo + 1)) = some value where
  grows := Nat.le_of_succ_le delivers.grows
  agrees below ρ h ready := by
    have low := delivers.grows
    have declared : Frame lo hi ρ (ρ.set (tempName (lo + 1)) (.literal init)) :=
      Frame.set (by omega) low ρ _
    have ready' := ready.frame (Frame.set (Nat.lt_succ_self lo) (Nat.le_refl (lo + 1)) ρ
      (.literal init)) (Nat.le_succ lo) (by omega)
    rw [exec_declare ready (by omega)]
    refine (delivers.agrees below _ h ready').mono ?_ fun _ near =>
      declared.trans (near.mono (Nat.le_succ lo) (Nat.le_refl hi))
    rintro value h' _ ⟨ρ', frame, rfl⟩
    have held : ρ' (tempName (lo + 1)) = some (.literal init) := by
      rw [frame.temp (.inl (Nat.le_refl _))]
      exact Env.set_self _ _ _
    refine ⟨(), ρ'.set (tempName (lo + 1)) value, Exec.deliver_into held value h', ?_,
      Env.set_self _ _ _⟩
    exact (declared.trans (frame.mono (Nat.le_succ lo) (Nat.le_refl hi))).trans
      (Frame.set (by omega) low _ _)

theorem Delivers.intoTemp {code : Code} {meaning : Meaning Value} (type : JavaType)
    (init : Literal)
    (delivers : S.Delivers ctx (lo + 1) hi code (.into (tempName (lo + 1))) meaning) :
    S.Fixes ctx lo hi (.declare type (tempName (lo + 1)) (.literal init) :: code)
      (Expr.eval S.world (.var (tempName (lo + 1)))) meaning where
  grows := (delivers.held type init).grows
  agrees below ρ h ready := by
    refine ((delivers.held type init).agrees below ρ h ready).mono ?_ fun _ near => near
    rintro value h' _ ⟨b, ρ', reached, frame, held⟩
    exact ⟨b, ρ', reached, frame, settled_temp delivers.grows held⟩

/-! ### Blocks and branches -/

/-- The sink is no temporary that is still to be handed out. -/
def Outer (S : Setting) (lo : Nat) : Sink → Prop
  | .into name => name ∈ S.names ∨ ∃ k, k ≤ lo ∧ name = tempName k
  | _ => True

theorem Outer.mono {sink : Sink} (outer : S.Outer lo sink) (grows : lo ≤ hi) : S.Outer hi sink := by
  cases sink with
  | into name =>
    rcases outer with known | ⟨k, bound, same⟩
    · exact .inl known
    · exact .inr ⟨k, Nat.le_trans bound grows, same⟩
  | result | thrown | lead _ => trivial

/-- What a block puts elsewhere is put there from outside. -/
theorem Outer.deliver_leave {sink : Sink} (outer : S.Outer lo sink) {ρ ρ' : Env}
    (ready : S.Ready ctx lo ρ) (frame : Frame lo hi ρ ρ') (below : hi ≤ S.top) (value : Value)
    (h : History) :
    (deliver S.world sink value ρ' h).mapEnv (Env.leave ρ) = deliver S.world sink value ρ h := by
  have restored := frame.leave ready.free
  cases sink with
  | result | thrown => rfl
  | lead text =>
    show Result.done () (Env.leave ρ ρ') _ = _
    rw [restored]
    rfl
  | into name =>
    have same : ρ' name = ρ name := by
      rcases outer with known | ⟨k, bound, rfl⟩
      · have above := ready.above
        exact frame name fun k low high => S.clean name known k (by omega) (by omega)
      · exact frame.temp (.inl bound)
    cases known : ρ name with
    | some old =>
      rw [Exec.deliver_into known, Exec.deliver_into (same.trans known)]
      show Result.done () (Env.leave ρ (ρ'.set name value)) h = _
      rw [Env.leave_set (by rw [known]; rfl), restored]
    | none =>
      simp only [deliver, known, same]
      split
      · show Result.done () (Env.leave ρ ρ') h = _
        rw [restored]
      · show Result.done () (Env.leave ρ ρ') _ = _
        rw [restored]

theorem Delivers.inBlock {code : Code} {sink : Sink} {meaning : Meaning Value}
    (delivers : S.Delivers ctx lo hi code sink meaning) (outer : S.Outer lo sink)
    (below : hi ≤ S.top) {ρ : Env} (ready : S.Ready ctx lo ρ) (h : History) :
    Matches [] (fun value h result => result = deliver S.world sink value ρ h) (· = ρ) (meaning h)
      (Exec.inBlock (S.exec code) ρ h) := by
  unfold Exec.inBlock
  rcases (delivers.agrees below ρ h ready).cases with ⟨value, h', ending, ρ', frame, reached⟩ |
    ⟨_, _, _, _, _, _, ⟨⟩, _⟩ | ⟨h', ending, reached⟩
  · rw [ending, reached]
    exact outer.deliver_leave ready frame below value h'
  · rw [ending, reached]
    rfl

theorem Performs.inBlock {loops : List EnclosingLoop} {code : Code} {meaning : Meaning α}
    (performs : S.Performs ctx lo hi loops code meaning)
    (inside : ∀ loop ∈ loops.head?, loop ∈ ctx.loops.head?) (below : hi ≤ S.top) {ρ : Env}
    (ready : S.Ready ctx lo ρ) (h : History) :
    Matches loops (Reaches fun _ _ ρ' => ρ' = ρ) (· = ρ) (meaning h)
      (Exec.inBlock (S.exec code) ρ h) := by
  rcases (performs.agrees below ρ h ready).cases with ⟨value, h', ending, b, ρ', reached, frame⟩ |
    ⟨jump, h', loop, rest, ρ', ending, around, frame, jumped⟩ | ⟨h', ending, reached⟩
  · unfold Exec.inBlock
    rw [ending, reached]
    refine ⟨b, ρ, ?_, rfl⟩
    show Result.done b (Env.leave ρ ρ') h' = _
    rw [frame.leave ready.free]
  · rw [ending]
    have known : ∀ flag ∈ loop.redoFlag, (ρ flag).isSome := by
      intro flag mem
      obtain ⟨k, -, -, known⟩ := ready.flag loop (inside loop (by rw [around]; rfl)) flag mem
      exact known
    have left := jumped.inBlock known
    rw [frame.leave ready.free] at left
    exact ⟨loop, rest, ρ, around, rfl, left⟩
  · unfold Exec.inBlock
    rw [ending, reached]
    rfl

/-- A test and two ways to go on, each of them a block or nothing. -/
theorem Yields.branch {loops : List EnclosingLoop} {code : Code} {stmt : Stmt} (test : Java.Test)
    {cond : Meaning Value} {yes no : Exec Unit} {ifTrue ifFalse : Meaning α}
    {Done Done' : Env → α → History → Result Unit → Prop}
    (tested : S.Yields ctx lo mid code (test.expr.eval S.world) cond)
    (runs : stmt.exec S.world S.n [] = (do if ← test.holds S.world then yes else no))
    (grows : mid ≤ hi)
    (onTrue : hi ≤ S.top → ∀ ρ h, S.Ready ctx mid ρ →
      Matches loops (Done ρ) (· = ρ) (ifTrue h) (yes ρ h))
    (onFalse : hi ≤ S.top → ∀ ρ h, S.Ready ctx mid ρ →
      Matches loops (Done ρ) (· = ρ) (ifFalse h) (no ρ h))
    (weaker : ∀ ρ ρ', Frame lo hi ρ ρ' → ∀ value h result, Done ρ' value h result →
      Done' ρ value h result) :
    S.Simulates ctx lo hi loops
      (do if (← cond).isTrue != test.negated then ifTrue else ifFalse) (S.exec (code ++ [stmt]))
      Done' where
  grows := Nat.le_trans tested.grows grows
  agrees below ρ h ready := by
    have low := tested.grows
    rw [exec_concat, runs]
    unfold Java.Test.holds
    simp only [bind_assoc, pure_bind]
    rw [← bind_assoc]
    refine Matches.bind (tested.agrees (by omega) ρ h ready).widen ?_
    rintro _ value ρ₁ h₁ ⟨rfl, frame⟩
    have across := frame.mono (Nat.le_refl lo) grows
    have ready₁ := ready.frame frame low (by omega)
    split
    · exact (onTrue below ρ₁ h₁ ready₁).mono (weaker ρ ρ₁ across) fun _ same => same ▸ across
    · exact (onFalse below ρ₁ h₁ ready₁).mono (weaker ρ ρ₁ across) fun _ same => same ▸ across

section Branches

variable {mid' : Nat} {loops : List EnclosingLoop} {code yes no : Code} {expr : Expr}
  {cond : Meaning Value}

/-- A branch that puts a value somewhere on either side. -/
theorem Yields.deliver_ifElse {sink : Sink} {ifTrue ifFalse : Meaning Value}
    (tested : S.Yields ctx lo mid code (expr.eval S.world) cond) (outer : S.Outer mid sink)
    (onTrue : S.Delivers ctx mid mid' yes sink ifTrue)
    (onFalse : S.Delivers ctx mid' hi no sink ifFalse) :
    S.Delivers ctx lo hi (code ++ [.ifElse ⟨expr, false⟩ yes no]) sink
      (do if (← cond).isTrue then ifTrue else ifFalse) := by
  have low := onTrue.grows
  have high := onFalse.grows
  have branch : S.Delivers ctx lo hi (code ++ [.ifElse ⟨expr, false⟩ yes no]) sink
      (do if (← cond).isTrue != false then ifTrue else ifFalse) :=
    tested.branch ⟨expr, false⟩ rfl (Nat.le_trans low high)
    (fun below ρ h ready => onTrue.inBlock outer (Nat.le_trans high below) ready h)
    (fun below ρ h ready => onFalse.inBlock (outer.mono low) below (ready.mono low) h)
    (fun ρ ρ' frame value h result reached => ⟨ρ', frame, reached⟩)
  simpa only [Bool.bne_false] using branch

/-- A branch for the effects of both sides. -/
theorem Yields.perform_ifElse {ifTrue ifFalse : Meaning α}
    (tested : S.Yields ctx lo mid code (expr.eval S.world) cond)
    (inside : ∀ loop ∈ loops.head?, loop ∈ ctx.loops.head?)
    (onTrue : S.Performs ctx mid mid' loops yes ifTrue)
    (onFalse : S.Performs ctx mid' hi loops no ifFalse) :
    S.Performs ctx lo hi loops (code ++ [.ifElse ⟨expr, false⟩ yes no])
      (do if (← cond).isTrue then ifTrue else ifFalse) := by
  have low := onTrue.grows
  have high := onFalse.grows
  have branch : S.Performs ctx lo hi loops (code ++ [.ifElse ⟨expr, false⟩ yes no])
      (do if (← cond).isTrue != false then ifTrue else ifFalse) :=
    tested.branch ⟨expr, false⟩ rfl (Nat.le_trans low high)
    (fun below ρ h ready => onTrue.inBlock inside (Nat.le_trans high below) ready h)
    (fun below ρ h ready => onFalse.inBlock inside below (ready.mono low) h)
    (fun ρ ρ' frame value h result ⟨b, ρ'', reached, same⟩ => ⟨b, ρ'', reached, same ▸ frame⟩)
  simpa only [Bool.bne_false] using branch

/-- A branch with one side. -/
theorem Yields.perform_ifThen {ifTrue : Meaning α} (negated : Bool) (other : α)
    (tested : S.Yields ctx lo mid code (expr.eval S.world) cond)
    (inside : ∀ loop ∈ loops.head?, loop ∈ ctx.loops.head?)
    (onTrue : S.Performs ctx mid hi loops yes ifTrue) :
    S.Performs ctx lo hi loops (code ++ [.ifThen ⟨expr, negated⟩ yes])
      (do if (← cond).isTrue != negated then ifTrue else return other) :=
  tested.branch ⟨expr, negated⟩ rfl onTrue.grows
    (fun below _ h ready => onTrue.inBlock inside below ready h)
    (fun _ ρ _ _ => ⟨(), ρ, rfl, rfl⟩)
    (fun _ _ frame _ _ _ ⟨b, ρ'', reached, same⟩ => ⟨b, ρ'', reached, same ▸ frame⟩)

end Branches

end Setting

end JavaBackend
