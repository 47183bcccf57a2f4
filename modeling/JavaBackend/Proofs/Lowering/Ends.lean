import JavaBackend.Lowering.Node

/-!
# Runs that end well

`Lower.Ends m ctx p code result p'` says that the computation `m`, started at the progress `p`, ends
without a fault: it lays out `code`, gives `result` and leaves the progress at `p'`. For each way to
build a computation there is one equation that says what its parts did, so that later proofs take a
run apart without opening the definitions.
-/

namespace JavaBackend

open Java (Stmt Code Piece Expr)

/-! ## Supplies of names -/

/-- How many names of each kind were handed out. -/
structure Supply where
  temps : Nat
  labels : Nat

def Scope.supply (scope : Scope) : Supply := ⟨scope.temps, scope.labels⟩

theorem Scope.supply_of_reserve? {scope scope' : Scope} {name : String} {type : JavaType}
    (reserved : scope.reserve? name type = some scope') : scope'.supply = scope.supply := by
  unfold Scope.reserve? at reserved
  split at reserved
  · cases reserved
  · cases reserved
    rfl

theorem digits_inj {m n : Nat} (same : toString m = toString n) : m = n := by
  have digits : Nat.toDigits 10 m = Nat.toDigits 10 n := by
    rw [← Nat.toList_repr, ← Nat.toList_repr]
    exact congrArg String.toList same
  rw [← Nat.ofDigitChars_ten_toDigits (n := m), ← Nat.ofDigitChars_ten_toDigits (n := n), digits]

theorem tempName_inj {m n : Nat} (same : tempName m = tempName n) : m = n :=
  digits_inj ((String.append_right_inj _).mp same)

theorem labelName_inj {m n : Nat} (same : labelName m = labelName n) : m = n :=
  digits_inj ((String.append_right_inj _).mp same)

/-! ## Runs -/

namespace Lower

variable {α β : Type} {ctx : Context} {p p' : Progress} {code : Code}

/-- The computation ends without a fault, with this code, result and progress. -/
def Ends (m : Lower α) (ctx : Context) (p : Progress) (code : Code) (result : α)
    (p' : Progress) : Prop :=
  m ctx p = ⟨.done code result, p'⟩

theorem ends_pure {a result : α} :
    Ends (pure a) ctx p code result p' ↔ code = [] ∧ a = result ∧ p = p' := by
  show (⟨.done [] a, p⟩ : Run α) = ⟨.done code result, p'⟩ ↔ _
  simp only [Run.mk.injEq, Outcome.done.injEq]
  grind

theorem ends_bind {m : Lower α} {f : α → Lower β} {result : β} :
    Ends (m >>= f) ctx p code result p' ↔
      ∃ code₁ a p₁ code₂, Ends m ctx p code₁ a p₁ ∧ Ends (f a) ctx p₁ code₂ result p' ∧
        code = code₁ ++ code₂ := by
  constructor
  · intro ends
    change Lower.bind m f ctx p = _ at ends
    unfold Lower.bind at ends
    split at ends
    · cases ends
    · next code₁ a p₁ first =>
      split at ends
      · cases ends
      · next code₂ b p₂ second =>
        cases ends
        exact ⟨code₁, a, p₁, code₂, first, second, rfl⟩
  · rintro ⟨code₁, a, p₁, code₂, first, second, rfl⟩
    show Lower.bind m f ctx p = _
    unfold Ends at first second
    simp only [Lower.bind, first, second]

theorem ends_map {m : Lower α} {f : α → β} {result : β} :
    Ends (f <$> m) ctx p code result p' ↔ ∃ a, Ends m ctx p code a p' ∧ f a = result := by
  rw [← bind_pure_comp, ends_bind]
  constructor
  · rintro ⟨code₁, a, p₁, code₂, first, last, rfl⟩
    obtain ⟨rfl, rfl, rfl⟩ := ends_pure.mp last
    exact ⟨a, by rwa [List.append_nil], rfl⟩
  · rintro ⟨a, first, rfl⟩
    exact ⟨code, a, p', [], first, ends_pure.mpr ⟨rfl, rfl, rfl⟩, (List.append_nil _).symm⟩

theorem ends_emit {stmt : Stmt} :
    Ends (emit stmt) ctx p code () p' ↔ code = [stmt] ∧ p = p' := by
  show (⟨.done [stmt] (), p⟩ : Run Unit) = ⟨.done code (), p'⟩ ↔ _
  simp only [Run.mk.injEq, Outcome.done.injEq]
  grind

theorem not_ends_fail {fault : Fault} {result : α} :
    ¬ Ends (fail fault) ctx p code result p' := by
  intro ends
  cases ends

theorem ends_context {result : Context} :
    Ends context ctx p code result p' ↔ code = [] ∧ ctx = result ∧ p = p' := by
  show (⟨.done [] ctx, p⟩ : Run Context) = ⟨.done code result, p'⟩ ↔ _
  simp only [Run.mk.injEq, Outcome.done.injEq]
  grind

theorem ends_scope {result : Scope} :
    Ends scope ctx p code result p' ↔ code = [] ∧ p.scope = result ∧ p = p' := by
  show (⟨.done [] p.scope, p⟩ : Run Scope) = ⟨.done code result, p'⟩ ↔ _
  simp only [Run.mk.injEq, Outcome.done.injEq]
  grind

theorem ends_setScope {scope : Scope} :
    Ends (setScope scope) ctx p code () p' ↔ code = [] ∧ p' = { p with scope := scope } := by
  show (⟨.done [] (), { p with scope := scope }⟩ : Run Unit) = ⟨.done code (), p'⟩ ↔ _
  simp only [Run.mk.injEq, Outcome.done.injEq]
  grind

theorem ends_useField {use : FieldUse} :
    Ends (useField use) ctx p code () p' ↔ code = [] ∧ p' = p.useField use := by
  show (⟨.done [] (), p.useField use⟩ : Run Unit) = ⟨.done code (), p'⟩ ↔ _
  simp only [Run.mk.injEq, Outcome.done.injEq]
  grind

/-- A block lays out nothing: its statements are its result. -/
theorem ends_block {opened : Thunk (List Piece)} {body : Lower Unit} {result : Code} :
    Ends (block opened body) ctx p code result p' ↔
      code = [] ∧ Ends body ctx p result () p' := by
  unfold Ends block
  cases run : body ctx p with
  | mk outcome p₁ =>
    cases outcome with
    | failed written fault => simp
    | done inner _ =>
      simp only [Run.mk.injEq, Outcome.done.injEq]
      grind

/-- What follows a block uses the statements of the block. -/
theorem ends_blockBind {opened : Thunk (List Piece)} {body : Lower Unit} {f : Code → Lower α}
    {result : α} :
    Ends (block opened body >>= f) ctx p code result p' ↔
      ∃ inner p₁, Ends body ctx p inner () p₁ ∧ Ends (f inner) ctx p₁ code result p' := by
  rw [ends_bind]
  constructor
  · rintro ⟨_, inner, p₁, _, first, rest, rfl⟩
    obtain ⟨rfl, run⟩ := ends_block.mp first
    exact ⟨inner, p₁, run, rest⟩
  · rintro ⟨inner, p₁, run, rest⟩
    exact ⟨[], inner, p₁, code, ends_block.mpr ⟨rfl, run⟩, rest, rfl⟩

theorem ends_inLoop {loop : EnclosingLoop} {body : Lower α} {result : α} :
    Ends (inLoop loop body) ctx p code result p' ↔
      Ends body { ctx with loops := loop :: ctx.loops } p code result p' :=
  Iff.rfl

/-- A name that a block declares is known in the block and forgotten at its end, unless it was
    known before. -/
theorem ends_withLocal {name : String} {type : JavaType} {body : Lower α} {result : α} :
    Ends (withLocal name type body) ctx p code result p' ↔
      match p.scope.reserve? name type with
      | none => Ends body ctx p code result p'
      | some scope => ∃ p₁, Ends body ctx { p with scope := scope } code result p₁ ∧
          p' = { p₁ with scope := p₁.scope.release name } := by
  unfold Ends withLocal
  cases p.scope.reserve? name type with
  | none => exact Iff.rfl
  | some scope =>
    constructor
    · intro ends
      injection ends with outcome progress
      exact ⟨(body ctx { p with scope := scope }).progress, by rw [← outcome], progress.symm⟩
    · rintro ⟨p₁, ends, rfl⟩
      simp only [ends]

/-- A name of a block is not taken from a supply. -/
theorem ends_withLocal_supply {name : String} {type : JavaType} {body : Lower α} {result : α}
    (ends : Ends (withLocal name type body) ctx p code result p') :
    ∃ q q', q.scope.supply = p.scope.supply ∧ p'.scope.supply = q'.scope.supply ∧
      Ends body ctx q code result q' := by
  have run := ends_withLocal.mp ends
  cases reserved : p.scope.reserve? name type with
  | none =>
    rw [reserved] at run
    exact ⟨p, p', rfl, rfl, run⟩
  | some scope =>
    rw [reserved] at run
    obtain ⟨p₁, inner, rfl⟩ := run
    exact ⟨_, p₁, Scope.supply_of_reserve? reserved, rfl, inner⟩

theorem ends_isLocal {name : String} {result : Bool} :
    Ends (isLocal name) ctx p code result p' ↔
      code = [] ∧ p.scope.isLocal name = result ∧ p = p' := by
  show (⟨.done [] (p.scope.isLocal name), p⟩ : Run Bool) = ⟨.done code result, p'⟩ ↔ _
  simp only [Run.mk.injEq, Outcome.done.injEq]
  grind

theorem ends_freshName {result : String} :
    Ends freshName ctx p code result p' ↔
      code = [] ∧ tempName (p.scope.temps + 1) = result ∧
        p' = { p with scope := p.scope.freshName.2 } := by
  show (⟨.done [] (tempName (p.scope.temps + 1)), { p with scope := p.scope.freshName.2 }⟩ :
    Run String) = ⟨.done code result, p'⟩ ↔ _
  simp only [Run.mk.injEq, Outcome.done.injEq]
  grind

theorem ends_newTemp {type : JavaType} {init : Expr} {result : String} :
    Ends (newTemp type init) ctx p code result p' ↔
      code = [.declare type (tempName (p.scope.temps + 1)) init] ∧
        tempName (p.scope.temps + 1) = result ∧
        p' = { p with scope := (p.scope.freshTemp type).2 } := by
  show (⟨.done [.declare type (tempName (p.scope.temps + 1)) init] (tempName (p.scope.temps + 1)),
    { p with scope := (p.scope.freshTemp type).2 }⟩ : Run String) = ⟨.done code result, p'⟩ ↔ _
  simp only [Run.mk.injEq, Outcome.done.injEq]
  grind

theorem ends_freshLabel {result : String} :
    Ends freshLabel ctx p code result p' ↔
      code = [] ∧ labelName (p.scope.labels + 1) = result ∧
        p' = { p with scope := p.scope.freshLabel.2 } := by
  show (⟨.done [] (labelName (p.scope.labels + 1)), { p with scope := p.scope.freshLabel.2 }⟩ :
    Run String) = ⟨.done code result, p'⟩ ↔ _
  simp only [Run.mk.injEq, Outcome.done.injEq]
  grind

theorem ends_declareLocal {type : JavaType} {name : String} {init : Expr} :
    Ends (declareLocal type name init) ctx p code () p' ↔
      match p.scope.reserve? name type with
      | none => code = [] ∧ p = p'
      | some scope => code = [.declare type name init] ∧ p' = { p with scope := scope } := by
  unfold declareLocal
  rw [ends_bind]
  constructor
  · rintro ⟨_, _, _, _, first, rest, rfl⟩
    obtain ⟨rfl, rfl, rfl⟩ := ends_scope.mp first
    cases reserved : p.scope.reserve? name type with
    | none =>
      rw [reserved] at rest
      obtain ⟨rfl, -, rfl⟩ := ends_pure.mp rest
      exact ⟨rfl, rfl⟩
    | some scope =>
      rw [reserved] at rest
      obtain ⟨_, _, _, _, set, last, rfl⟩ := ends_bind.mp rest
      obtain ⟨rfl, rfl⟩ := ends_setScope.mp set
      obtain ⟨rfl, rfl⟩ := ends_emit.mp last
      exact ⟨rfl, rfl⟩
  · intro ends
    refine ⟨[], p.scope, p, code, ends_scope.mpr ⟨rfl, rfl, rfl⟩, ?_, rfl⟩
    cases reserved : p.scope.reserve? name type with
    | none =>
      rw [reserved] at ends
      obtain ⟨rfl, rfl⟩ := ends
      exact ends_pure.mpr ⟨rfl, rfl, rfl⟩
    | some scope =>
      rw [reserved] at ends
      obtain ⟨rfl, rfl⟩ := ends
      exact ends_bind.mpr ⟨[], (), _, _, ends_setScope.mpr ⟨rfl, rfl⟩,
        ends_emit.mpr ⟨rfl, rfl⟩, rfl⟩

end Lower

end JavaBackend
