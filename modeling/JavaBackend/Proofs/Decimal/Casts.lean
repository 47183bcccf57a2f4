import JavaBackend.Proofs.Decimal.Midpoints
import JavaBackend.Proofs.Grammar.Trees

/-!
# Literals of 32-bit numbers

A literal for a 32-bit number is a decimal behind a cast: Java rounds the decimal to 64 bits first, and
then the 64-bit number to 32 bits (`Ast.Denotes`). The decimal is sure to round to the number only if
it is rounded once.

Both ends of the interval of a 32-bit number are 64-bit numbers, so the first rounding stays in the
interval if the ends belong to it. If they do not, it leaves the interval only by reaching an end, and
for that the decimal has to be very near to a midpoint. This happens for a single number, with either
sign, and its literal is that of the next number.
-/

namespace JavaBackend.Decimal

open Java (shortestValue)

variable {k wide : Nat} {r : ℚ} {x : Binary}

theorem isSingle_magnitude (finite : k < Format.single.infinity) :
    (Format.single.magnitude k).IsSingle := by
  have binade : Format.single.binade = 2 ^ 23 := rfl
  have least : Format.single.least = -149 := rfl
  have infinity : Format.single.infinity = 255 * 2 ^ 23 := rfl
  rw [Format.magnitude, binade, least]
  constructor
  · dsimp only
    split <;> omega
  · dsimp only
    omega
  · dsimp only
    omega

/-- Small multiples of the powers of two around 32-bit numbers are 64-bit numbers. -/
theorem exists_double {n : Nat} {e : Int} (digits : n ≤ 2 ^ 53) (first : -1074 ≤ e) (last : e ≤ 104) :
    ∃ j < Format.double.infinity, Format.double.value j = n * 2 ^ e := by
  have binade : Format.double.binade = 2 ^ 52 := rfl
  have least : Format.double.least = -1074 := rfl
  have infinity : Format.double.infinity = 2047 * 2 ^ 52 := rfl
  obtain ⟨j, le, eq⟩ := Format.double.exists_value (n := n) (by omega) (e + 1074).toNat
  refine ⟨j, ?_, ?_⟩
  · rw [infinity]
    refine Nat.lt_of_le_of_lt le ?_
    rw [binade]
    exact Nat.mul_lt_mul_of_pos_right (by omega) (by positivity)
  · rw [eq, least]
    congr 2
    omega

/-- What is rounded to a midpoint is very near to it. -/
theorem near_of_nearest {n : Nat} {q : Int} (nearest : Format.double.Nearest r wide)
    (landed : Format.double.value wide = n * 2 ^ (q - 1)) (pos : 0 < n) (small : n < 2 ^ 25)
    (first : -149 ≤ q) (last : q ≤ 104) : 2 * |r - n * 2 ^ (q - 1)| ≤ 2 ^ (q - 29) := by
  have fine : (2 : ℚ) ^ (q - 1) = 2 ^ 28 * 2 ^ (q - 29) := by
    rw [← zpow_natCast, ← zpow_add₀ two_ne_zero]
    congr 1
    push_cast
    ring
  obtain ⟨j, above, aboveEq⟩ := exists_double (n := n * 2 ^ 28 + 1) (e := q - 29) (by omega) (by omega)
    (by omega)
  obtain ⟨i, below, belowEq⟩ := exists_double (n := n * 2 ^ 28 - 1) (e := q - 29) (by omega) (by omega)
    (by omega)
  rw [Nat.cast_sub (by omega)] at belowEq
  rw [← landed]
  refine nearest.abs_sub_le (by positivity) above.le ?_ below.le ?_
  · rw [aboveEq, landed, fine]
    push_cast
    ring
  · rw [belowEq, landed, fine]
    push_cast
    ring

/-- Rounding to 64 bits does not leave the interval of a 32-bit number. -/
theorem bounds_of_nearest (single : x.IsSingle) (nearest : Format.double.Nearest r wide)
    (covers : x.Covers r) : wide < Format.double.infinity ∧
      x.lower * 2 ^ (x.q - 2) ≤ Format.double.value wide ∧
        Format.double.value wide ≤ x.upper * 2 ^ (x.q - 2) := by
  obtain ⟨digits, first, last⟩ := single
  obtain ⟨low, high⟩ := covers.bounds
  have lower : x.lower ≤ 2 ^ 53 := by unfold Binary.lower Binary.quarters; omega
  have upper : x.upper ≤ 2 ^ 53 := by unfold Binary.upper Binary.quarters; omega
  obtain ⟨i, below, belowEq⟩ := exists_double (e := x.q - 2) lower (by omega) (by omega)
  obtain ⟨j, above, aboveEq⟩ := exists_double (e := x.q - 2) upper (by omega) (by omega)
  have reached := nearest.le_value below.le (belowEq.trans_le low)
  have bounded := nearest.value_le above.le (high.trans_eq aboveEq.symm)
  have ordered := Format.double.value_strictMono.le_iff_le.mp bounded
  exact ⟨Nat.lt_of_le_of_lt ordered above, belowEq ▸ reached, aboveEq ▸ bounded⟩

/-- An end of the interval of an odd number is an odd number of halves. -/
theorem ends_halves (odd : x.m % 2 = 1) (plain : x.narrowBelow = false) :
    (x.lower * 2 ^ (x.q - 2) : ℚ) = (2 * x.m - 1 : Nat) * 2 ^ (x.q - 1) ∧
      (x.upper * 2 ^ (x.q - 2) : ℚ) = (2 * x.m + 1 : Nat) * 2 ^ (x.q - 1) := by
  have half : (2 : ℚ) ^ (x.q - 1) = 2 * 2 ^ (x.q - 2) := by
    rw [← zpow_one_add₀ two_ne_zero]
    congr 1
    ring
  have lower : x.lower = 2 * (2 * x.m - 1) := by
    rw [Binary.lower, plain, Binary.quarters, if_neg Bool.false_ne_true]
    omega
  have upper : x.upper = 2 * (2 * x.m + 1) := by
    rw [Binary.upper, Binary.quarters]
    omega
  rw [half, lower, upper]
  constructor
  · rw [Nat.cast_mul]
    ring
  · rw [Nat.cast_mul]
    ring

/-- The decimal of an odd number does not reach a midpoint, unless the number is the exceptional
    one. -/
theorem value_ne_midpoint (single : x.IsSingle) (odd : x.m % 2 = 1) (plain : x.narrowBelow = false)
    (nearest : Format.double.Nearest (shortestValue x) wide) (usual : x ≠ Binary.exceptional) {n : Nat}
    (beside : n = 2 * x.m + 1 ∨ n + 1 = 2 * x.m) (apart : shortestValue x ≠ n * 2 ^ (x.q - 1)) :
    Format.double.value wide ≠ n * 2 ^ (x.q - 1) := by
  intro landed
  have digits := single.digits
  have near := near_of_nearest nearest landed (by omega) (by omega) single.first single.last
  exact usual (single.eq_of_near_midpoint odd plain beside near apart)

/-- The first rounding of a shortest decimal keeps what the second one needs, but for the exceptional
    number. -/
theorem covers_of_nearest (single : x.IsSingle) (plain : x.m % 2 = 1 → x.narrowBelow = false)
    (nearest : Format.double.Nearest (shortestValue x) wide) (usual : x ≠ Binary.exceptional) :
    x.Covers (Format.double.value wide) := by
  have covers := x.covers_shortestValue
  obtain ⟨-, low, high⟩ := bounds_of_nearest single nearest covers
  unfold Binary.Covers at covers ⊢
  by_cases even : x.m % 2 = 0
  · rw [if_pos even]
    exact ⟨low, high⟩
  · have odd : x.m % 2 = 1 := by omega
    have missed {n : Nat} := value_ne_midpoint (n := n) single odd (plain odd) nearest usual
    obtain ⟨lower, upper⟩ := ends_halves odd (plain odd)
    rw [if_neg even, lower, upper] at covers ⊢
    rw [lower] at low
    rw [upper] at high
    refine ⟨lt_of_le_of_ne low (missed (.inr ?_) covers.1.ne').symm,
      lt_of_le_of_ne high (missed (.inl rfl) covers.2.ne)⟩
    omega

/-- The first of two roundings of a shortest decimal is to a finite number, and to zero only from
    zero. -/
theorem lt_infinity_of_nearest (single : x.IsSingle)
    (nearest : Format.double.Nearest (shortestValue x) wide) :
    wide < Format.double.infinity ∧ (wide = 0 → shortestValue x = 0) := by
  obtain ⟨finite, low, -⟩ := bounds_of_nearest single nearest x.covers_shortestValue
  refine ⟨finite, ?_⟩
  rintro rfl
  rw [Format.value_zero] at low
  have zero : x.m = 0 := by
    by_contra some
    have : 0 < x.lower := by unfold Binary.lower Binary.quarters; split <;> omega
    have : (0 : ℚ) < x.lower * 2 ^ (x.q - 2) := by positivity
    linarith
  rw [shortestValue, if_pos zero]

/-! ## The exceptional number -/

theorem magnitude_exceptional : Format.single.magnitude 0x15ae43fd = Binary.exceptional := by
  decide +kernel

/-- The shortest decimal of the exceptional number is rounded to the midpoint above it, -/
theorem nearest_exceptional :
    Format.double.Nearest (shortestValue Binary.exceptional) 0x3ab5c87fb0000000 := by
  have shortest : Binary.exceptional.shortest = ⟨7038531, -32⟩ := by decide +kernel
  have admitted : (Format.double.magnitude 0x3ab5c87fb0000000).admits (-32) 7038531 = true := by
    decide +kernel
  rw [shortestValue, shortest]
  exact Format.nearest_of_covers (by decide) (by decide +kernel) (Binary.admits_iff.mp admitted)

/-- and the midpoint to the even number above. -/
theorem nearest_midpoint :
    Format.single.Nearest (Format.double.value 0x3ab5c87fb0000000) 0x15ae43fe := by
  have wide : Format.double.magnitude 0x3ab5c87fb0000000 = ⟨22841339 * 2 ^ 28, -136, false⟩ := by
    decide +kernel
  have narrow : Format.single.magnitude 0x15ae43fe = ⟨11420670, -107, false⟩ := by decide +kernel
  refine Format.nearest_of_covers (by decide) (by decide +kernel) ?_
  rw [Format.value, wide, narrow, Binary.Covers, if_pos (by decide)]
  norm_num [Binary.value, Binary.lower, Binary.upper, Binary.quarters]

/-- A shortest decimal that is rounded twice is back at its number, or next to the exceptional one. -/
theorem nearest_twice (finite : k < Format.single.infinity)
    (nearest : Format.double.Nearest (shortestValue (Format.single.magnitude k)) wide) :
    Format.single.Nearest (Format.double.value wide) (if k = 0x15ae43fd then k + 1 else k) := by
  split
  · next exceptional =>
    rw [exceptional, magnitude_exceptional] at nearest
    rw [exceptional, nearest.unique nearest_exceptional]
    exact nearest_midpoint
  · next usual =>
    have parity := Format.single.magnitude_parity (by decide) k
    refine Format.nearest_of_covers (by decide) finite.le
      (covers_of_nearest (isSingle_magnitude finite) (fun odd => ?_) nearest fun same => usual ?_)
    · exact Format.single.narrowBelow_of_odd (by decide) (parity.symm.trans odd)
    · apply Format.single.value_strictMono.injective
      rw [Format.value, Format.value, same, magnitude_exceptional]

end JavaBackend.Decimal

namespace JavaBackend.Java

open Decimal

variable {alphabet : Alphabet} {operand : Ast} {negative : Bool} {k wide : Nat} {r : ℚ}

/-! ## What a literal stands for -/

/-- The value of an expression that is made of floating-point literals, as a pattern of a format. -/
inductive Ast.Denotes : Ast → Format → Nat → Prop where
  /-- A decimal is rounded to 64 bits. It is refused if that makes it infinite, or zero though it is
      not. -/
  | double {r : ℚ} {k : Nat} (nearest : Format.double.Nearest r k)
      (finite : k < Format.double.infinity) (nonzero : k = 0 → r = 0) : Denotes (.double r) .double k
  /-- A minus turns the sign. -/
  | neg {operand : Ast} {f : Format} {negative : Bool} {k : Nat} (range : k < f.signBit)
      (denotes : Denotes operand f (f.signed negative k)) :
    Denotes (.unary .neg operand) f (f.signed (!negative) k)
  /-- A cast rounds a finite number to 32 bits. -/
  | cast {operand : Ast} {bits k : Nat} {negative : Bool} {x : Binary}
      (denotes : Denotes operand .double bits) (finite : decode .double bits = .finite negative x)
      (nearest : Format.single.Nearest x.value k) :
    Denotes (.cast (.primitive .float) operand) .single (Format.single.signed negative k)

theorem denotes_double_iff (nearest : Format.double.Nearest r wide)
    (finite : wide < Format.double.infinity) (nonzero : wide = 0 → r = 0) (result : Nat) :
    (Ast.double r).Denotes .double result ↔ result = wide := by
  constructor
  · intro denotes
    cases denotes with
    | double other => exact other.unique nearest
  · rintro rfl
    exact .double nearest finite nonzero

/-- A decimal with a sign has the sign. -/
theorem denotes_signed_iff (negative : Bool) (nearest : Format.double.Nearest r wide)
    (finite : wide < Format.double.infinity) (nonzero : wide = 0 → r = 0) (result : Nat) :
    (if negative then Ast.unary .neg (.double r) else .double r).Denotes .double result ↔
      result = Format.double.signed negative wide := by
  have plain := denotes_double_iff nearest finite nonzero
  have range := finite.trans Format.double.infinity_lt_signBit
  cases negative with
  | false => exact plain result
  | true =>
    constructor
    · intro denotes
      cases denotes with
      | neg small denotes =>
        have same : _ = Format.double.signed false wide := (plain _).mp denotes
        obtain ⟨rfl, rfl⟩ := Format.signed_inj small range same
        rfl
    · rintro rfl
      have denotes : (Ast.double r).Denotes .double (Format.double.signed false wide) :=
        (plain wide).mpr rfl
      exact .neg range denotes

/-- A cast rounds the value of its operand, if that is finite. -/
theorem denotes_cast_iff (finite : wide < Format.double.infinity)
    (value : ∀ bits, operand.Denotes .double bits ↔ bits = Format.double.signed negative wide)
    (nearest : Format.single.Nearest (Format.double.value wide) k) (result : Nat) :
    (Ast.cast (.primitive .float) operand).Denotes .single result ↔
      result = Format.single.signed negative k := by
  have decoded := Format.decode_signed negative finite
  constructor
  · intro denotes
    cases denotes with
    | cast denotes read rounded =>
      rw [(value _).mp denotes, decoded] at read
      cases read
      rw [rounded.unique nearest]
  · rintro rfl
    exact .cast ((value _).mpr rfl) decoded nearest

/-- The exceptional number and its negative have the same magnitude. -/
theorem isExceptional_iff {bits : UInt32} (small : k < Format.single.infinity)
    (pattern : bits.toNat = Format.single.signed negative k) :
    bits = 0x15ae43fd ∨ bits = 0x95ae43fd ↔ k = 0x15ae43fd := by
  have infinity : Format.single.infinity = 255 * 2 ^ 23 := rfl
  have signBit : Format.single.signBit = 2 ^ 31 := rfl
  rw [← UInt32.toNat_inj, ← UInt32.toNat_inj, pattern, Format.signed, signBit]
  simp only [UInt32.reduceToNat]
  split <;> omega

/-- The literal for a finite 32-bit number is read as an expression with that number as its value,
    though it is rounded twice: all but one number and its negative, for which it is the next
    number. -/
theorem float_literal_denotes (alphabet : Alphabet) {bits : UInt32} {negative : Bool} {x : Binary}
    (finite : decode .single bits.toNat = .finite negative x) :
    ∃ ast, ParsesAs alphabet (Literal.float bits).source ast ∧ ∀ result,
      ast.Denotes .single result ↔
        result = if bits = 0x15ae43fd ∨ bits = 0x95ae43fd then bits.toNat + 1 else bits.toNat := by
  have spells : Spells alphabet endsOperand .unary (Literal.float bits).source _ :=
    (spells_literal fun _ type => by cases type).1
  refine ⟨_, spells.toExpression.parsesAs, fun result => ?_⟩
  obtain ⟨k, small, rfl, pattern⟩ := Format.exists_magnitude bits.toNat_lt finite
  obtain ⟨wide, nearest⟩ := Format.double.exists_nearest (Binary.shortestValue_nonneg _)
  obtain ⟨bounded, nonzero⟩ := lt_infinity_of_nearest (isSingle_magnitude small) nearest
  rw [literalAst, floatingAst, finite]
  dsimp only
  rw [denotes_cast_iff bounded (denotes_signed_iff negative nearest bounded nonzero)
    (nearest_twice small nearest)]
  simp only [isExceptional_iff small pattern, pattern]
  split
  · rw [Format.signed_succ]
  · rfl

/-- The shortest decimal of the exceptional number rounds to it, but not if it is rounded twice. -/
theorem exceptional_literal_denotes_next :
    let alphabet : Alphabet := ⟨fun _ => false, fun _ => false⟩
    decode .single (0x15ae43fd : UInt32).toNat = .finite false Binary.exceptional ∧
      (Literal.float 0x15ae43fd).source = "(float)7.038531e-26" ∧
      ∃ ast, ParsesAs alphabet (Literal.float 0x15ae43fd).source ast ∧
        ∀ result, ast.Denotes .single result ↔ result = 0x15ae43fe := by
  intro alphabet
  have finite : decode .single (0x15ae43fd : UInt32).toNat = .finite false Binary.exceptional := by
    decide
  exact ⟨finite, by decide +kernel, float_literal_denotes alphabet finite⟩

end JavaBackend.Java
