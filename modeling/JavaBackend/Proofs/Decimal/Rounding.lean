import JavaBackend.Decimal.Binary
import Mathlib.Algebra.Order.Field.Power
import Mathlib.Tactic.Linarith
import Mathlib.Tactic.Positivity
import Mathlib.Tactic.Ring

/-!
# Rounding to a binary format

The patterns of a format without its sign bit are numbered in the order of what they stand for, and
the pattern of infinity is taken for the number that would come next if the exponents went on.
`Format.Nearest` is rounding to the nearest of these numbers, and to the even pattern of two that are
equally near. There is always one such pattern and no other (`exists_nearest`, `Nearest.unique`).

Two facts carry the proofs about rounding twice. A number between two numbers of the format is rounded
to one that is still between them (`Nearest.le_value`, `Nearest.value_le`), and a small multiple of a
power of two is a number of the format (`exists_value`).
-/

namespace JavaBackend.Decimal

/-- The number itself. -/
def Binary.value (x : Binary) : ℚ := x.m * 2 ^ x.q

namespace Format

variable {f : Format} {k : Nat}

/-! ## Numbers in order -/

/-- How many patterns share an exponent field. -/
def binade (f : Format) : Nat := 2 ^ f.fractionBits

/-- The exponent of the smallest numbers. -/
def least (f : Format) : Int := 1 - (f.bias : Int) - f.fractionBits

/-- The pattern of infinity, which is behind those of all finite numbers. -/
def infinity (f : Format) : Nat := f.maxExponent * f.binade

/-- What the pattern `k` without a sign stands for. -/
def magnitude (f : Format) (k : Nat) : Binary :=
  ⟨if k / f.binade = 0 then k % f.binade else f.binade + k % f.binade,
    f.least + (k / f.binade - 1 : Nat), decide (k % f.binade = 0 ∧ 1 < k / f.binade)⟩

def value (f : Format) (k : Nat) : ℚ := (f.magnitude k).value

theorem binade_pos (f : Format) : 0 < f.binade := Nat.two_pow_pos _

/-- A pattern given by its two fields. -/
theorem magnitude_fields (exponent : Nat) {fraction : Nat} (lt : fraction < f.binade) :
    f.magnitude (exponent * f.binade + fraction) =
      ⟨if exponent = 0 then fraction else f.binade + fraction, f.least + (exponent - 1 : Nat),
        decide (fraction = 0 ∧ 1 < exponent)⟩ := by
  have quotient : (exponent * f.binade + fraction) / f.binade = exponent := by
    rw [Nat.mul_comm, Nat.mul_add_div f.binade_pos, Nat.div_eq_of_lt lt, Nat.add_zero]
  have remainder : (exponent * f.binade + fraction) % f.binade = fraction := by
    rw [Nat.mul_comm, Nat.mul_add_mod, Nat.mod_eq_of_lt lt]
  rw [magnitude, quotient, remainder]

theorem exists_fields (f : Format) (k : Nat) :
    ∃ exponent fraction, fraction < f.binade ∧ k = exponent * f.binade + fraction :=
  ⟨k / f.binade, k % f.binade, Nat.mod_lt k f.binade_pos, (Nat.div_add_mod' k f.binade).symm⟩

/-- The last bit of a pattern is that of its significand. -/
theorem magnitude_parity (f : Format) (wide : 0 < f.fractionBits) (k : Nat) :
    (f.magnitude k).m % 2 = k % 2 := by
  obtain ⟨exponent, fraction, lt, rfl⟩ := f.exists_fields k
  have even : 2 ∣ f.binade := dvd_pow_self 2 (by omega)
  have evens : 2 ∣ exponent * f.binade := even.mul_left _
  rw [magnitude_fields exponent lt]
  dsimp only
  split <;> omega

/-- Only the smallest number with its exponent has denser numbers below, and it is even. -/
theorem narrowBelow_of_odd (f : Format) (wide : 0 < f.fractionBits) {k : Nat} (odd : k % 2 = 1) :
    (f.magnitude k).narrowBelow = false := by
  obtain ⟨exponent, fraction, lt, rfl⟩ := f.exists_fields k
  have even : 2 ∣ f.binade := dvd_pow_self 2 (by omega)
  have evens : 2 ∣ exponent * f.binade := even.mul_left _
  rw [magnitude_fields exponent lt]
  have : fraction ≠ 0 := by omega
  simp [this]

theorem magnitude_pos (f : Format) {k : Nat} (pos : 0 < k) : 0 < (f.magnitude k).m := by
  obtain ⟨exponent, fraction, lt, rfl⟩ := f.exists_fields k
  have := f.binade_pos
  rw [magnitude_fields exponent lt]
  dsimp only
  split
  · next zero => simpa [zero] using pos
  · omega

/-- From the smallest number with an exponent up to the smallest with the next one, the patterns
    count units. -/
theorem value_binade (t : Nat) {n : Nat} (large : f.binade ≤ n) (small : n ≤ 2 * f.binade) :
    f.value (t * f.binade + n) = n * 2 ^ (f.least + t) := by
  by_cases last : n = 2 * f.binade
  · have fields : t * f.binade + n = (t + 2) * f.binade + 0 := by rw [last]; ring
    have next : f.least + (t + 2 - 1 : Nat) = f.least + t + 1 := by omega
    rw [fields, value, magnitude_fields _ f.binade_pos, if_neg (by omega), Binary.value, next,
      zpow_add_one₀ two_ne_zero, last]
    push_cast
    ring
  · have fields : t * f.binade + n = (t + 1) * f.binade + (n - f.binade) := by
      rw [Nat.add_mul, Nat.one_mul]
      omega
    rw [fields, value, magnitude_fields _ (by omega), if_neg (by omega), Binary.value,
      Nat.add_sub_cancel' large, Nat.add_sub_cancel]

/-- Without an exponent, the patterns count the smallest units. -/
theorem value_subnormal {n : Nat} (small : n ≤ 2 * f.binade) : f.value n = n * 2 ^ f.least := by
  by_cases large : f.binade ≤ n
  · simpa using value_binade 0 large small
  · have fields := magnitude_fields (f := f) 0 (Nat.lt_of_not_le large)
    rw [Nat.zero_mul, Nat.zero_add] at fields
    simp [value, fields, Binary.value]

theorem value_zero (f : Format) : f.value 0 = 0 := by
  have := value_subnormal (f := f) (Nat.zero_le _)
  simpa using this

/-- The next number lies one unit above. -/
theorem value_succ (f : Format) (k : Nat) :
    f.value (k + 1) = f.value k + 2 ^ (f.magnitude k).q := by
  obtain ⟨exponent, fraction, lt, rfl⟩ := f.exists_fields k
  rw [magnitude_fields exponent lt]
  cases exponent with
  | zero =>
    rw [Nat.zero_mul, Nat.zero_add, value_subnormal (by omega), value_subnormal (by omega)]
    push_cast
    simp
    ring
  | succ t =>
    have above (n : Nat) : (t + 1) * f.binade + n = t * f.binade + (f.binade + n) := by ring
    rw [Nat.add_assoc, above, above, value_binade t (by omega) (by omega),
      value_binade t (by omega) (by omega), Nat.add_sub_cancel]
    push_cast
    ring

theorem value_strictMono (f : Format) : StrictMono f.value := by
  refine strictMono_nat_of_lt_succ fun k => ?_
  rw [value_succ]
  have : (0 : ℚ) < 2 ^ (f.magnitude k).q := by positivity
  linarith

/-- The number below lies one unit below, or half a unit if the numbers there are denser. -/
theorem value_pred (f : Format) (k : Nat) :
    f.value k + 2 ^ (f.magnitude (k + 1)).q / (if (f.magnitude (k + 1)).narrowBelow then 2 else 1) =
      f.value (k + 1) := by
  rw [value_succ]
  congr 1
  obtain ⟨exponent, fraction, lt, rfl⟩ := f.exists_fields k
  by_cases last : fraction + 1 < f.binade
  · rw [Nat.add_assoc, magnitude_fields _ lt, magnitude_fields _ last]
    simp
  · have next : exponent * f.binade + fraction + 1 = (exponent + 1) * f.binade + 0 := by
      rw [Nat.add_mul]
      omega
    rw [next, magnitude_fields _ lt, magnitude_fields _ f.binade_pos]
    cases exponent with
    | zero => simp
    | succ t =>
      have up : f.least + (t + 1 + 1 - 1 : Nat) = f.least + (t + 1 - 1 : Nat) + 1 := by omega
      simp only [up, zpow_add_one₀ (two_ne_zero (α := ℚ))]
      simp

/-- A multiple of a power of two is a number of the format, if it has not too many digits. -/
theorem exists_value {n : Nat} (digits : n ≤ 2 * f.binade) (t : Nat) :
    ∃ k ≤ (t + 2) * f.binade, f.value k = n * 2 ^ (f.least + t) := by
  induction t generalizing n with
  | zero =>
    refine ⟨n, by omega, ?_⟩
    rw [value_subnormal digits]
    simp
  | succ t ih =>
    by_cases large : f.binade ≤ n
    · refine ⟨(t + 1) * f.binade + n, ?_, value_binade (t + 1) large digits⟩
      rw [Nat.add_mul (t + 1)]
      omega
    · obtain ⟨k, le, eq⟩ := ih (n := 2 * n) (by omega)
      refine ⟨k, le.trans (Nat.mul_le_mul_right _ (by omega)), eq.trans ?_⟩
      have next : f.least + (t + 1 : Nat) = f.least + t + 1 := by omega
      rw [next, zpow_add_one₀ two_ne_zero]
      push_cast
      ring

/-! ## Patterns with a sign -/

/-- The bit of the sign. -/
def signBit (f : Format) : Nat := 2 ^ (f.fractionBits + f.exponentBits)

/-- A pattern with its sign. -/
def signed (f : Format) (negative : Bool) (k : Nat) : Nat := if negative then f.signBit + k else k

theorem signed_succ (negative : Bool) (k : Nat) :
    f.signed negative (k + 1) = f.signed negative k + 1 := by
  cases negative <;> rfl

theorem infinity_lt_signBit (f : Format) : f.infinity < f.signBit := by
  have pos := Nat.two_pow_pos f.exponentBits
  calc f.infinity < (f.maxExponent + 1) * f.binade := Nat.mul_lt_mul_of_pos_right (by omega) f.binade_pos
    _ = f.signBit := by
      rw [maxExponent, Nat.pow_eq, Nat.sub_add_cancel pos, signBit, binade, Nat.pow_add, Nat.mul_comm]

/-- The fields of a pattern are those of its magnitude. -/
theorem fields_mod_signBit (f : Format) (bits : Nat) :
    bits % f.signBit % f.binade = bits % f.binade ∧
      bits % f.signBit / f.binade = bits / f.binade % 2 ^ f.exponentBits := by
  have split : f.signBit = f.binade * 2 ^ f.exponentBits := Nat.pow_add ..
  rw [split]
  exact ⟨Nat.mod_mul_right_mod .., Nat.mod_mul_right_div_self ..⟩

theorem lt_infinity_iff {k : Nat} : k < f.infinity ↔ k / f.binade < f.maxExponent :=
  (Nat.div_lt_iff_lt_mul f.binade_pos).symm

/-- The patterns below infinity are finite. -/
theorem decode_of_lt {bits : Nat} (finite : bits % f.signBit < f.infinity) :
    decode f bits = .finite (bits / f.signBit % 2 == 1) (f.magnitude (bits % f.signBit)) := by
  obtain ⟨fraction, exponent⟩ := f.fields_mod_signBit bits
  rw [lt_infinity_iff, exponent] at finite
  rw [magnitude, fraction, exponent]
  simp only [decode, Nat.pow_eq, ← binade.eq_1, ← signBit.eq_1, ← least.eq_1]
  generalize bits / f.binade % 2 ^ f.exponentBits = exponent at finite
  rw [if_neg (Nat.ne_of_lt finite)]
  split
  · next subnormal => simp [subnormal]
  · next normal =>
    congr 2
    · omega
    · rw [Bool.eq_iff_iff]
      simp only [Bool.and_eq_true, beq_iff_eq, bne_iff_ne, decide_eq_true_eq]
      omega

theorem signed_inj {negative other : Bool} {j : Nat} (lt : k < f.signBit) (lt' : j < f.signBit)
    (same : f.signed negative k = f.signed other j) : negative = other ∧ k = j := by
  cases negative <;> cases other <;> simp [signed] at same ⊢ <;> omega

theorem decode_signed (negative : Bool) (finite : k < f.infinity) :
    decode f (f.signed negative k) = .finite negative (f.magnitude k) := by
  have small := finite.trans f.infinity_lt_signBit
  have pos : 0 < f.signBit := Nat.two_pow_pos _
  have magnitude : f.signed negative k % f.signBit = k := by
    cases negative with
    | false => exact Nat.mod_eq_of_lt small
    | true => exact (Nat.add_mod_left ..).trans (Nat.mod_eq_of_lt small)
  have sign : (f.signed negative k / f.signBit % 2 == 1) = negative := by
    cases negative with
    | false => simp [signed, Nat.div_eq_of_lt small]
    | true => simp [signed, Nat.add_div_left _ pos, Nat.div_eq_of_lt small]
  rw [decode_of_lt (by rwa [magnitude]), magnitude, sign]

/-- A finite pattern is that of a magnitude with a sign. -/
theorem exists_magnitude {bits : Nat} {negative : Bool} {x : Binary} (range : bits < 2 * f.signBit)
    (finite : decode f bits = .finite negative x) :
    ∃ k < f.infinity, x = f.magnitude k ∧ bits = f.signed negative k := by
  obtain ⟨fraction, exponent⟩ := f.fields_mod_signBit bits
  by_cases lt : bits % f.signBit < f.infinity
  · rw [decode_of_lt lt] at finite
    injection finite with negative magnitude
    subst negative
    refine ⟨bits % f.signBit, lt, magnitude.symm, ?_⟩
    have bit : bits / f.signBit < 2 := Nat.div_lt_of_lt_mul (by rwa [Nat.mul_comm])
    have split := Nat.div_add_mod' bits f.signBit
    generalize bits / f.signBit = sign at *
    rcases (by omega : sign = 0 ∨ sign = 1) with rfl | rfl <;> simpa [signed] using split.symm
  · have top : bits / f.binade % 2 ^ f.exponentBits = f.maxExponent := by
      have := Nat.mod_lt (bits / f.binade) (Nat.two_pow_pos f.exponentBits)
      rw [lt_infinity_iff, exponent, maxExponent, Nat.pow_eq] at lt
      rw [maxExponent, Nat.pow_eq]
      omega
    simp only [decode, Nat.pow_eq, ← binade.eq_1] at finite
    rw [if_pos top] at finite
    split at finite <;> cases finite

/-! ## Rounding -/

/-- The number `r` rounded to the nearest of the format, and to the even pattern of two. -/
def Nearest (f : Format) (r : ℚ) (k : Nat) : Prop :=
  k ≤ f.infinity ∧ ∀ j ≤ f.infinity, |r - f.value k| ≤ |r - f.value j| ∧
    (|r - f.value k| = |r - f.value j| → j = k ∨ k % 2 = 0)

variable {r : ℚ} {j : Nat}

/-- Rounding does not go below a number of the format. -/
theorem Nearest.le_value (nearest : f.Nearest r k) (range : j ≤ f.infinity) (le : f.value j ≤ r) :
    f.value j ≤ f.value k := by
  by_contra lt
  have := (nearest.2 j range).1
  rw [abs_of_nonneg (by linarith), abs_of_nonneg (by linarith)] at this
  linarith

/-- Rounding does not go above a number of the format. -/
theorem Nearest.value_le (nearest : f.Nearest r k) (range : j ≤ f.infinity) (le : r ≤ f.value j) :
    f.value k ≤ f.value j := by
  by_contra lt
  have := (nearest.2 j range).1
  rw [abs_of_nonpos (by linarith), abs_of_nonpos (by linarith)] at this
  linarith

/-- Where two numbers of the format are one unit above and below, rounding is by half a unit at
    most. -/
theorem Nearest.abs_sub_le (nearest : f.Nearest r k) {unit : ℚ} (pos : 0 < unit)
    (above : j ≤ f.infinity) (aboveEq : f.value j = f.value k + unit) {i : Nat}
    (below : i ≤ f.infinity) (belowEq : f.value i = f.value k - unit) :
    2 * |r - f.value k| ≤ unit := by
  have up := (nearest.2 j above).1
  have down := (nearest.2 i below).1
  rw [aboveEq] at up
  rw [belowEq] at down
  rcases le_total 0 (r - f.value k) with sign | sign
  · rw [abs_of_nonneg sign] at up ⊢
    rcases abs_cases (r - (f.value k + unit)) with ⟨eq, _⟩ | ⟨eq, _⟩ <;> linarith
  · rw [abs_of_nonpos sign] at down ⊢
    rcases abs_cases (r - (f.value k - unit)) with ⟨eq, _⟩ | ⟨eq, _⟩ <;> linarith

/-- Two patterns that are equally near are both even, so that the one between them is nearer. -/
theorem Nearest.not_lt (nearest : f.Nearest r k) (other : f.Nearest r j) : ¬ k < j := by
  intro lt
  have same := le_antisymm (nearest.2 j other.1).1 (other.2 k nearest.1).1
  have evenLow := ((nearest.2 j other.1).2 same).resolve_left (by omega)
  have evenHigh := ((other.2 k nearest.1).2 same.symm).resolve_left (by omega)
  have low := f.value_strictMono (Nat.lt_add_one k)
  have high := f.value_strictMono (show k + 1 < j by omega)
  have between := (nearest.2 (k + 1) (by have := other.1; omega)).1
  rcases abs_cases (r - f.value k) with ⟨eq, _⟩ | ⟨eq, _⟩ <;>
    rcases abs_cases (r - f.value j) with ⟨eq', _⟩ | ⟨eq', _⟩ <;>
      rcases abs_cases (r - f.value (k + 1)) with ⟨eq'', _⟩ | ⟨eq'', _⟩ <;> linarith

theorem Nearest.unique (nearest : f.Nearest r k) (other : f.Nearest r j) : k = j := by
  have := nearest.not_lt other
  have := other.not_lt nearest
  omega

/-- What rounds to a pattern lies between the midpoints to its neighbours, or on one if the pattern
    is even. -/
theorem nearest_of_midpoints (range : k ≤ f.infinity)
    (below : ∀ i, i + 1 = k → f.value i + f.value k ≤ 2 * r ∧
      (f.value i + f.value k = 2 * r → k % 2 = 0))
    (above : k < f.infinity → 2 * r ≤ f.value k + f.value (k + 1) ∧
      (2 * r = f.value k + f.value (k + 1) → k % 2 = 0)) : f.Nearest r k := by
  refine ⟨range, fun j limit => ?_⟩
  rcases lt_trichotomy j k with lt | rfl | gt
  · obtain ⟨i, rfl⟩ : ∃ i, k = i + 1 := ⟨k - 1, by omega⟩
    have le := f.value_strictMono.monotone (show j ≤ i by omega)
    have step := f.value_strictMono (Nat.lt_add_one i)
    obtain ⟨low, tie⟩ := below i rfl
    rw [abs_of_nonneg (show 0 ≤ r - f.value j by linarith)]
    rcases abs_cases (r - f.value (i + 1)) with ⟨eq, _⟩ | ⟨eq, _⟩
    · exact ⟨by linarith, fun same => absurd same (by linarith)⟩
    · exact ⟨by linarith, fun same => .inr (tie (by linarith))⟩
  · exact ⟨le_rfl, fun _ => .inl rfl⟩
  · have le := f.value_strictMono.monotone (show k + 1 ≤ j from gt)
    have step := f.value_strictMono (Nat.lt_add_one k)
    obtain ⟨high, tie⟩ := above (by omega)
    rw [abs_of_nonpos (show r - f.value j ≤ 0 by linarith)]
    rcases abs_cases (r - f.value k) with ⟨eq, _⟩ | ⟨eq, _⟩
    · exact ⟨by linarith, fun same => .inr (tie (by linarith))⟩
    · exact ⟨by linarith, fun same => absurd same (by linarith)⟩

/-- Every number that is not negative is rounded. -/
theorem exists_nearest (nonneg : 0 ≤ r) : ∃ k, f.Nearest r k := by
  by_cases huge : f.value f.infinity ≤ r
  · refine ⟨f.infinity, nearest_of_midpoints le_rfl (fun i last => ?_) (by omega)⟩
    have step := f.value_strictMono (show i < f.infinity by omega)
    exact ⟨by linarith, fun tie => absurd tie (by linarith)⟩
  have bounded : ∃ j, r < f.value j := ⟨f.infinity, lt_of_not_ge huge⟩
  obtain ⟨k, first⟩ : ∃ k, Nat.find bounded = k + 1 := by
    refine Nat.exists_eq_succ_of_ne_zero fun first => ?_
    have := Nat.find_spec bounded
    rw [first, value_zero] at this
    linarith
  have high : r < f.value (k + 1) := first ▸ Nat.find_spec bounded
  have low : f.value k ≤ r := le_of_not_gt (Nat.find_min bounded (by omega))
  have range : k + 1 ≤ f.infinity := first ▸ Nat.find_min' bounded (lt_of_not_ge huge)
  by_cases down : 2 * r < f.value k + f.value (k + 1) ∨
      2 * r = f.value k + f.value (k + 1) ∧ k % 2 = 0
  · refine ⟨k, nearest_of_midpoints (by omega) (fun i next => ?_) fun _ => ?_⟩
    · have step := f.value_strictMono (show i < k by omega)
      exact ⟨by linarith, fun tie => absurd tie (by linarith)⟩
    · rcases down with lt | ⟨tie, even⟩
      · exact ⟨lt.le, fun tie => absurd tie lt.ne⟩
      · exact ⟨tie.le, fun _ => even⟩
  · rw [not_or, not_lt, not_and] at down
    refine ⟨k + 1, nearest_of_midpoints range (fun i next => ?_) fun _ => ?_⟩
    · obtain rfl : i = k := by omega
      exact ⟨down.1, fun tie => by have := down.2 tie.symm; omega⟩
    · have step := f.value_strictMono (Nat.lt_add_one (k + 1))
      exact ⟨by linarith, fun tie => absurd tie (by linarith)⟩

end Format

end JavaBackend.Decimal
