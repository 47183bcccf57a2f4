import JavaBackend.Proofs.Decimal.Rounding
import JavaBackend.Proofs.Grammar.Numbers
import Mathlib.Tactic.FieldSimp

/-!
# The decimals that round to a number

`Binary.Covers` is the interval of the numbers that round to a given one (`nearest_of_covers`). The
whole numbers that the search for a decimal compares stand for its ends (`admits_iff`), so the decimal
that is found is in it (`covers_shortestValue`). And it is found on a grid that is not much finer than
the binary numbers are: `decimalExponent` is a grid with a point near each odd number, and the search
stops there or before (`IsSingle.shortestValue_eq`).
-/

namespace JavaBackend.Decimal

open Java (decimalValue shortestValue)

/-! ## Powers as quotients -/

theorem zpow_eq_div {b : ℚ} (ne : b ≠ 0) (e : Int) : b ^ e = b ^ e.toNat / b ^ (-e).toNat := by
  rw [← zpow_natCast, ← zpow_natCast, ← zpow_sub₀ ne, Int.toNat_sub_toNat_neg]

theorem decimalValue_eq (d : Nat) (p : Int) : decimalValue d p = d * 10 ^ p := by
  rw [decimalValue, Rat.mkRat_eq_div, zpow_eq_div (by norm_num)]
  push_cast [Nat.pow_eq]
  ring

variable {x : Binary} {p : Int} {d n : Nat} {r : ℚ}

namespace Binary

/-! ## The interval -/

/-- The numbers that round to `x`: its ends belong to the interval if `x` is even. -/
def Covers (x : Binary) (r : ℚ) : Prop :=
  if x.m % 2 = 0 then x.lower * 2 ^ (x.q - 2) ≤ r ∧ r ≤ x.upper * 2 ^ (x.q - 2)
  else x.lower * 2 ^ (x.q - 2) < r ∧ r < x.upper * 2 ^ (x.q - 2)

theorem two_zpow (q : Int) : (2 : ℚ) ^ q = 4 * 2 ^ (q - 2) := by
  rw [zpow_sub₀ two_ne_zero]
  norm_num
  ring

theorem value_eq_quarters (x : Binary) : x.value = x.quarters * 2 ^ (x.q - 2) := by
  rw [value, quarters, two_zpow]
  push_cast
  ring

/-- The interval ends half a unit above the number, -/
theorem upper_mul (x : Binary) : x.upper * 2 ^ (x.q - 2) = x.value + 2 ^ x.q / 2 := by
  rw [value_eq_quarters, upper, two_zpow x.q]
  push_cast
  ring

/-- and half the distance of the next smaller number below it. -/
theorem lower_mul (pos : 0 < x.m) :
    x.lower * 2 ^ (x.q - 2) = x.value - 2 ^ x.q / (if x.narrowBelow then 2 else 1) / 2 := by
  have fits : (if x.narrowBelow then 1 else 2) ≤ x.quarters := by unfold quarters; split <;> omega
  rw [value_eq_quarters, lower, Nat.cast_sub fits, two_zpow x.q]
  cases x.narrowBelow with
  | false =>
    push_cast
    ring
  | true =>
    rw [if_pos rfl, if_pos rfl]
    push_cast
    ring

theorem covers_value (pos : 0 < x.m) : x.Covers x.value := by
  have unit : (0 : ℚ) < 2 ^ (x.q - 2) := by positivity
  have below : (x.lower : ℚ) < x.quarters := by
    have : x.lower < x.quarters := by unfold lower quarters; split <;> omega
    exact_mod_cast this
  have above : (x.quarters : ℚ) < x.upper := by
    have : x.quarters < x.upper := by unfold upper; omega
    exact_mod_cast this
  have low := mul_lt_mul_of_pos_right below unit
  have high := mul_lt_mul_of_pos_right above unit
  rw [Covers, value_eq_quarters]
  split
  · exact ⟨low.le, high.le⟩
  · exact ⟨low, high⟩

/-- What an interval covers lies between its ends. -/
theorem Covers.bounds (covers : x.Covers r) :
    x.lower * 2 ^ (x.q - 2) ≤ r ∧ r ≤ x.upper * 2 ^ (x.q - 2) := by
  unfold Covers at covers
  split at covers
  · exact covers
  · exact ⟨covers.1.le, covers.2.le⟩

end Binary

/-- A number of the interval of `k` rounds to `k`: the ends are the midpoints to the neighbours. -/
theorem Format.nearest_of_covers {f : Format} {k : Nat} (wide : 0 < f.fractionBits)
    (range : k ≤ f.infinity) (covers : (f.magnitude k).Covers r) : f.Nearest r k := by
  have even : (f.magnitude k).m % 2 = 0 → k % 2 = 0 := by rw [f.magnitude_parity wide]; exact id
  obtain ⟨low, high⟩ := covers.bounds
  apply nearest_of_midpoints range
  · rintro i rfl
    have pred := f.value_pred i
    have lower := Binary.lower_mul (f.magnitude_pos (Nat.zero_lt_succ i))
    rw [← value.eq_1] at lower
    refine ⟨by linarith, fun tie => ?_⟩
    by_contra odd
    rw [Binary.Covers, if_neg fun m => odd (even m)] at covers
    linarith
  · intro _
    have succ := f.value_succ k
    have upper := (f.magnitude k).upper_mul
    rw [← value.eq_1] at upper
    refine ⟨by linarith, fun tie => ?_⟩
    by_contra odd
    rw [Binary.Covers, if_neg fun m => odd (even m)] at covers
    linarith

namespace Binary

/-! ## Grids -/

/-- The scales bring quarters and decimals to a common unit. -/
theorem exists_unit (x : Binary) (p : Int) : ∃ unit : ℚ, 0 < unit ∧
    (∀ n : Nat, n * 2 ^ (x.q - 2) = (n * (x.scales p).1 : Nat) * unit) ∧
      ∀ d : Nat, decimalValue d p = (d * (x.scales p).2 : Nat) * unit := by
  refine ⟨1 / (2 ^ (2 - x.q).toNat * 10 ^ (-p).toNat), by positivity, fun n => ?_, fun d => ?_⟩
  · rw [zpow_eq_div two_ne_zero, neg_sub, scales]
    push_cast [Nat.pow_eq]
    field_simp
  · rw [decimalValue_eq, zpow_eq_div (by norm_num), scales]
    push_cast [Nat.pow_eq]
    field_simp

theorem quarters_le_iff :
    n * (x.scales p).1 ≤ d * (x.scales p).2 ↔ (n : ℚ) * 2 ^ (x.q - 2) ≤ decimalValue d p := by
  obtain ⟨unit, pos, quarters, decimals⟩ := x.exists_unit p
  rw [quarters, decimals, mul_le_mul_iff_left₀ pos, Nat.cast_le]

theorem le_quarters_iff :
    d * (x.scales p).2 ≤ n * (x.scales p).1 ↔ decimalValue d p ≤ (n : ℚ) * 2 ^ (x.q - 2) := by
  obtain ⟨unit, pos, quarters, decimals⟩ := x.exists_unit p
  rw [quarters, decimals, mul_le_mul_iff_left₀ pos, Nat.cast_le]

theorem admits_iff : x.admits p d = true ↔ x.Covers (decimalValue d p) := by
  unfold admits Covers
  dsimp only
  split
  · simp only [Bool.and_eq_true, decide_eq_true_eq, quarters_le_iff, le_quarters_iff]
  · simp only [Bool.and_eq_true, decide_eq_true_eq, ← not_le, quarters_le_iff, le_quarters_iff]

theorem admits_of_nearest? (found : x.nearest? p = some d) : x.admits p d = true := by
  unfold nearest? at found
  dsimp only at found
  split at found
  · next both =>
    rw [Bool.and_eq_true] at both
    split at found
    · exact Option.some.inj found ▸ both.1
    · exact Option.some.inj found ▸ both.2
  · split at found
    · next below => exact Option.some.inj found ▸ below
    · split at found
      · next above => exact Option.some.inj found ▸ above
      · cases found

/-- A grid has a point in the interval if one of the two points next to the number is one. -/
theorem nearest?_ne_none (below : Nat) (next : below = x.quarters * (x.scales p).1 / (x.scales p).2)
    (admitted : x.admits p below = true ∨ x.admits p (below + 1) = true) : x.nearest? p ≠ none := by
  subst next
  unfold nearest?
  dsimp only
  rcases admitted with low | high
  · rw [low]
    split
    · split <;> nofun
    · nofun
  · rw [high]
    split
    · split <;> nofun
    · split <;> nofun

/-! ## The search -/

theorem scales_pos (x : Binary) (p : Int) : 0 < (x.scales p).1 ∧ 0 < (x.scales p).2 := by
  unfold scales
  simp only [Nat.pow_eq]
  constructor <;> positivity

/-- The number itself lies on the finest grid. -/
theorem exists_value_eq (x : Binary) : ∃ d, decimalValue d x.finest = x.value := by
  refine ⟨x.m * 2 ^ x.q.toNat * 5 ^ (-x.q).toNat, ?_⟩
  have ten (n : Nat) : (10 : ℚ) ^ n = 2 ^ n * 5 ^ n := by rw [← mul_pow]; norm_num
  rw [decimalValue_eq, value, finest]
  rcases le_total 0 x.q with sign | sign
  · rw [min_eq_right sign, zpow_zero, Int.toNat_of_nonpos (by omega : -x.q ≤ 0), mul_one]
    push_cast
    rw [zpow_eq_div two_ne_zero x.q, Int.toNat_of_nonpos (by omega : -x.q ≤ 0)]
    simp
  · rw [min_eq_left sign, Int.toNat_of_nonpos sign, zpow_eq_div (by norm_num : (10 : ℚ) ≠ 0),
      zpow_eq_div two_ne_zero x.q, Int.toNat_of_nonpos sign]
    push_cast
    field_simp
    rw [ten]
    ring

theorem nearest?_finest_ne_none (pos : 0 < x.m) : x.nearest? x.finest ≠ none := by
  obtain ⟨d, eq⟩ := x.exists_value_eq
  have le := x.value_eq_quarters ▸ eq.le
  have ge := x.value_eq_quarters ▸ eq.ge
  have same : x.quarters * (x.scales x.finest).1 = d * (x.scales x.finest).2 :=
    Nat.le_antisymm (quarters_le_iff.mpr ge) (le_quarters_iff.mpr le)
  refine nearest?_ne_none d ?_ (.inl (admits_iff.mpr (eq ▸ covers_value pos)))
  rw [same, Nat.mul_div_cancel _ (x.scales_pos x.finest).2]

theorem search_admits (pos : 0 < x.m) (n : Nat) :
    x.admits (x.search n).exponent (x.search n).digits = true := by
  induction n with
  | zero =>
    obtain ⟨d, found⟩ := Option.ne_none_iff_exists'.mp (nearest?_finest_ne_none pos)
    rw [search, found]
    exact admits_of_nearest? found
  | succ n ih =>
    rw [search]
    split
    · next found => exact admits_of_nearest? found
    · exact ih

/-- The search ends on no finer grid than any that has a point in the interval. -/
theorem le_exponent_search {n : Nat} (coarse : p ≤ x.finest + n) (fine : x.finest ≤ p)
    (found : x.nearest? p ≠ none) : p ≤ (x.search n).exponent := by
  induction n with
  | zero => simpa [search] using coarse
  | succ n ih =>
    rw [search]
    split
    · exact coarse
    · next missed =>
      have : p ≠ x.finest + (n + 1 : Nat) := by
        rintro rfl
        exact found missed
      exact ih (by omega)

/-- The shortest decimal rounds to the number. -/
theorem covers_shortestValue (x : Binary) : x.Covers (shortestValue x) := by
  rw [shortestValue]
  split
  · next zero =>
    have unit : (0 : ℚ) ≤ x.upper * 2 ^ (x.q - 2) := by positivity
    simpa [Covers, lower, quarters, zero] using unit
  · next pos => exact admits_iff.mp (search_admits (Nat.pos_of_ne_zero pos) _)

theorem shortestValue_nonneg (x : Binary) : 0 ≤ shortestValue x := by
  rw [shortestValue, decimalValue_eq]
  split <;> positivity

/-! ## A grid for odd numbers -/

/-- The magnitude is one of those of the 32-bit format. -/
structure IsSingle (x : Binary) : Prop where
  digits : x.m < 2 ^ 24
  first : -149 ≤ x.q
  last : x.q ≤ 104

/-- What holds of the exponents of the format one by one holds of that of each number. -/
theorem IsSingle.of_exponents (single : x.IsSingle) (holds : Int → Prop)
    (each : ∀ i : Nat, i < 254 → holds (i - 149)) : holds x.q := by
  obtain ⟨-, first, last⟩ := single
  have here := each (x.q + 149).toNat (by omega)
  rwa [show ((x.q + 149).toNat - 149 : Int) = x.q by omega] at here

/-- The exponent of a decimal grid that is finer than `2 ^ q`, but hardly so. -/
def decimalExponent (q : Int) : Int := q * 30103 / 100000

/-- Two points that were both too far from an odd number would be further apart than the grid is
    wide, or as far apart with the number not between them. -/
theorem near_of_le {m s t below : Nat} (some : 0 < m) (pos : 0 < s) (fine : t ≤ 4 * s) :
    (4 * m - 2) * s < below * t ∨ (below + 1) * t < (4 * m + 2) * s := by
  obtain ⟨n, rfl⟩ : ∃ n, m = n + 1 := ⟨m - 1, by omega⟩
  have ends : 4 * (n + 1) - 2 = 4 * n + 2 := by omega
  by_contra far
  rw [not_or, not_lt, not_lt, ends] at far
  have wide : t = 4 * s := by linarith
  have between : 4 * below * s = (4 * n + 2) * s := by
    rw [wide] at far
    linarith
  have := Nat.eq_of_mul_eq_mul_right pos between
  omega

/-- A grid that is no coarser than the numbers has a point near an odd number. -/
theorem nearest?_ne_none_of_le (odd : x.m % 2 = 1) (plain : x.narrowBelow = false)
    (fine : (x.scales p).2 ≤ 4 * (x.scales p).1) : x.nearest? p ≠ none := by
  obtain ⟨pos, wide⟩ := x.scales_pos p
  have low := Nat.div_mul_le_self (x.quarters * (x.scales p).1) (x.scales p).2
  have high := Nat.lt_div_mul_add (a := x.quarters * (x.scales p).1) wide
  refine nearest?_ne_none _ rfl ?_
  have lower : x.lower = 4 * x.m - 2 := by rw [Binary.lower, plain]; rfl
  have step : x.lower * (x.scales p).1 + 2 * (x.scales p).1 = x.quarters * (x.scales p).1 := by
    rw [← Nat.add_mul, lower, quarters]
    congr 1
    omega
  have upper : x.upper * (x.scales p).1 = x.quarters * (x.scales p).1 + 2 * (x.scales p).1 :=
    Nat.add_mul ..
  simp only [admits, if_neg (by omega : ¬ x.m % 2 = 0), Bool.and_eq_true, decide_eq_true_eq]
  rcases near_of_le (by omega : 0 < x.m) pos fine with near | near
  · exact .inl ⟨lower ▸ near, by omega⟩
  · refine .inr ⟨?_, near⟩
    rw [Nat.add_mul]
    omega

/-- The grid is finer than the numbers, for every exponent of the 32-bit format. -/
theorem IsSingle.scales_decimalExponent (single : x.IsSingle) :
    (x.scales (decimalExponent x.q)).2 ≤ 4 * (x.scales (decimalExponent x.q)).1 := by
  let scales (q : Int) := (⟨0, q, false⟩ : Binary).scales (decimalExponent q)
  exact single.of_exponents (fun q => (scales q).2 ≤ 4 * (scales q).1) (by decide +kernel)

theorem IsSingle.decimalExponent_le (single : x.IsSingle) (odd : x.m % 2 = 1)
    (plain : x.narrowBelow = false) : decimalExponent x.q ≤ x.shortest.exponent := by
  have found := nearest?_ne_none_of_le odd plain single.scales_decimalExponent
  have fine : x.finest ≤ decimalExponent x.q := by unfold finest decimalExponent; omega
  have coarse : decimalExponent x.q ≤ x.coarsest := by
    unfold coarsest decimalExponent
    dsimp only
    split <;> omega
  exact le_exponent_search (by omega) fine found

/-- The shortest decimal as a point of this grid. -/
def gridDigits (x : Binary) : Nat :=
  x.shortest.digits * 10 ^ (x.shortest.exponent - decimalExponent x.q).toNat

theorem IsSingle.shortestValue_eq (single : x.IsSingle) (odd : x.m % 2 = 1)
    (plain : x.narrowBelow = false) :
    shortestValue x = x.gridDigits * 10 ^ decimalExponent x.q := by
  have le := single.decimalExponent_le odd plain
  have split : (x.shortest.exponent - decimalExponent x.q).toNat + decimalExponent x.q =
      x.shortest.exponent := by omega
  rw [shortestValue, if_neg (by omega), decimalValue_eq, gridDigits]
  push_cast
  rw [mul_assoc, ← zpow_natCast, ← zpow_add₀ (by norm_num), split]

end Binary

end JavaBackend.Decimal
