import JavaBackend.Proofs.Decimal.Intervals
import Mathlib.Tactic.LinearCombination

/-!
# Decimals next to midpoints

A decimal that is rounded to a wide format first can be moved onto the midpoint between two numbers of
a narrow one, if it is very near to it. The decimals in question are points `d · 10 ^ p` of a grid, and
the midpoints are halves `n · 2 ^ (q - 1)` of a unit. For a fraction `h / k` near the ratio of the two,
the number `d * h - n * k` is small if the decimal is near the midpoint, and it determines `d` if `k`
is greater than all `d` (`mem_candidates`). So there are only a few pairs to look at for each exponent
(`certified`). How the fraction is found does not matter: it is a convergent, but nothing about it is
used that is not checked.

For one odd number of the 32-bit format the shortest decimal is that near to a midpoint, and for no
other (`IsSingle.eq_of_near_midpoint`).
-/

namespace JavaBackend.Decimal

open Java (shortestValue)

/-- A fraction, with an inverse of its numerator modulo its denominator. -/
structure Fraction where
  numerator : Nat
  denominator : Nat
  inverse : Nat

/-- The first convergent of `a / b` with a denominator above the limit, or the last one. The previous
    convergent goes along: its denominator is the inverse, up to the sign. -/
def convergent (limit : Nat) : Nat → Nat → Nat → Nat × Nat → Nat × Nat → Fraction
  | 0, _, _, (h, k), _ => ⟨h, k, 0⟩
  | steps + 1, a, b, (h, k), (h', k') =>
    if b = 0 ∨ limit < k then ⟨h, k, if k' * h % k = 1 then k' else k - k'⟩
    else convergent limit steps b (a % b) (a / b * h + h', a / b * k + k') (h, k)

/-- A decimal grid and the halves of a binary unit on a common scale: the grid has its points at the
    multiples of `step`, and the halves are the multiples of `half`. -/
structure Halves where
  step : Nat
  half : Nat

namespace Halves

/-- The halves of `2 ^ q`, and the grid for the numbers with this unit. -/
def ofExponent (q : Int) : Halves :=
  let scales := (⟨0, q + 1, false⟩ : Binary).scales (Binary.decimalExponent q)
  ⟨scales.2, scales.1⟩

/-- Rounding to 29 bits more than a unit can take the decimal `d` to `n` halves. -/
def Near (g : Halves) (d n : Nat) : Prop := (d * g.step - n * g.half : Int).natAbs * 2 ^ 29 ≤ g.half

/-- A bound for the decimals near the halves of numbers of 24 bits. -/
def limit (g : Halves) : Nat := 2 ^ 25 * g.half / g.step

/-- A bound for `d * h - n * k`. -/
def slack (g : Halves) (f : Fraction) : Nat :=
  (2 ^ 29 * g.limit * (f.numerator * g.half - f.denominator * g.step : Int).natAbs +
    f.denominator * g.half) / (2 ^ 29 * g.half)

/-- The pair `(d, n)` with a given `d * h - n * k`. -/
def candidate (f : Fraction) (r : Int) : Nat × Nat :=
  let d := (f.inverse * r % f.denominator).toNat
  (d, ((d * f.numerator - r) / f.denominator).toNat)

def candidates (g : Halves) (f : Fraction) : List (Nat × Nat) :=
  (List.range (2 * g.slack f + 1)).map fun i : Nat => candidate f (i - g.slack f)

variable {g : Halves} {f : Fraction} {d n : Nat}

/-- The halves and the grid are on a common scale. -/
theorem exists_unit (q : Int) : ∃ unit : ℚ, 0 < unit ∧
    (∀ n : Nat, n * 2 ^ (q - 1) = n * (ofExponent q).half * unit) ∧
      ∀ d : Nat, d * 10 ^ Binary.decimalExponent q = d * (ofExponent q).step * unit := by
  obtain ⟨unit, pos, halves, decimals⟩ :=
    (⟨0, q + 1, false⟩ : Binary).exists_unit (Binary.decimalExponent q)
  have exponent : q + 1 - 2 = q - 1 := by ring
  refine ⟨unit, pos, fun n => ?_, fun d => ?_⟩
  · rw [← exponent, halves, Nat.cast_mul]
    rfl
  · rw [← decimalValue_eq, decimals, Nat.cast_mul]
    rfl

theorem near_iff : g.Near d n ↔ |(d * g.step - n * g.half : ℚ)| * 2 ^ 29 ≤ g.half := by
  have whole : ((d * g.step - n * g.half : Int).natAbs : ℚ) = |(d * g.step - n * g.half : ℚ)| := by
    rw [Nat.cast_natAbs]
    push_cast
    rfl
  rw [← whole, Near]
  exact_mod_cast Iff.rfl

theorem le_limit (pos : 0 < g.step) (near : g.Near d n) (small : n < 2 ^ 25) : d ≤ g.limit := by
  rw [limit, Nat.le_div_iff_mul_le pos]
  have apart : (d * g.step - n * g.half : Int).natAbs ≤ g.half := by
    unfold Near at near
    omega
  have below : d * g.step ≤ n * g.half + g.half := by omega
  calc d * g.step ≤ (n + 1) * g.half := by rwa [Nat.add_mul, Nat.one_mul]
    _ ≤ 2 ^ 25 * g.half := Nat.mul_le_mul_right _ small

/-- How far `d * h - n * k` is from zero comes from how far the fraction is from the ratio, and how
    far the decimal is from the halves. -/
theorem half_mul (g : Halves) (f : Fraction) (d n : Nat) :
    (g.half * (d * f.numerator - n * f.denominator) : Int) =
      d * (f.numerator * g.half - f.denominator * g.step) +
        f.denominator * (d * g.step - n * g.half) := by ring

theorem natAbs_le_slack (pos : 0 < g.half) (near : g.Near d n) (bounded : d ≤ g.limit) :
    (d * f.numerator - n * f.denominator : Int).natAbs ≤ g.slack f := by
  have sum := Int.natAbs_add_le (d * (f.numerator * g.half - f.denominator * g.step : Int))
    (f.denominator * (d * g.step - n * g.half : Int))
  rw [← half_mul] at sum
  simp only [Int.natAbs_mul, Int.natAbs_natCast] at sum
  rw [slack, Nat.le_div_iff_mul_le (by positivity)]
  calc (d * f.numerator - n * f.denominator : Int).natAbs * (2 ^ 29 * g.half)
      = 2 ^ 29 * (g.half * (d * f.numerator - n * f.denominator : Int).natAbs) := by ring
    _ ≤ 2 ^ 29 * (d * (f.numerator * g.half - f.denominator * g.step : Int).natAbs +
          f.denominator * (d * g.step - n * g.half : Int).natAbs) := Nat.mul_le_mul_left _ sum
    _ = 2 ^ 29 * d * (f.numerator * g.half - f.denominator * g.step : Int).natAbs +
          f.denominator * ((d * g.step - n * g.half : Int).natAbs * 2 ^ 29) := by ring
    _ ≤ _ := by
      refine Nat.add_le_add ?_ (Nat.mul_le_mul_left _ near)
      exact Nat.mul_le_mul_right _ (Nat.mul_le_mul_left _ bounded)

theorem candidate_eq (inverse : f.inverse * f.numerator % f.denominator = 1)
    (bounded : d < f.denominator) :
    candidate f (d * f.numerator - n * f.denominator) = (d, n) := by
  have unit := Nat.div_add_mod (f.inverse * f.numerator) f.denominator
  rw [inverse] at unit
  have residue : (f.inverse * (d * f.numerator - n * f.denominator) : Int) =
      d + f.denominator * ((f.inverse * f.numerator / f.denominator : Nat) * d - f.inverse * n) := by
    have unit : (f.denominator * (f.inverse * f.numerator / f.denominator : Nat) + 1 : Int) =
      f.inverse * f.numerator := by exact_mod_cast unit
    linear_combination (-d : Int) * unit
  have first : (f.inverse * (d * f.numerator - n * f.denominator) % f.denominator : Int).toNat = d := by
    rw [residue, Int.add_mul_emod_self_left, ← Int.natCast_emod, Int.toNat_natCast,
      Nat.mod_eq_of_lt bounded]
  have second : (d * f.numerator - (d * f.numerator - n * f.denominator) : Int) =
      n * f.denominator := by ring
  rw [candidate, first, second, Int.mul_ediv_cancel _ (by omega), Int.toNat_natCast]

theorem mem_candidates (near : g.Near d n) (small : n < 2 ^ 25) (step : 0 < g.step)
    (half : 0 < g.half) (large : g.limit < f.denominator)
    (inverse : f.inverse * f.numerator % f.denominator = 1) : (d, n) ∈ g.candidates f := by
  have bounded := le_limit step near small
  have slack := natAbs_le_slack (f := f) half near bounded
  rw [candidates, List.mem_map]
  refine ⟨(d * f.numerator - n * f.denominator + g.slack f : Int).toNat, ?_, ?_⟩
  · rw [List.mem_range]
    omega
  · rw [← candidate_eq inverse (Nat.lt_of_le_of_lt bounded large)]
    congr 1
    omega

/-- If the fraction is the ratio itself, a decimal that is near lies on the halves. -/
theorem eq_of_exact (near : g.Near d n) (small : n < 2 ^ 25) (step : 0 < g.step) (half : 0 < g.half)
    (some : 0 < f.denominator) (few : f.denominator < 2 ^ 29)
    (exact : f.numerator * g.half = f.denominator * g.step) : d * g.step = n * g.half := by
  have ratio : (f.numerator * g.half - f.denominator * g.step : Int) = 0 :=
    Int.sub_eq_zero.mpr (by exact_mod_cast exact)
  have none : g.slack f = 0 := by
    rw [slack, ratio, Int.natAbs_zero, Nat.mul_zero, Nat.zero_add, Nat.mul_div_mul_right _ _ half,
      Nat.div_eq_of_lt few]
  have residue := natAbs_le_slack (f := f) half near (le_limit step near small)
  have sum := half_mul g f d n
  rw [none, Nat.le_zero, Int.natAbs_eq_zero] at residue
  rw [residue, ratio, mul_zero, mul_zero, zero_add, eq_comm, mul_eq_zero] at sum
  have apart := sum.resolve_left (by omega)
  exact_mod_cast Int.sub_eq_zero.mp apart

end Halves

namespace Binary

variable {x : Binary} {n : Nat}

/-! ## The numbers of the 32-bit format -/

/-- The number whose shortest decimal is all but the midpoint above it. -/
def exceptional : Binary := ⟨11420669, -107, false⟩

/-- The decimal is not the shortest one of an odd number next to the midpoint, unless the number is
    the exceptional one. -/
def dismissed (q : Int) (d n : Nat) : Bool :=
  [n / 2, n / 2 + 1].all fun m =>
    m % 2 == 0 || (⟨m, q, false⟩ : Binary).gridDigits != d || (⟨m, q, false⟩ : Binary) == exceptional

/-- No decimal on the grid for `2 ^ q` is near a midpoint, or all those are dismissed. -/
def certified (q : Int) : Bool :=
  let g := Halves.ofExponent q
  let f := convergent g.limit 200 g.step g.half (1, 0) (0, 1)
  f.numerator * g.half == f.denominator * g.step && 0 < f.denominator && f.denominator < 2 ^ 29 ||
    g.limit < f.denominator && f.inverse * f.numerator % f.denominator == 1 &&
      (g.candidates f).all fun (d, n) => n % 2 == 0 || 2 ^ 25 ≤ n || dismissed q d n

theorem IsSingle.certified (single : x.IsSingle) : certified x.q = true :=
  single.of_exponents (fun q => Binary.certified q = true) (by decide +kernel)

theorem IsSingle.dismissed (single : x.IsSingle) {d : Nat} (odd : n % 2 = 1)
    (small : n < 2 ^ 25) (near : (Halves.ofExponent x.q).Near d n)
    (apart : d * (Halves.ofExponent x.q).step ≠ n * (Halves.ofExponent x.q).half) :
    dismissed x.q d n = true := by
  have cert := single.certified
  obtain ⟨half, step⟩ := (⟨0, x.q + 1, false⟩ : Binary).scales_pos (decimalExponent x.q)
  simp only [Binary.certified, Bool.or_eq_true, Bool.and_eq_true, beq_iff_eq, decide_eq_true_eq,
    List.all_eq_true] at cert
  rcases cert with ⟨⟨exact, some⟩, few⟩ | ⟨⟨large, inverse⟩, all⟩
  · exact absurd (Halves.eq_of_exact near small step half some few exact) apart
  · have := all _ (Halves.mem_candidates near small step half large inverse)
    rcases this with (even | huge) | dismissed
    · omega
    · omega
    · exact dismissed

/-- Only the shortest decimal of the exceptional number can be taken to a midpoint by rounding to 29
    bits more. -/
theorem IsSingle.eq_of_near_midpoint (single : x.IsSingle) (odd : x.m % 2 = 1)
    (plain : x.narrowBelow = false) (beside : n = 2 * x.m + 1 ∨ n + 1 = 2 * x.m)
    (near : 2 * |shortestValue x - n * 2 ^ (x.q - 1)| ≤ 2 ^ (x.q - 29))
    (apart : shortestValue x ≠ n * 2 ^ (x.q - 1)) : x = exceptional := by
  obtain ⟨unit, pos, halves, decimals⟩ := Halves.exists_unit x.q
  have bits : (2 : ℚ) ^ (x.q - 29) * 2 ^ 28 = (Halves.ofExponent x.q).half * unit := by
    have half := halves 1
    rw [Nat.cast_one, one_mul, one_mul] at half
    rw [← half, ← zpow_natCast, ← zpow_add₀ two_ne_zero]
    congr 1
    push_cast
    ring
  rw [single.shortestValue_eq odd plain, decimals, halves] at near apart
  have close : (Halves.ofExponent x.q).Near x.gridDigits n := by
    rw [← sub_mul, abs_mul, abs_of_pos pos] at near
    rw [Halves.near_iff]
    refine le_of_mul_le_mul_right ?_ pos
    linarith
  have small : n < 2 ^ 25 := by
    have := single.digits
    omega
  have dismissed := single.dismissed (by omega) small close fun same => by
    apply apart
    exact_mod_cast congrArg (fun count : Nat => (count : ℚ) * unit) same
  have next : x.m ∈ [n / 2, n / 2 + 1] := by
    rw [List.mem_pair]
    omega
  have self : (⟨x.m, x.q, false⟩ : Binary) = x := by rw [← plain]
  have here := List.all_eq_true.mp dismissed x.m next
  simp only [self, Bool.or_eq_true, beq_iff_eq, bne_iff_ne] at here
  rcases here with (even | other) | found
  · omega
  · exact absurd rfl other
  · exact found

end Binary

end JavaBackend.Decimal
