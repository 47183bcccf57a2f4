import JavaBackend.Decimal.Binary

/-!
# The shortest decimal that reads back

Of the decimals `d · 10 ^ p` that round to a given binary number, the one with the fewest digits,
and of those the nearest. The numbers that round to `m · 2 ^ q` form an interval around it, whose
ends belong to it exactly if `m` is even. Going down from a coarse decimal grid, the first grid
with a point in the interval is taken; a grid has such a point only if one of the two grid points
next to the number is one. All comparisons are exact, over the natural numbers.
-/

namespace JavaBackend.Decimal

/-- The decimal number `digits · 10 ^ exponent`. -/
structure Numeral where
  digits : Nat
  exponent : Int
  deriving DecidableEq, Repr

namespace Binary

/-- Quarters of `2 ^ q`, the unit in which the ends of the interval are whole numbers. -/
def quarters (x : Binary) : Nat := 4 * x.m

/-- The lower end of the interval, in quarters. -/
def lower (x : Binary) : Nat := x.quarters - (if x.narrowBelow then 1 else 2)

/-- The upper end of the interval, in quarters. -/
def upper (x : Binary) : Nat := x.quarters + 2

/-- Numbers `(s, t)` such that `n` quarters are `d · 10 ^ p` exactly if `n * s = d * t`, and
    likewise for the order. -/
def scales (x : Binary) (p : Int) : Nat × Nat :=
  (Nat.pow 2 (x.q - 2).toNat * Nat.pow 10 (-p).toNat,
    Nat.pow 2 (2 - x.q).toNat * Nat.pow 10 p.toNat)

/-- Whether `d · 10 ^ p` lies in the interval. -/
def admits (x : Binary) (p : Int) (d : Nat) : Bool :=
  let (s, t) := x.scales p
  if x.m % 2 = 0 then x.lower * s ≤ d * t && d * t ≤ x.upper * s
  else x.lower * s < d * t && d * t < x.upper * s

/-- The point of the grid `10 ^ p` that lies in the interval next to the number. Of two, the nearer
    is taken, and the greater if both are equally near. -/
def nearest? (x : Binary) (p : Int) : Option Nat :=
  let (s, t) := x.scales p
  let below := x.quarters * s / t
  if x.admits p below && x.admits p (below + 1) then
    if 2 * (x.quarters * s) < (2 * below + 1) * t then some below else some (below + 1)
  else if x.admits p below then some below
  else if x.admits p (below + 1) then some (below + 1)
  else none

/-- The exponent of a grid on which the number itself lies. -/
def finest (x : Binary) : Int := min x.q 0

/-- The first grid with a point in the interval, among the `n` next coarser ones than the finest,
    coarsest first, and the finest itself. -/
def search (x : Binary) : Nat → Numeral
  | 0 => ⟨(x.nearest? x.finest).getD 0, x.finest⟩
  | n + 1 =>
    match x.nearest? (x.finest + (n + 1 : Nat)) with
    | some d => ⟨d, x.finest + (n + 1 : Nat)⟩
    | none => x.search n

/-- An exponent from which on no grid has a point in the interval of a number that is not zero. The
    interval ends below `2 ^ e`, and that is at most this power of ten, because the logarithm of two
    is between `0.301` and `0.302`. -/
def coarsest (x : Binary) : Int :=
  let e := x.q + (x.m.log2 + 1 : Nat)
  if 0 ≤ e then e * 302 / 1000 + 1 else e * 301 / 1000 + 1

/-- The shortest decimal that rounds to the number. -/
def shortest (x : Binary) : Numeral :=
  x.search (x.coarsest - x.finest).toNat

end Binary

end JavaBackend.Decimal
