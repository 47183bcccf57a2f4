import JavaBackend.Decimal.Shortest

/-!
# How a decimal is laid out

Positional notation with at least one digit on each side of the point, or a first digit, the other
digits after a point, and a power of ten. Which of the two is taken depends on the place of the
first digit alone.
-/

namespace JavaBackend.Decimal

/-- Which numbers are written positionally: those whose first digit counts `10 ^ e` with
    `least ≤ e < limit`. -/
structure Layout where
  least : Int
  limit : Int
  deriving DecidableEq, Repr

/-- Digits with a point after the first `whole` of them, padded with zeros so that a digit stands
    on each side. -/
def positional (digits : List Char) (whole : Int) : List Char :=
  if whole ≤ 0 then '0' :: '.' :: (List.replicate (-whole).toNat '0' ++ digits)
  else if digits.length ≤ whole.toNat then
    digits ++ List.replicate (whole.toNat - digits.length) '0' ++ ['.', '0']
  else digits.take whole.toNat ++ '.' :: digits.drop whole.toNat

/-- A first digit, a point and the others if there are any, and the power of ten. -/
def scientific (digits : List Char) (power : Int) : List Char :=
  let mantissa :=
    match digits with
    | first :: second :: rest => first :: '.' :: second :: rest
    | _ => digits
  mantissa ++ 'e' :: (toString power).toList

/-- The text of a decimal number. -/
def Layout.render (layout : Layout) (x : Numeral) : List Char :=
  let digits := (toString x.digits).toList
  let power := x.exponent + digits.length - 1
  if layout.least ≤ power ∧ power < layout.limit then positional digits (power + 1)
  else scientific digits power

/-- The text of a finite number: its sign, and zero or its shortest decimal. -/
def Layout.renderBinary (layout : Layout) (negative : Bool) (x : Binary) : List Char :=
  let sign := if negative then ['-'] else []
  if x.m = 0 then sign ++ ['0', '.', '0']
  else sign ++ layout.render x.shortest

end JavaBackend.Decimal
