/-!
# Binary floating-point numbers

A finite binary floating-point number is `m · 2 ^ q` with a sign. `Decimal.Binary.decode` reads
it, or one of the special values, from the bits of an interchange format of any width.
-/

namespace JavaBackend.Decimal

/-- The widths of the two fields of a binary interchange format. -/
structure Format where
  fractionBits : Nat
  exponentBits : Nat
  deriving DecidableEq, Repr

/-- The 32-bit format. -/
def Format.single : Format := ⟨23, 8⟩

/-- The 64-bit format. -/
def Format.double : Format := ⟨52, 11⟩

namespace Format

/-- What is subtracted from the exponent field of a normal number. -/
def bias (f : Format) : Nat := Nat.pow 2 (f.exponentBits - 1) - 1

/-- The exponent field of the values that are not finite. -/
def maxExponent (f : Format) : Nat := Nat.pow 2 f.exponentBits - 1

end Format

/-- The magnitude `m · 2 ^ q` of a finite number. -/
structure Binary where
  m : Nat
  q : Int
  /-- The next smaller number of the format lies only half a unit of `2 ^ q` below: the number
      is the least with its exponent, and the numbers below it are spaced twice as densely. -/
  narrowBelow : Bool
  deriving DecidableEq, Repr

/-- What the bits of a floating-point number stand for. -/
inductive Decoded where
  | nan
  | infinite (negative : Bool)
  | finite (negative : Bool) (magnitude : Binary)
  deriving DecidableEq, Repr

/-- The value of a bit pattern of format `f`. -/
def decode (f : Format) (bits : Nat) : Decoded :=
  let fraction := bits % Nat.pow 2 f.fractionBits
  let exponent := bits / Nat.pow 2 f.fractionBits % Nat.pow 2 f.exponentBits
  let negative := bits / Nat.pow 2 (f.fractionBits + f.exponentBits) % 2 == 1
  let least : Int := 1 - (f.bias : Int) - f.fractionBits
  if exponent = f.maxExponent then
    if fraction = 0 then .infinite negative else .nan
  else if exponent = 0 then .finite negative ⟨fraction, least, false⟩
  else
    .finite negative
      ⟨Nat.pow 2 f.fractionBits + fraction, least + (exponent - 1), fraction == 0 && exponent != 1⟩

end JavaBackend.Decimal
