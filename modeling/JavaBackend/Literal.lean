import JavaBackend.Decimal.Layout
import JavaBackend.JavaType
import JavaBackend.Text.Quoted

/-!
# Literals

Constant values and their spelling in Java source, and the constants that the short constant
directives of the virtual machine (`iconst_m1`, `lconst_1`, …) stand for. Floating-point values are
kept as bits, so that the sign of zero and the payload of a NaN are part of the value.
-/

namespace JavaBackend

/-- A constant value. -/
inductive Literal where
  | null
  | bool (value : Bool)
  | int (value : Int32)
  | long (value : Int64)
  | float (bits : UInt32)
  | double (bits : UInt64)
  | char (value : Char)
  | str (value : String)
  | type (value : JavaType)
  deriving DecidableEq, Repr

namespace Literal

/-- Floating-point numbers are positional from `0.0001` on, up to below `10 ^ 16`. -/
def layout : Decimal.Layout := ⟨-4, 16⟩

/-- A floating-point literal of one of the two widths: a constant of the class `owner` if the value
    is not finite, and its shortest decimal after `cast` if it is. -/
def floating (owner cast : String) (format : Decimal.Format) (bits : Nat) : String :=
  match Decimal.decode format bits with
  | .nan => owner ++ ".NaN"
  | .infinite false => owner ++ ".POSITIVE_INFINITY"
  | .infinite true => owner ++ ".NEGATIVE_INFINITY"
  | .finite negative magnitude =>
    cast ++ String.ofList (layout.renderBinary negative magnitude)

/-- A string literal. -/
def ofString (value : String) : String :=
  String.ofList (Text.quoted '"' value.toList)

/-- A character literal. A character beyond the 16 bits of a Java `char` is written as a cast of its
    code point, which keeps the low bits. -/
def ofChar (value : Char) : String :=
  if 0xffff < value.toNat then "(char)" ++ toString value.toNat
  else String.ofList (Text.quoted '\'' [value])

/-- A class literal. -/
def ofType (type : JavaType) : String := type.source ++ ".class"

/-- The literal in Java source. -/
def source : Literal → String
  | .null => "null"
  | .bool true => "true"
  | .bool false => "false"
  | .int value => toString value.toInt
  | .long value => toString value.toInt ++ "L"
  | .float bits => floating "Float" "(float)" .single bits.toNat
  | .double bits => floating "Double" "" .double bits.toNat
  | .char value => ofChar value
  | .str value => ofString value
  | .type value => ofType value

end Literal

/-- The value that a variable of the type starts with: Java refuses to read a variable that may
    have none. -/
def JavaType.defaultValue : JavaType → Literal
  | .boolean => .bool false
  | .void | .reference _ | .array _ => .null
  | _ => .int 0

/-! ## Constant directives -/

namespace Directive

/-- The types of constants that a directive can push. -/
inductive Family where
  | int
  | long
  | float
  | double
  deriving DecidableEq, Repr

/-- The letter in front of a directive's name. -/
def family? : Char → Option Family
  | 'i' => some .int
  | 'l' => some .long
  | 'f' => some .float
  | 'd' => some .double
  | _ => none

/-- The number after the underscore: a single digit, or `m1` for minus one. -/
def operand? : List Char → Option Int
  | [c] => if c.isDigit then some (c.toNat - '0'.toNat : Nat) else none
  | chars => if chars = ['m', '1'] then some (-1) else none

/-- The constant of a type and a number. Each type has directives for a few numbers only. -/
def constant? : Family → Int → Option Literal
  | .int, n => if -1 ≤ n ∧ n ≤ 5 then some (.int (Int32.ofInt n)) else none
  | .long, n => if 0 ≤ n ∧ n ≤ 1 then some (.long (Int64.ofInt n)) else none
  | .float, 0 => some (.float 0)
  | .float, 1 => some (.float 0x3f800000)
  | .float, 2 => some (.float 0x40000000)
  | .double, 0 => some (.double 0)
  | .double, 1 => some (.double 0x3ff0000000000000)
  | _, _ => none

/-- The constant that a directive pushes: a type's letter, `const_` and a number. -/
def literal? (directive : String) : Option Literal :=
  match directive.toList with
  | letter :: 'c' :: 'o' :: 'n' :: 's' :: 't' :: '_' :: operand => do
    constant? (← family? letter) (← operand? operand)
  | _ => none

end Directive

end JavaBackend
