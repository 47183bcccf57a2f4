/-!
# Operators

The operators that trees and Java expressions share, with their Java spelling.
-/

namespace JavaBackend

/-- An operator between two values. -/
inductive BinaryOp where
  | add
  | sub
  | mul
  | div
  | rem
  | lt
  | le
  | eq
  | ne
  | ge
  | gt
  | shl
  | shr
  | ushr
  | bitOr
  | bitAnd
  | bitXor
  | and
  | or
  deriving DecidableEq, Repr

namespace BinaryOp

def symbol : BinaryOp → String
  | add => "+"
  | sub => "-"
  | mul => "*"
  | div => "/"
  | rem => "%"
  | lt => "<"
  | le => "<="
  | eq => "=="
  | ne => "!="
  | ge => ">="
  | gt => ">"
  | shl => "<<"
  | shr => ">>"
  | ushr => ">>>"
  | bitOr => "|"
  | bitAnd => "&"
  | bitXor => "^"
  | and => "&&"
  | or => "||"

/-- The operators that evaluate their right operand only if the left one does not decide. -/
def isLogical : BinaryOp → Bool
  | and | or => true
  | _ => false

end BinaryOp

/-- An operator in front of one value. -/
inductive UnaryOp where
  | neg
  | plus
  | not
  | bitNot
  deriving DecidableEq, Repr

def UnaryOp.symbol : UnaryOp → String
  | neg => "-"
  | plus => "+"
  | not => "!"
  | bitNot => "~"

end JavaBackend
