import JavaBackend.Literal
import JavaBackend.Operator
import JavaBackend.Text.Parens

/-!
# Java expressions

The expressions that generated code is made of, and their text. An expression whose parts could be
read apart otherwise brings its own parentheses; where a construct has parentheses anyway, the
expression stands between them without its own (`Expr.bare`).
-/

namespace JavaBackend.Java

/-- A Java expression. -/
inductive Expr where
  | literal (value : Literal)
  | this
  /-- A variable. -/
  | var (name : String)
  /-- A class that stands in front of a static member. -/
  | owner (name : String)
  | field (target : Expr) (name : String)
  | assign (name : String) (value : Expr)
  | call (target : Expr) (method : String) (args : List Expr)
  | new (type : JavaType) (args : List Expr)
  | binary (op : BinaryOp) (left right : Expr)
  | unary (op : UnaryOp) (operand : Expr)
  | isNull (value : Expr)
  | instanceOf (value : Expr) (type : JavaType)
  | cast (type : JavaType) (value : Expr)
  /-- Text put together from parts. -/
  | concat (parts : List Expr)
  /-- A new array, given the type and the number of its elements. -/
  | newArray (component : JavaType) (size : Expr)
  | cond (test yes no : Expr)

namespace Expr

/-- Whether concatenation that starts with the expression is a concatenation of strings in any
    case. -/
def isString : Expr → Bool
  | .literal (.str _) => true
  | _ => false

mutual

/-- The expression in Java source. -/
def text : Expr → String
  | .literal value => value.source
  | .this => "this"
  | .var name => name
  | .owner name => name
  | .field target name => target.text ++ "." ++ name
  | .assign name value => "(" ++ name ++ " = " ++ value.text ++ ")"
  | .call target method args =>
    target.text ++ "." ++ method ++ "(" ++ ", ".intercalate (texts args) ++ ")"
  | .new type args => "new " ++ type.source ++ "(" ++ ", ".intercalate (texts args) ++ ")"
  | .binary op left right => "(" ++ left.text ++ " " ++ op.symbol ++ " " ++ right.text ++ ")"
  | .unary op operand => op.symbol ++ "(" ++ Text.Parens.unwrap operand.text ++ ")"
  | .isNull value => "(" ++ value.text ++ " == null)"
  | .instanceOf value type => "(" ++ value.text ++ " instanceof " ++ type.source ++ ")"
  | .cast type value =>
    "((" ++ type.source ++ ")(" ++ Text.Parens.unwrap value.text ++ "))"
  | .concat parts =>
    match parts with
    | [] => "\"\""
    | first :: _ =>
      (if first.isString then "(" else "(\"\" + ") ++ " + ".intercalate (texts parts) ++ ")"
  | .newArray component size =>
    let (base, dimensions) := component.dimensions
    "new " ++ base.source ++ "[" ++ Text.Parens.unwrap size.text ++ "]" ++
      String.join (List.replicate dimensions "[]")
  | .cond test yes no => "(" ++ test.text ++ " ? " ++ yes.text ++ " : " ++ no.text ++ ")"

/-- The text of each expression. -/
def texts : List Expr → List String
  | [] => []
  | expr :: rest => expr.text :: texts rest

end

theorem texts_eq (exprs : List Expr) : texts exprs = exprs.map text := by
  induction exprs with
  | nil => rfl
  | cons expr rest ih => rw [texts, ih, List.map_cons]

/-- The text of an expression that stands between the parentheses of a construct. -/
def bare (expr : Expr) : String := Text.Parens.unwrap expr.text

end Expr

end JavaBackend.Java
