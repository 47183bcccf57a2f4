import JavaBackend.Lowering.Basic
import JavaBackend.Source.Shape

/-!
# Values of nodes

A node is lowered in one of two ways: as an expression, after the statements that it needs, or as
statements that put its value somewhere. `Lowering` holds both for a node whose children are done.
This module says how a parent asks for a child's value, and how the operands of a node are
evaluated.

Operands are evaluated in order. As soon as one of them needs statements, all of them are evaluated
into variables first, except those whose value cannot change in between.
-/

namespace JavaBackend

open Java (Expr Sink)

/-- What becomes of the value of a statement. -/
inductive Destination where
  | discard
  | store (sink : Sink)
  deriving DecidableEq, Repr

def Destination.wantsValue : Destination → Bool
  | .discard => false
  | .store _ => true

/-- The two ways to lower a node. -/
structure Lowering where
  /-- The node's own expression, if nodes of its kind have one. -/
  inline : Option (Lower Expr)
  /-- Statements that put the node's value somewhere. -/
  statement : Destination → Lower Unit

/-- A node as its parent sees it. -/
abbrev Part := Tree.Child Lowering

/-- A variable that holds the value of a node. -/
structure Temp where
  name : String
  /-- The node, unless the variable is not there for the node alone. -/
  source : Option Part

/-- A value that is ready for use in an expression. -/
inductive Operand where
  | node (part : Part)
  | held (temp : Temp)

/-- Whether a node's own expression can be used, given the names that are variables. An assignment
    can if it need not declare its variable, and a construct that may leave some of its operands out
    can if none of them needs statements, which would run in any case. -/
def Tree.isInline (isLocal : String → Bool) (tree : Tree) : Bool :=
  match tree.kind with
  | .assign name _ => isLocal name
  | .binary op _ _ => !op.isLogical || tree.isExpression isLocal
  | .cond _ _ _ => tree.isExpression isLocal
  | _ => true

namespace Part

/-- Statements that put the node's value somewhere. -/
def toStatement (part : Part) (dest : Destination) : Lower Unit := part.result.get.statement dest

/-- Whether the node can be written as a single expression, here and now. -/
def isExpression (part : Part) : Lower Bool :=
  return part.tree.isExpression (← Lower.scope).isLocal

/-- Lower the node as statements and leave its value in a variable. A loop has the value `null`, and
    the value of an assignment is in the variable that it assigns. -/
def toTemp (part : Part) : Lower Temp :=
  match part.tree.kind with
  | .loop _ | .forEach _ => do
    part.toStatement .discard
    return ⟨← Lower.newTemp .object (.literal .null), none⟩
  | .assign name _ => do
    part.toStatement .discard
    return ⟨name, none⟩
  | _ => do
    let name ← Lower.newDefaultTemp part.tree.type.held
    part.toStatement (.store (.into name))
    return ⟨name, some part⟩

/-- The node's own expression, or a variable with its value where there is none. -/
def toInline (part : Part) : Lower Expr := do
  match part.result.get.inline with
  | some inline =>
    if part.tree.isInline (← Lower.scope).isLocal then inline
    else return .var (← part.toTemp).name
  | none => return .var (← part.toTemp).name

/-- An expression for the node's value. -/
def toExpr (part : Part) : Lower Expr := do
  if (← part.isExpression) || part.tree.kind.combinesOperands then
    part.toInline
  else
    return .var (← part.toTemp).name

/-- Evaluate the node into a variable now. -/
def toFreshTemp (part : Part) : Lower Temp := do
  if ← part.isExpression then
    let init ← part.toInline
    return ⟨← Lower.newTemp part.tree.type.held init, some part⟩
  else
    part.toTemp

/-- Make the node's value ready for use: a node that is an expression is left for later. -/
def toOperand (part : Part) : Lower Operand := do
  if ← part.isExpression then
    return .node part
  else
    return .held (← part.toTemp)

/-- The value of an operand that must be evaluated before those that follow it. -/
def toFixed (part : Part) : Lower Expr :=
  match part.tree.kind with
  | .literal _ | .self => part.toInline
  | _ => return .var (← part.toFreshTemp).name

end Part

/-- Evaluate the node again into its variable. -/
def Temp.refresh (temp : Temp) : Lower Unit :=
  match temp.source with
  | some part => part.toStatement (.store (.into temp.name))
  | none => return

/-- The expression of an operand. -/
def Operand.toExpr : Operand → Lower Expr
  | .node part => part.toInline
  | .held temp => return .var temp.name

/-- How each of some operands is evaluated. -/
def operandRule (parts : List Part) : Lower (Part → Lower Expr) := do
  let isLocal := (← Lower.scope).isLocal
  return if parts.all (·.tree.isExpression isLocal) then Part.toInline else Part.toFixed

/-- The values of operands, evaluated in order. -/
def operandValues (parts : List Part) : Lower (List Expr) := do
  let rule ← operandRule parts
  parts.mapM rule

/-- Put a value that is at hand where it belongs. -/
def putValue (dest : Destination) (value : Expr) : Lower Unit :=
  match dest with
  | .discard => return
  | .store sink => Lower.emit (.store sink value)

/-- Put a value where it belongs that must be evaluated in any case. -/
def putEffect (dest : Destination) (value : Expr) : Lower Unit :=
  match dest with
  | .discard => Lower.emit (.eval value)
  | .store sink => Lower.emit (.store sink value)

/-- Copy a variable into another one, if there is one. -/
def copyInto (name : Option String) (copied : String) : Lower Unit :=
  match name with
  | some name => Lower.emit (.store (.into name) (.var copied))
  | none => return

/-- Lower a part that may be missing, with a default value in its place. -/
def lowerArm (part : Option Part) (dest : Destination) (type : JavaType) : Lower Unit :=
  match part with
  | some part => part.toStatement dest
  | none => putValue dest (.literal type.defaultValue)

/-- Lower a part that may be missing, for its effects. -/
def lowerEffects : Option Part → Lower Unit
  | some part => part.toStatement .discard
  | none => return

namespace Lowering

/-- A node that only has a value. If nobody wants it, the operands are still evaluated. -/
def ofValue (children : List Part) (value : Lower Expr) : Lowering where
  inline := some value
  statement
    | .discard => children.forM (·.toStatement .discard)
    | .store sink => do Lower.emit (.store sink (← value))

/-- A node whose value must be evaluated whether anybody wants it or not. -/
def ofEffect (value : Lower Expr) : Lowering where
  inline := some value
  statement dest := do putEffect dest (← value)

/-- A node that takes statements. -/
def ofStatement (statement : Destination → Lower Unit) : Lowering where
  inline := none
  statement := statement

end Lowering

end JavaBackend
