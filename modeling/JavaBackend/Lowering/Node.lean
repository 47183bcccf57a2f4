import JavaBackend.Lowering.Loop
import JavaBackend.Lowering.Statement

/-!
# Lowering a tree

`Kind.lowering` lowers a node whose children are done, and `Tree.lowering` a whole tree, from the
leaves up. The other functions are the ways to ask for the code of a tree.
-/

namespace JavaBackend

open Java (Expr)

/-- How a node of each kind is lowered. -/
def Kind.lowering (kind : Kind Part) (type : JavaType) : Lowering :=
  match kind with
  | .literal value => .ofValue [] (return .literal value)
  | .self => .ofValue [] (return .this)
  | .var name => .ofValue [] (return .var name)
  | .assign name value =>
    { inline := some (do return .assign name (← value.toExpr))
      statement := lowerAssign name value type }
  | .field name isStatic => .ofValue [] (fieldValue name isStatic type)
  | .setField name value isStatic => .ofStatement (lowerSetField name value isStatic type)
  | .call receiver method args returns =>
    { inline := if returns.isVoid then none else some (callExpr receiver method args)
      statement := lowerCall receiver method args returns }
  | .new type args => .ofEffect (do return .new type (← operandValues args))
  | .binary .and left right =>
    { inline := some (binaryExpr .and left right), statement := lowerLogical false left right }
  | .binary .or left right =>
    { inline := some (binaryExpr .or left right), statement := lowerLogical true left right }
  | .binary op left right => .ofValue [left, right] (binaryExpr op left right)
  | .unary op operand => .ofValue [operand] (do return .unary op (← operand.toExpr))
  | .isNull value => .ofValue [value] (do return .isNull (← value.toExpr))
  | .instanceOf value type => .ofValue [value] (do return .instanceOf (← value.toExpr) type)
  | .cast type value => .ofValue [value] (do return .cast type (← value.toExpr))
  | .concat parts => .ofValue parts (do return .concat (← operandValues parts))
  | .newArray component size =>
    .ofValue [size] (do return .newArray component (← size.toExpr))
  | .cond test yes no =>
    { inline := some (condExpr test yes no type), statement := lowerCond test yes no type }
  | .seq nodes => .ofStatement fun dest => lowerSeq type dest nodes
  | .loop spec => .ofStatement fun dest => do
    lowerLoop spec
    putValue dest (.literal .null)
  | .forEach spec => .ofStatement fun dest => do
    lowerForEach spec
    putValue dest (.literal .null)
  | .jump action => .ofStatement fun _ => lowerJump action
  | .ret value => .ofStatement fun _ => lowerReturn value
  | .raise value => .ofStatement fun _ => lowerRaise value
  | .rescue body clauses otherwise =>
    .ofStatement (lowerRescue body clauses otherwise type)
  | .ensure body cleanup => .ofStatement (lowerEnsure body cleanup)
  | .print value newline => .ofStatement (lowerPrint value newline)

namespace Tree

/-- The two ways to lower a tree. -/
def lowering : Tree → Lowering := para Kind.lowering

/-- A tree as a part of a larger one. -/
def part (tree : Tree) : Part := child Kind.lowering tree

/-- Statements that put the tree's value somewhere. -/
def toStatement (tree : Tree) (dest : Destination) : Lower Unit := tree.part.toStatement dest

/-- An expression for the tree's value. -/
def toExpr (tree : Tree) : Lower Expr := tree.part.toExpr

/-- The tree's own expression, or a variable with its value where there is none. -/
def toInline (tree : Tree) : Lower Expr := tree.part.toInline

/-- Make the tree's value ready for use. -/
def toOperand (tree : Tree) : Lower Operand := tree.part.toOperand

/-- Return the tree's value from the method. -/
def toReturn (tree : Option Tree) : Lower Unit := lowerReturn (tree.map part)

/-- Lower the tree for its value, if it is wanted, or else for its effects. -/
def compile (tree : Tree) (wantsValue : Bool) : Lower (Option Expr) := do
  if wantsValue then
    return some (← tree.toExpr)
  else
    tree.toStatement .discard
    return none

theorem lowering_node (kind : Kind Tree) (type : JavaType) :
    (Tree.node kind type).lowering = (kind.map part).lowering type :=
  para_node Kind.lowering kind type

end Tree

end JavaBackend
