import JavaBackend.Lowering.Value

/-!
# Statements

The nodes other than loops that take statements: assignments, calls, branches, exceptions and
returns.
-/

namespace JavaBackend

open Java (Stmt Code Piece Expr Test Handler)

/-! ## Assignments and calls -/

/-- Assign a variable, and declare it if it is not known once its value is computed. -/
def lowerAssign (name : String) (value : Part) (type : JavaType) (dest : Destination) :
    Lower Unit := do
  let value ← value.toExpr
  if ← Lower.isLocal name then
    Lower.emit (.store (.into name) value)
  else
    Lower.declareLocal type.held name value
  putValue dest (.var name)

/-- A field of the current object, or of the class. -/
def fieldExpr (name : String) (isStatic : Bool) : Lower Expr := do
  let ctx ← Lower.context
  return .field (if isStatic then .owner ctx.owner else .this) name

/-- Read a field. -/
def fieldValue (name : String) (isStatic : Bool) (type : JavaType) : Lower Expr := do
  Lower.useField ⟨name, type, isStatic⟩
  fieldExpr name isStatic

/-- Assign a field. -/
def lowerSetField (name : String) (value : Part) (isStatic : Bool) (type : JavaType)
    (dest : Destination) : Lower Unit := do
  Lower.useField ⟨name, type.held, isStatic⟩
  let value ← value.toExpr
  let field ← fieldExpr name isStatic
  Lower.emit (.setField field value)
  putValue dest field

/-- The receiver of a call that names none. -/
def ownReceiver : Lower Expr := do
  let ctx ← Lower.context
  return if ctx.isStatic then .owner ctx.owner else .this

/-- A call with the values of its operands, the receiver the first of them. -/
def callExpr (receiver : Receiver Part) (method : String) (args : List Part) : Lower Expr := do
  let rule ← operandRule (receiver.toList ++ args)
  let target ←
    match receiver with
    | .implicit => ownReceiver
    | .named type => pure (.owner type.source)
    | .value target => rule target
  return .call target method (← args.mapM rule)

/-- The receiver of a call that returns nothing, and the call's value: the receiver itself, which is
    evaluated once, or `null` if it is a class. -/
def voidReceiver : Receiver Part → Lower (Expr × Expr)
  | .implicit => do
    let ctx ← Lower.context
    return (← ownReceiver, if ctx.isStatic then .literal .null else .this)
  | .named type => return (.owner type.source, .literal .null)
  | .value target => do
    let value ←
      match target.tree.kind with
      | .var _ | .self => target.toInline
      | _ => do pure (.var (← target.toFreshTemp).name)
    return (value, value)

/-- A call as a statement. -/
def lowerCall (receiver : Receiver Part) (method : String) (args : List Part)
    (returns : JavaType) (dest : Destination) : Lower Unit := do
  if returns.isVoid && dest.wantsValue then
    let (target, value) ← voidReceiver receiver
    let args ← operandValues args
    Lower.emit (.eval (.call target method args))
    putValue dest value
  else
    putEffect dest (← callExpr receiver method args)

/-! ## Branches -/

/-- A conditional. A branch that is missing is left out, or gives a default value. -/
def lowerCond (test : Part) (yes no : Option Part) (type : JavaType) (dest : Destination) :
    Lower Unit := do
  let test : Test := ⟨← test.toExpr, false⟩
  let opening : Piece := .opening (Java.ifHeading test)
  let yesCode ← Lower.block [opening] (lowerArm yes dest type.held)
  if no.isSome || dest.wantsValue then
    let noCode ← Lower.block (opening :: (Stmt.codePieces yesCode ++ [.next "else"]))
      (lowerArm no dest type.held)
    Lower.emit (.ifElse test yesCode noCode)
  else
    Lower.emit (.ifThen test yesCode)

/-- The value of a branch of a conditional expression. -/
def armExpr (type : JavaType) : Option Part → Lower Expr
  | some part => part.toInline
  | none => return .literal type.held.defaultValue

/-- A conditional expression. -/
def condExpr (test : Part) (yes no : Option Part) (type : JavaType) : Lower Expr := do
  let test ← test.toInline
  let yes ← armExpr type yes
  let no ← armExpr type no
  return .cond test yes no

/-- An operator on the values of its operands. -/
def binaryExpr (op : BinaryOp) (left right : Part) : Lower Expr := do
  let rule ← operandRule [left, right]
  let left ← rule left
  let right ← rule right
  return .binary op left right

/-- A logical operator as a branch, so that the right operand runs only if the left one does not
    decide. `decides` is the left operand's value that does. -/
def lowerLogical (decides : Bool) (left right : Part) (dest : Destination) : Lower Unit := do
  let left ← left.toExpr
  if dest.wantsValue then
    let test : Test := ⟨left, false⟩
    let opening : Piece := .opening (Java.ifHeading test)
    let run := right.toStatement dest
    let skip := putValue dest (.literal (.bool decides))
    let yes ← Lower.block [opening] (if decides then skip else run)
    let no ← Lower.block (opening :: (Stmt.codePieces yes ++ [.next "else"]))
      (if decides then run else skip)
    Lower.emit (.ifElse test yes no)
  else
    let test : Test := ⟨left, decides⟩
    let code ← Lower.block [Piece.opening (Java.ifHeading test)] (right.toStatement dest)
    Lower.emit (.ifThen test code)

/-! ## Sequences and ends -/

/-- Nodes in order. The value is that of the last. -/
def lowerSeq (type : JavaType) (dest : Destination) : List Part → Lower Unit
  | [] => putValue dest (.literal type.held.defaultValue)
  | [last] => last.toStatement dest
  | first :: rest => do
    first.toStatement .discard
    lowerSeq type dest rest

/-- Return from the method. In a method that returns nothing the value is evaluated for its
    effects. -/
def lowerReturn (value : Option Part) : Lower Unit := do
  match value with
  | none => Lower.emit .ret
  | some value =>
    if (← Lower.context).returns.isVoid then
      value.toStatement .discard
      Lower.emit .ret
    else if ← value.isExpression then
      Lower.emit (.store .result (← value.toInline))
    else
      value.toStatement (.store .result)

def lowerRaise (value : Part) : Lower Unit := do
  if ← value.isExpression then
    Lower.emit (.store .thrown (← value.toInline))
  else
    value.toStatement (.store .thrown)

/-- Print a value, or an empty text. -/
def lowerPrint (value : Option Part) (newline : Bool) (dest : Destination) : Lower Unit := do
  let value ←
    match value with
    | some value => some <$> value.toExpr
    | none => pure none
  Lower.emit (.print newline value)
  putValue dest (.literal .null)

/-! ## Exceptions -/

/-- The type of all exceptions that a clause without types catches. -/
def anyException : JavaType := .ofName "java.lang.Exception"

/-- Add a handler of one type. The exception's name is known in the handler only; a name that is
    known already is assigned from a variable of the handler's own. -/
def addHandler (opened : Thunk (List Piece)) (clause : RescueClause Part) (known : Bool)
    (body : Lower Unit) (handlers : List (Handler Code)) (type : JavaType) :
    Lower (List (Handler Code)) := do
  let opened (name : String) : List Piece :=
    opened.get ++ Stmt.handlersPieces handlers ++ [.next (Java.catchHeading type name)]
  match clause.name, known with
  | some name, false =>
    let code ← Lower.block (opened name) (Lower.withLocal name type body)
    return handlers ++ [⟨type, name, code⟩]
  | clauseName, _ =>
    let fresh ← Lower.freshName
    let code ← Lower.block (opened fresh) do
      copyInto clauseName fresh
      body
    return handlers ++ [⟨type, fresh, code⟩]

/-- Add the handlers of a clause, one for each of its types. -/
def addHandlers (opened : Thunk (List Piece)) (dest : Destination) (type : JavaType)
    (handlers : List (Handler Code)) (clause : RescueClause Part) :
    Lower (List (Handler Code)) := do
  let known ←
    match clause.name with
    | some name => Lower.isLocal name
    | none => pure false
  let types := if clause.types.isEmpty then [anyException] else clause.types
  types.foldlM (addHandler opened clause known (lowerArm clause.body dest type)) handlers

/-- The code whose exceptions are handled. With a part that runs if there was none, the value is
    that part's. -/
def guarded (body otherwise : Option Part) (type : JavaType) (dest : Destination) : Lower Unit := do
  match otherwise with
  | some part =>
    lowerArm body .discard type
    part.toStatement dest
  | none => lowerArm body dest type

/-- Handle exceptions. Without clauses there is nothing to handle. -/
def lowerRescue (body : Option Part) (clauses : List (RescueClause Part))
    (otherwise : Option Part) (type : JavaType) (dest : Destination) : Lower Unit := do
  if clauses.isEmpty then
    guarded body otherwise type.held dest
  else
    let code ← Lower.block [Piece.opening "try"] (guarded body otherwise type.held dest)
    let opened : Thunk (List Piece) := Thunk.mk fun _ => .opening "try" :: Stmt.codePieces code
    let handlers ← clauses.foldlM (addHandlers opened dest type.held) []
    Lower.emit (.tryCatch code handlers)

/-- Run a part whatever happens in another. -/
def lowerEnsure (body cleanup : Part) (dest : Destination) : Lower Unit := do
  let code ← Lower.block [Piece.opening "try"] (body.toStatement dest)
  let last ← Lower.block (Piece.opening "try" :: (Stmt.codePieces code ++ [.next "finally"]))
    (cleanup.toStatement .discard)
  Lower.emit (.tryFinally code last)

end JavaBackend
