import JavaBackend.Java.Expr

/-!
# Java statements

The statements that generated code is made of. A statement is laid out as a list of `Piece`s: lines,
and the lines that open, change and close a block. Nothing in a piece depends on the depth at which
it stands, so the pieces of a list of statements are those of its members one after another.
-/

namespace JavaBackend.Java

/-- A step in laying out statements. -/
inductive Piece where
  | line (text : String)
  /-- Open a block under a heading, or a bare one if the heading is empty. -/
  | opening (heading : String)
  /-- Close a block and open the next under a heading. -/
  | next (heading : String)
  /-- Close a block, with text behind the brace. -/
  | closing (tail : String)
  deriving DecidableEq, Repr

/-- Where a statement puts a value. -/
inductive Sink where
  /-- Into a variable. -/
  | into (name : String)
  /-- Out of the method, as its result. -/
  | result
  /-- Out of the method, as an exception. -/
  | thrown
  /-- Behind any text. -/
  | lead (text : String)
  deriving DecidableEq, Repr

/-- What stands in front of the value. -/
def Sink.text : Sink → String
  | .into name => name ++ " = "
  | .result => "return "
  | .thrown => "throw "
  | .lead text => text

/-- The condition of a branch or a loop. -/
structure Test where
  expr : Expr
  /-- The condition holds if the expression does not. -/
  negated : Bool

def Test.text (test : Test) : String :=
  if test.negated then "!(" ++ test.expr.bare ++ ")" else test.expr.bare

/-- The handling of one type of exceptions. -/
structure Handler (σ : Type) where
  type : JavaType
  /-- The name that the exception is bound to. -/
  name : String
  body : σ

/-- A Java statement. -/
inductive Stmt where
  | declare (type : JavaType) (name : String) (init : Expr)
  | store (sink : Sink) (value : Expr)
  | setField (field value : Expr)
  /-- An expression for its effects. -/
  | eval (expr : Expr)
  /-- Return from a method that returns nothing. -/
  | ret
  | print (newline : Bool) (value : Option Expr)
  /-- Call another constructor, of the superclass or of the same class. -/
  | delegate (toSuper : Bool) (args : List Expr)
  | break (label : Option String)
  | continue (label : Option String)
  | labeled (label : String) (body : Stmt)
  | block (body : List Stmt)
  | ifThen (test : Test) (yes : List Stmt)
  | ifElse (test : Test) (yes no : List Stmt)
  | whileLoop (test : Test) (body : List Stmt)
  | doLoop (body : List Stmt) (test : Test)
  | forEach (type : JavaType) (name : String) (iterable : Expr) (body : List Stmt)
  | tryCatch (body : List Stmt) (handlers : List (Handler (List Stmt)))
  | tryFinally (body cleanup : List Stmt)

/-- The statements of a block. -/
abbrev Code := List Stmt

/-! ## Headings -/

def ifHeading (test : Test) : String := "if (" ++ test.text ++ ")"

def whileHeading (test : Test) : String := "while (" ++ test.text ++ ")"

def forHeading (type : JavaType) (name : String) (iterable : Expr) : String :=
  "for (" ++ type.source ++ " " ++ name ++ " : " ++ iterable.bare ++ ")"

def catchHeading (type : JavaType) (name : String) : String :=
  "catch (" ++ type.source ++ " " ++ name ++ ")"

/-- What follows the brace of a loop that is tested at its end. -/
def doTail (test : Test) : String := " while (" ++ test.text ++ ");"

/-! ## Layout -/

/-- The declaration of a variable. -/
def declaration (type : JavaType) (name init : String) : String :=
  type.source ++ " " ++ name ++ " = " ++ init ++ ";"

/-- A jump with its label. -/
def jump (keyword : String) : Option String → String
  | some label => keyword ++ " " ++ label ++ ";"
  | none => keyword ++ ";"

namespace Stmt

mutual

/-- The statement laid out. -/
def pieces : Stmt → List Piece
  | .declare type name init => [.line (declaration type name init.text)]
  | .store sink value => [.line (sink.text ++ value.text ++ ";")]
  | .setField field value => [.line (field.text ++ " = " ++ value.text ++ ";")]
  | .eval expr => [.line (expr.text ++ ";")]
  | .ret => [.line "return;"]
  | .print newline value =>
    [.line ("System.out." ++ (if newline then "println" else "print") ++ "(" ++
      (value.map Expr.text).getD "" ++ ");")]
  | .delegate toSuper args =>
    [.line ((if toSuper then "super" else "this") ++ "(" ++ ", ".intercalate (Expr.texts args) ++
      ");")]
  | .break label => [.line (jump "break" label)]
  | .continue label => [.line (jump "continue" label)]
  | .labeled label body => .line (label ++ ":") :: body.pieces
  | .block body => .opening "" :: (codePieces body ++ [.closing ""])
  | .ifThen test yes => .opening (ifHeading test) :: (codePieces yes ++ [.closing ""])
  | .ifElse test yes no =>
    .opening (ifHeading test) ::
      (codePieces yes ++ .next "else" :: (codePieces no ++ [.closing ""]))
  | .whileLoop test body => .opening (whileHeading test) :: (codePieces body ++ [.closing ""])
  | .doLoop body test => .opening "do" :: (codePieces body ++ [.closing (doTail test)])
  | .forEach type name iterable body =>
    .opening (forHeading type name iterable) :: (codePieces body ++ [.closing ""])
  | .tryCatch body handlers =>
    .opening "try" :: (codePieces body ++ handlersPieces handlers ++ [.closing ""])
  | .tryFinally body cleanup =>
    .opening "try" :: (codePieces body ++ .next "finally" :: (codePieces cleanup ++ [.closing ""]))

/-- The statements of a block laid out. -/
def codePieces : List Stmt → List Piece
  | [] => []
  | stmt :: rest => stmt.pieces ++ codePieces rest

/-- A handler laid out: it follows a block that is still open, and leaves its own open. -/
def handlerPieces : Handler (List Stmt) → List Piece
  | ⟨type, name, body⟩ => .next (catchHeading type name) :: codePieces body

def handlersPieces : List (Handler (List Stmt)) → List Piece
  | [] => []
  | handler :: rest => handlerPieces handler ++ handlersPieces rest

end

theorem codePieces_append (first second : Code) :
    codePieces (first ++ second) = codePieces first ++ codePieces second := by
  induction first with
  | nil => rfl
  | cons stmt rest ih => rw [List.cons_append, codePieces, codePieces, ih, List.append_assoc]

end Stmt

end JavaBackend.Java
