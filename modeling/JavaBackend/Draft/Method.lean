import JavaBackend.Draft.Scope
import JavaBackend.Fault
import JavaBackend.Java.Stmt
import JavaBackend.Text.Buffer

/-!
# Drafts of methods

A method while it is written: its signature, the text of its body so far, and its scope. A draft
goes from `pending` to `opened` to `closed`, or from `pending` to `sealed` if the method has no
body. Text is taken in the stage `opened` only and dropped in every other; the scope moves on in all
of them.
-/

namespace JavaBackend

/-- What a method is, beside its signature. -/
inductive Flavor where
  | member
  | static
  | abstract
  | constructor
  deriving DecidableEq, Repr

/-- How far a method is written. -/
inductive Stage where
  | pending
  | opened
  | sealed
  | closed
  deriving DecidableEq, Repr

/-- The signature of a method. -/
structure Signature where
  name : String
  flavor : Flavor
  /-- `void` if the method returns nothing. -/
  returns : JavaType
  params : List Param
  exceptions : List JavaType
  deriving DecidableEq, Repr

namespace Signature

def isStatic (s : Signature) : Bool := s.flavor == .static

def isAbstract (s : Signature) : Bool := s.flavor == .abstract

def isConstructor (s : Signature) : Bool := s.flavor == .constructor

/-- The signature in Java source, without what follows it. -/
def source (s : Signature) : String :=
  "public" ++ (if s.isStatic then " static" else "") ++
    (if s.isAbstract then " abstract" else "") ++ " " ++
    (if s.isConstructor then "" else s.returns.source ++ " ") ++ s.name ++ "(" ++
    ", ".intercalate (s.params.map fun param => param.type.source ++ " " ++ param.name) ++ ")" ++
    (match s.exceptions with
      | [] => ""
      | _ :: _ => " throws " ++ ", ".intercalate (s.exceptions.map JavaType.source))

end Signature

/-- Write one piece at the depth where the buffer stands. -/
def layPiece (out : Text.Buffer) : Java.Piece → Text.Buffer
  | .line text => out.putLine text
  | .opening heading =>
    (out.putLine (if heading.isEmpty then "\x7b" else heading ++ " \x7b")).indent
  | .next heading => (out.dedent.putLine ("\x7d " ++ heading ++ " \x7b")).indent
  | .closing tail => out.dedent.putLine ("\x7d" ++ tail)

/-- A method while it is written. -/
structure MethodDraft where
  signature : Signature
  out : Text.Buffer
  scope : Scope
  stage : Stage
  deriving Repr

namespace MethodDraft

/-- A draft of which nothing is written, whose blocks are indented by `step` spaces. -/
def ofSignature (signature : Signature) (step : Nat) : MethodDraft :=
  ⟨signature, .ofStep step, .ofParams signature.params, .pending⟩

/-- Write the signature and open the body, or seal a method without one. Only a pending method is
    changed. -/
def start (m : MethodDraft) : MethodDraft :=
  match m.stage with
  | .pending =>
    if m.signature.isAbstract then
      { m with out := m.out.putLine (m.signature.source ++ ";"), stage := .sealed }
    else
      { m with out := (m.out.putLine (m.signature.source ++ " \x7b")).indent, stage := .opened }
  | _ => m

/-- Close the body. Only an open method is changed. -/
def stop (m : MethodDraft) : MethodDraft :=
  match m.stage with
  | .opened => { m with out := m.out.dedent.putLine "\x7d", stage := .closed }
  | _ => m

/-- Write to the body, if it is open. -/
def write (m : MethodDraft) (f : Text.Buffer → Text.Buffer) : MethodDraft :=
  match m.stage with
  | .opened => { m with out := f m.out }
  | _ => m

/-- Continue the current line. -/
def print (m : MethodDraft) (text : String) : MethodDraft := m.write (·.print text)

/-- Finish the current line. -/
def putLine (m : MethodDraft) (line : String) : MethodDraft := m.write (·.putLine line)

/-- Lay out pieces, one after another. -/
def lay (m : MethodDraft) (pieces : Thunk (List Java.Piece)) : MethodDraft :=
  m.write fun out => pieces.get.foldl layPiece out

/-- Open a block under a heading, or a bare one if the heading is empty. -/
def openBlock (m : MethodDraft) (heading : String) : MethodDraft :=
  m.write (layPiece · (.opening heading))

/-- Close a block, with `tail` behind the brace. -/
def closeBlock (m : MethodDraft) (tail : String) : MethodDraft :=
  m.write (layPiece · (.closing tail))

/-- Close a block and open the next at the same depth. -/
def nextBlock (m : MethodDraft) (heading : String) : MethodDraft :=
  m.write (layPiece · (.next heading))

/-! ## Variables -/

def isLocal (m : MethodDraft) (name : String) : Bool := m.scope.isLocal name

def localType? (m : MethodDraft) (name : String) : Option JavaType := m.scope.locals.type? name

/-- Declare a variable, with its type's default value if there is no other, and whether that was
    done: a name that is known already is left alone. -/
def declareLocal (m : MethodDraft) (type : JavaType) (name : String) (init : Option String) :
    Bool × MethodDraft :=
  match m.scope.reserve? name type with
  | none => (false, m)
  | some scope =>
    (true, { m with scope := scope }.putLine
      (Java.declaration type name (init.getD type.defaultValue.source)))

/-- Know a variable that is declared by other means, and whether it is new. -/
def learnLocal (m : MethodDraft) (type : JavaType) (name : String) : Bool × MethodDraft :=
  match m.scope.reserve? name type with
  | none => (false, m)
  | some scope => (true, { m with scope := scope })

/-- Forget a variable, and the type it had. -/
def forgetLocal (m : MethodDraft) (name : String) : Option JavaType × MethodDraft :=
  (m.localType? name, { m with scope := m.scope.release name })

/-- A name for a temporary. -/
def freshName (m : MethodDraft) : String × MethodDraft :=
  let (name, scope) := m.scope.freshName
  (name, { m with scope := scope })

/-- Declare a temporary, with its type's default value if there is no other. -/
def newTemp (m : MethodDraft) (type : JavaType) (init : Option String) : String × MethodDraft :=
  let (name, scope) := m.scope.freshTemp type
  (name, { m with scope := scope }.putLine
    (Java.declaration type name (init.getD type.defaultValue.source)))

def freshLabel (m : MethodDraft) : String × MethodDraft :=
  let (name, scope) := m.scope.freshLabel
  (name, { m with scope := scope })

/-! ## Parts of a line -/

/-- Continue the line with a literal. -/
def printLiteral (m : MethodDraft) (value : Literal) : MethodDraft := m.print value.source

/-- Continue an expression with a test of its class. -/
def printInstanceOf (m : MethodDraft) (type : JavaType) : MethodDraft :=
  m.print (" instanceof " ++ type.source)

/-- Continue the line with the constant of a directive. -/
def printDirective (m : MethodDraft) (directive : String) : Except Fault MethodDraft :=
  match Directive.literal? directive with
  | some value => .ok (m.printLiteral value)
  | none => .error (.unknownDirective directive)

end MethodDraft

end JavaBackend
