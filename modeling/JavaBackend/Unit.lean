import JavaBackend.Draft.Unit
import JavaBackend.Lowering.Draft

/-!
# Units

The declarations of a source, and the Java sources that are generated from them: one per type, all
of them or none.
-/

namespace JavaBackend

/-- A declared field. -/
structure FieldDecl where
  name : String
  type : JavaType
  isStatic : Bool
  annotations : List AnnotationUse

/-- The call of another constructor that opens a constructor. -/
structure Delegate where
  toSuper : Bool
  args : List Tree

/-- What a declared method is. -/
inductive MethodKind where
  | member
  | static
  | abstract
  | constructor (delegate : Option Delegate)

/-- A declared method. The name of a constructor is that of its class. -/
structure MethodDecl where
  name : String
  kind : MethodKind
  params : List Param
  returns : JavaType
  exceptions : List JavaType
  /-- Variables that are declared at the start. -/
  locals : List Param
  body : Option Tree

/-- Whether a declared type is a class or an interface. -/
inductive TypeKind where
  | classType (superclass : Option JavaType) (isAbstract : Bool)
  | interface

/-- A declared type. -/
structure TypeDecl where
  name : String
  kind : TypeKind
  interfaces : List JavaType
  annotations : List AnnotationUse
  fields : List FieldDecl
  methods : List MethodDecl

/-- The types that one source declares. -/
structure CompilationUnit where
  sourceName : String
  package : Option String
  types : List TypeDecl

/-! ## Bodies -/

/-- An argument for another constructor, where Java takes no statements. -/
def delegateArg (arg : Tree) : Lower Java.Expr := do
  if ← arg.part.isExpression then
    arg.toInline
  else
    Lower.fail (.invalidDelegateArgument arg.kind.name)

/-- Call another constructor. -/
def Delegate.lower (delegate : Delegate) : Lower Unit := do
  let args ← delegate.args.mapM delegateArg
  Lower.emit (.delegate delegate.toSuper args)

namespace MethodKind

def isConstructor : MethodKind → Bool
  | .constructor _ => true
  | _ => false

/-- Call the other constructor that opens a constructor, if there is one. -/
def lowerDelegate : MethodKind → Lower Unit
  | .constructor (some delegate) => delegate.lower
  | _ => return

end MethodKind

/-- The body of a method: the other constructor's call, the variables, and the code, whose value is
    returned if the method returns one. -/
def MethodDecl.lower (decl : MethodDecl) : Lower Unit := do
  decl.kind.lowerDelegate
  decl.locals.forM fun param =>
    Lower.declareLocal param.type param.name (.literal param.type.defaultValue)
  match decl.body with
  | none => return
  | some body =>
    if decl.returns.isVoid || decl.kind.isConstructor then
      body.toStatement .discard
    else
      Tree.toReturn (some body)

/-! ## Drafts -/

/-- Declare a method. -/
def MethodDecl.declare (decl : MethodDecl) (c : ClassDraft) : Except Fault (Nat × ClassDraft) :=
  match decl.kind with
  | .member => .ok (c.addMethod decl.name decl.params decl.returns decl.exceptions)
  | .static => c.addStaticMethod decl.name decl.params decl.returns decl.exceptions
  | .abstract => .ok (c.addAbstractMethod decl.name decl.params decl.returns decl.exceptions)
  | .constructor _ => c.addConstructor decl.params decl.exceptions

/-- Add a method to a class. A method without a body ends with its signature. -/
def MethodDecl.addTo (decl : MethodDecl) (c : ClassDraft) : Except Fault ClassDraft := do
  let (index, c) ← decl.declare c
  let c := c.modifyMethod index MethodDraft.start
  if c.methods[index]?.any (·.stage == .sealed) then
    return c
  let (result, c) := c.lower index [] decl.lower
  result
  return c.modifyMethod index MethodDraft.stop

/-- The draft of a declared type. -/
def TypeDecl.draft (decl : TypeDecl) (u : UnitDraft) : Except Fault ClassDraft := do
  let c ←
    match decl.kind with
    | .classType superclass isAbstract =>
      (u.newClass decl.name superclass decl.interfaces).setAbstract isAbstract
    | .interface => pure (u.newInterface decl.name decl.interfaces)
  let c ← decl.annotations.foldlM ClassDraft.annotate c
  let c := decl.fields.foldl
    (fun c field => (c.addField field.name field.type field.isStatic field.annotations).2) c
  decl.methods.foldlM (fun c method => method.addTo c) c

/-- The draft of a declared unit. -/
def CompilationUnit.draft (decl : CompilationUnit) (style : Style) : Except Fault UnitDraft := do
  let u : UnitDraft := { UnitDraft.new decl.sourceName style with package := decl.package }
  decl.types.foldlM (fun u type => return u.push (← type.draft u)) u

/-- The Java sources of a unit, or the first fault. -/
def CompilationUnit.compile (decl : CompilationUnit) (style : Style) :
    Except Fault (List Artifact) :=
  return (← decl.draft style).artifacts

end JavaBackend
