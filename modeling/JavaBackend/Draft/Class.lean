import JavaBackend.Annotations
import JavaBackend.Draft.Method

/-!
# Drafts of classes

A class or an interface while it is written. Its header is written once, with the first member or at
the end; from then on nothing that the header shows can change. Fields are written as they are
declared, and the methods after all fields, when the text is put together.
-/

namespace JavaBackend

/-- How generated sources look. -/
structure Style where
  /-- Spaces per level of indentation. -/
  indent : Nat := 2
  /-- Each source starts with a comment that names what it comes from. -/
  provenance : Bool := true
  /-- The extension of the sources' names, without the dot. -/
  extension : String := "java"
  deriving DecidableEq, Repr

/-- Whether a type is a class or an interface. -/
inductive Shape where
  | classType (superclass : JavaType) (isAbstract : Bool)
  | interface
  deriving DecidableEq, Repr

/-- A qualified name split into its package, if it has one, and the simple name: at the last dot. -/
def splitName (name : String) : Option String × String :=
  let reversed := (dotted name).toList.reverse
  let simple := String.ofList (reversed.takeWhile (· != '.')).reverse
  match reversed.dropWhile (· != '.') with
  | [] => (none, simple)
  | _ :: package => (some (String.ofList package.reverse), simple)

/-- A type while it is written. -/
structure ClassDraft where
  sourceName : String
  package : Option String
  simpleName : String
  shape : Shape
  interfaces : List JavaType
  annotations : List AnnotationUse
  /-- The header and the fields. -/
  out : Text.Buffer
  /-- The names of the declared fields. -/
  fields : List String
  methods : List MethodDraft
  isSealed : Bool
  style : Style

namespace ClassDraft

/-- A draft of which nothing is written. A name without a package gets the default one. -/
def new (style : Style) (sourceName : String) (defaultPackage : Option String) (name : String)
    (shape : Shape) (interfaces : List JavaType) : ClassDraft :=
  let (package, simpleName) := splitName name
  { sourceName := sourceName
    package := package <|> defaultPackage
    simpleName := simpleName
    shape := shape
    interfaces := interfaces
    annotations := []
    out := .ofStep style.indent
    fields := []
    methods := []
    isSealed := false
    style := style }

def isInterface (c : ClassDraft) : Bool :=
  match c.shape with
  | .interface => true
  | .classType _ _ => false

/-- The path of the source: a folder for each part of the package. -/
def path (c : ClassDraft) : String :=
  let file := c.simpleName ++ "." ++ c.style.extension
  match c.package with
  | some package => mapChars (fun ch => if ch = '.' then '/' else ch) package ++ "/" ++ file
  | none => file

/-! ## The header -/

/-- Change the header, if it is not written yet. -/
def change (c : ClassDraft) (part : HeaderPart) (f : ClassDraft → Except Fault ClassDraft) :
    Except Fault ClassDraft :=
  if c.isSealed then .error (.headerSealed c.simpleName part) else f c

def setPackage (c : ClassDraft) (package : String) : Except Fault ClassDraft :=
  c.change .package fun c => .ok { c with package := some package }

def setSuperclass (c : ClassDraft) (superclass : JavaType) : Except Fault ClassDraft :=
  c.change .superclass fun c =>
    match c.shape with
    | .classType _ isAbstract => .ok { c with shape := .classType superclass isAbstract }
    | .interface => .error (.interfaceSuperclass c.simpleName)

/-- Make a class abstract or not. An interface stays as it is. -/
def setAbstract (c : ClassDraft) (isAbstract : Bool) : Except Fault ClassDraft :=
  c.change .abstractFlag fun c =>
    match c.shape with
    | .classType superclass _ => .ok { c with shape := .classType superclass isAbstract }
    | .interface => .ok c

def addInterface (c : ClassDraft) (type : JavaType) : Except Fault ClassDraft :=
  c.change .interfaces fun c => .ok { c with interfaces := c.interfaces ++ [type] }

def annotate (c : ClassDraft) (use : AnnotationUse) : Except Fault ClassDraft :=
  c.change .annotations fun c => .ok { c with annotations := c.annotations ++ [use] }

/-- The line that opens the type. -/
def heading (c : ClassDraft) : String :=
  let list (keyword : String) : String :=
    match c.interfaces with
    | [] => ""
    | _ :: _ => keyword ++ ", ".intercalate (c.interfaces.map JavaType.source)
  match c.shape with
  | .classType superclass isAbstract =>
    "public " ++ (if isAbstract then "abstract " else "") ++ "class " ++ c.simpleName ++
      " extends " ++ superclass.source ++ list " implements " ++ " \x7b"
  | .interface => "public interface " ++ c.simpleName ++ list " extends " ++ " \x7b"

/-- The lines of the header. -/
def headerLines (c : ClassDraft) : List String :=
  (if c.style.provenance then ["// Generated from " ++ c.sourceName] else []) ++
    (match c.package with
      | some package => ["package " ++ package ++ ";", ""]
      | none => []) ++
    c.annotations.map AnnotationUse.source ++ [c.heading]

/-- Write the header, if it is not written yet. -/
def sealHeader (c : ClassDraft) : ClassDraft :=
  if c.isSealed then c
  else { c with out := (c.out.putLines c.headerLines).indent, isSealed := true }

/-! ## Members -/

def hasField (c : ClassDraft) (name : String) : Bool := c.fields.contains name

/-- Declare a field, and whether that was done: only the first declaration of a name counts. -/
def addField (c : ClassDraft) (name : String) (type : JavaType) (isStatic : Bool)
    (annotations : List AnnotationUse) : Bool × ClassDraft :=
  if c.hasField name then (false, c)
  else
    let c := c.sealHeader
    (true, { c with
      out := c.out.putLines (annotations.map AnnotationUse.source ++
        ["private " ++ (if isStatic then "static " else "") ++ type.source ++ " " ++ name ++ ";"])
      fields := name :: c.fields })

/-- Add a method, whose position is returned. -/
def pushMethod (c : ClassDraft) (signature : Signature) : Nat × ClassDraft :=
  let c := c.sealHeader
  (c.methods.length,
    { c with methods := c.methods ++ [MethodDraft.ofSignature signature c.style.indent] })

/-- Declare a method of objects. In an interface it has no body. -/
def addMethod (c : ClassDraft) (name : String) (params : List Param) (returns : JavaType)
    (exceptions : List JavaType) : Nat × ClassDraft :=
  c.pushMethod ⟨name, if c.isInterface then .abstract else .member, returns, params, exceptions⟩

def addAbstractMethod (c : ClassDraft) (name : String) (params : List Param)
    (returns : JavaType) (exceptions : List JavaType) : Nat × ClassDraft :=
  c.pushMethod ⟨name, .abstract, returns, params, exceptions⟩

def addStaticMethod (c : ClassDraft) (name : String) (params : List Param)
    (returns : JavaType) (exceptions : List JavaType) : Except Fault (Nat × ClassDraft) :=
  if c.isInterface then .error (.staticInterfaceMethod c.simpleName name)
  else .ok (c.pushMethod ⟨name, .static, returns, params, exceptions⟩)

def addConstructor (c : ClassDraft) (params : List Param) (exceptions : List JavaType) :
    Except Fault (Nat × ClassDraft) :=
  if c.isInterface then .error (.interfaceConstructor c.simpleName)
  else .ok (c.pushMethod ⟨c.simpleName, .constructor, .void, params, exceptions⟩)

/-- Declare the method that a program starts with. -/
def addMain (c : ClassDraft) : Except Fault (Nat × ClassDraft) :=
  c.addStaticMethod "main" [⟨"argv", .array .string⟩] .void []

/-- Put another draft in the place of a method. -/
def setMethod (c : ClassDraft) (index : Nat) (m : MethodDraft) : ClassDraft :=
  { c with methods := c.methods.set index m }

/-- Change a method's draft. -/
def modifyMethod (c : ClassDraft) (index : Nat) (f : MethodDraft → MethodDraft) : ClassDraft :=
  { c with methods := c.methods.modify index f }

/-! ## The text -/

/-- Splice the methods in, with an empty line between two members. -/
def appendMethods (out : Text.Buffer) : Bool → List MethodDraft → Text.Buffer
  | _, [] => out
  | separate, m :: rest =>
    appendMethods ((if separate then out.putLine "" else out).append m.out) true rest

/-- The whole text of the type. -/
def text (c : ClassDraft) : String :=
  let c := c.sealHeader
  ((appendMethods c.out (!c.fields.isEmpty) c.methods).dedent.putLine "\x7d").text

end ClassDraft

end JavaBackend
