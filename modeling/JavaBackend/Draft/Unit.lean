import JavaBackend.Draft.Class

/-!
# Drafts of units

The types that are generated from one source, in the order of their declaration.
-/

namespace JavaBackend

/-- A generated source file. -/
structure Artifact where
  path : String
  text : String
  deriving DecidableEq, Repr

/-- The types of one source while they are written. -/
structure UnitDraft where
  sourceName : String
  package : Option String
  style : Style
  classes : List ClassDraft

namespace UnitDraft

def new (sourceName : String) (style : Style) : UnitDraft := ⟨sourceName, none, style, []⟩

/-- Give a package to the types that are declared from now on without one. -/
def setPackage (u : UnitDraft) (package : String) : UnitDraft := { u with package := some package }

/-- The draft of a new type of this unit. -/
def newType (u : UnitDraft) (name : String) (shape : Shape) (interfaces : List JavaType) :
    ClassDraft :=
  .new u.style u.sourceName u.package name shape interfaces

/-- The draft of a new class, below the root of all classes if there is no other superclass. -/
def newClass (u : UnitDraft) (name : String) (superclass : Option JavaType)
    (interfaces : List JavaType) : ClassDraft :=
  u.newType name (.classType (superclass.getD .object) false) interfaces

def newInterface (u : UnitDraft) (name : String) (interfaces : List JavaType) : ClassDraft :=
  u.newType name .interface interfaces

/-- Add a type. -/
def push (u : UnitDraft) (c : ClassDraft) : UnitDraft := { u with classes := u.classes ++ [c] }

/-- The sources of all types. -/
def artifacts (u : UnitDraft) : List Artifact :=
  u.classes.map fun c => ⟨c.path, c.text⟩

end UnitDraft

end JavaBackend
