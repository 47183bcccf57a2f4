import JavaBackend.JavaType
import Std.Data.TreeMap.Lemmas

/-!
# The scope of a method

The variables that a method knows, with their types, and the supply of names for temporaries and
labels. Numbers count up and are never used twice, so no two names of one supply are the same. They are
not bounded: a supply that counts in 32 bits hands out the same names as long as there are fewer than
`2 ^ 32` of them.
-/

namespace JavaBackend

/-- The known variables. The view of them is `type?`. -/
structure Locals where
  entries : Std.TreeMap String JavaType
  deriving Repr

namespace Locals

def empty : Locals := ⟨∅⟩

def type? (locals : Locals) (name : String) : Option JavaType :=
  locals.entries[name]?

def contains (locals : Locals) (name : String) : Bool :=
  (locals.type? name).isSome

def erase (locals : Locals) (name : String) : Locals :=
  ⟨locals.entries.erase name⟩

/-- Know a name with a type, whatever its type was before. -/
def insert (locals : Locals) (name : String) (type : JavaType) : Locals :=
  ⟨locals.entries.insert name type⟩

@[simp]
theorem type?_empty (name : String) : empty.type? name = none := by
  simp [type?, empty]

theorem type?_erase (locals : Locals) (erased name : String) :
    (locals.erase erased).type? name = if erased = name then none else locals.type? name := by
  simp [type?, erase, Std.TreeMap.getElem?_erase]

theorem type?_insert (locals : Locals) (inserted name : String) (type : JavaType) :
    (locals.insert inserted type).type? name =
      if inserted = name then some type else locals.type? name := by
  simp [type?, insert, Std.TreeMap.getElem?_insert]

end Locals

/-- A name with its type: a parameter, or a variable to declare. -/
structure Param where
  name : String
  type : JavaType
  deriving DecidableEq, Repr

/-- What is known while a method is written. -/
structure Scope where
  locals : Locals
  /-- Names of temporaries handed out so far. -/
  temps : Nat
  /-- Labels handed out so far. -/
  labels : Nat
  deriving Repr

/-- The name of a temporary. -/
def tempName (n : Nat) : String := "temp$" ++ toString n

/-- The name of a label. -/
def labelName (n : Nat) : String := "label" ++ toString n

namespace Scope

/-- The scope of a method that is not written yet: of two parameters of one name, the later. -/
def ofParams (params : List Param) : Scope :=
  ⟨params.foldl (fun locals param => locals.insert param.name param.type) .empty, 0, 0⟩

def isLocal (scope : Scope) (name : String) : Bool := scope.locals.contains name

/-- Know a variable, unless the name is known already. -/
def reserve? (scope : Scope) (name : String) (type : JavaType) : Option Scope :=
  if scope.isLocal name then none
  else some { scope with locals := scope.locals.insert name type }

/-- Forget a variable. -/
def release (scope : Scope) (name : String) : Scope :=
  { scope with locals := scope.locals.erase name }

/-- A name for a temporary, which is not known as a variable yet. -/
def freshName (scope : Scope) : String × Scope :=
  (tempName (scope.temps + 1), { scope with temps := scope.temps + 1 })

/-- A temporary of a type. -/
def freshTemp (scope : Scope) (type : JavaType) : String × Scope :=
  let (name, next) := scope.freshName
  (name, { next with locals := next.locals.insert name type })

def freshLabel (scope : Scope) : String × Scope :=
  (labelName (scope.labels + 1), { scope with labels := scope.labels + 1 })

end Scope

end JavaBackend
