/-!
# Java types

The types of values and methods, and how they are spelled in Java source. A reference type keeps
its qualified binary name, in which `$` separates a nested class from the class around it.
-/

namespace JavaBackend

/-- A Java type, or `void` for a method that returns nothing. -/
inductive JavaType where
  | void
  | boolean
  | byte
  | char
  | short
  | int
  | long
  | float
  | double
  | reference (name : String)
  | array (component : JavaType)
  deriving DecidableEq, Repr

/-- Replace each character of a text. -/
def mapChars (f : Char → Char) (text : String) : String :=
  String.ofList (text.toList.map f)

/-- A qualified name with dots between its parts, where slashes are accepted too. -/
def dotted (name : String) : String :=
  mapChars (fun c => if c = '/' then '.' else c) name

namespace JavaType

/-- The qualified name of the root of all classes. -/
def objectName : String := "java.lang.Object"

/-- The root of all classes. -/
def object : JavaType := .reference objectName

/-- The class of strings. -/
def string : JavaType := .reference "java.lang.String"

/-- The class or interface of a name, whose parts dots or slashes separate. -/
def ofName (name : String) : JavaType := .reference (dotted name)

def isVoid : JavaType → Bool
  | .void => true
  | _ => false

def isBoolean : JavaType → Bool
  | .boolean => true
  | _ => false

/-- The types of plain values, `boolean` among them. -/
def isPrimitive : JavaType → Bool
  | .void | .reference _ | .array _ => false
  | _ => true

def isArray : JavaType → Bool
  | .array _ => true
  | _ => false

def isObject : JavaType → Bool
  | .reference name => name == objectName
  | _ => false

/-- The type of an array's elements. -/
def component? : JavaType → Option JavaType
  | .array component => some component
  | _ => none

/-- The type in Java source. The root class is always in scope and needs no package. -/
def source : JavaType → String
  | .void => "void"
  | .boolean => "boolean"
  | .byte => "byte"
  | .char => "char"
  | .short => "short"
  | .int => "int"
  | .long => "long"
  | .float => "float"
  | .double => "double"
  | .reference name =>
    if name = objectName then "Object" else mapChars (fun c => if c = '$' then '.' else c) name
  | .array component => component.source ++ "[]"

/-- The type of a variable that holds a value of this type. The value of a method that returns
    nothing is `null`, which any reference can hold. -/
def held : JavaType → JavaType
  | .void => object
  | type => type

/-- The element type under all dimensions of an array, and the number of dimensions. -/
def dimensions : JavaType → JavaType × Nat
  | .array component =>
    let (base, count) := component.dimensions
    (base, count + 1)
  | type => (type, 0)

end JavaType

end JavaBackend
