import JavaBackend.Literal

/-!
# Annotations

The use of an annotation names its type and gives values to some of its elements. Values nest: an
array holds values, and the use of an annotation can itself be a value.
-/

namespace JavaBackend

mutual

/-- An annotation on a type or a field. -/
inductive AnnotationUse where
  | mk (name : String) (values : List (String × ElementValue))

/-- The value of an annotation's element. -/
inductive ElementValue where
  | int (value : Int32)
  | str (value : String)
  | array (items : List ElementValue)
  | type (value : JavaType)
  | nested (value : AnnotationUse)

end

mutual

/-- The annotation in Java source: its name, and the elements in parentheses if it has any. -/
def AnnotationUse.source : AnnotationUse → String
  | .mk name values =>
    let head := "@" ++ mapChars (fun c => if c = '/' ∨ c = '$' then '.' else c) name
    match values with
    | [] => head
    | _ :: _ => head ++ "(" ++ ", ".intercalate (ElementValue.bindings values) ++ ")"

/-- Each element as `key=value`. -/
def ElementValue.bindings : List (String × ElementValue) → List String
  | [] => []
  | (key, value) :: rest => (key ++ "=" ++ value.source) :: ElementValue.bindings rest

/-- A value in Java source. -/
def ElementValue.source : ElementValue → String
  | .int value => (Literal.int value).source
  | .str value => (Literal.str value).source
  | .array items => "\x7b" ++ ", ".intercalate (ElementValue.sources items) ++ "\x7d"
  | .type value => (Literal.type value).source
  | .nested value => value.source

/-- Each item of an array. -/
def ElementValue.sources : List ElementValue → List String
  | [] => []
  | item :: rest => item.source :: ElementValue.sources rest

end

end JavaBackend
