import JavaBackend.Annotations
import JavaBackend.Proofs.Grammar.Spelling

/-!
# Reading annotations

A reader for the sources of annotations, and what it reads: the name of an annotation with dots between
its parts, the values of its elements in order, and a class by the source of its type. Strings can hold
everything that stands between values elsewhere. The main statement is `annotation_reads_back`: the
source of an annotation is read as what the annotation is, so that different annotations have different
sources.

A text is read once its unicode escapes are translated. `Translates` says what becomes of a text in
front of any other, and `ReadsAs` that the outcome is read as a value in front of all that may follow one.
-/

namespace JavaBackend.Java

mutual

/-- An annotation as its source tells it. -/
inductive AnnotationForm where
  | mk (name : String) (values : List (String × Element))

/-- The value of an annotation's element. -/
inductive Element where
  | int (value : Int32)
  | str (value : String)
  | array (items : List Element)
  /-- The class of a type, given by the source of the type. -/
  | type (source : String)
  | nested (value : AnnotationForm)

end

/-! ## The reader -/

/-- The characters of qualified names. -/
def isNameChar (alphabet : Alphabet) (c : Char) : Bool := isWordChar alphabet c || c == '.'

/-- The characters of types. -/
def isTypeChar (alphabet : Alphabet) (c : Char) : Bool := isNameChar alphabet c || c == '[' || c == ']'

/-- A whole number with its sign. -/
def integer? : List Char → Option (Int × List Char)
  | '-' :: rest =>
    if rest.head?.any Char.isDigit then
      some (-(numberOf (rest.takeWhile Char.isDigit) : Int), rest.dropWhile Char.isDigit)
    else none
  | text =>
    if text.head?.any Char.isDigit then
      some (numberOf (text.takeWhile Char.isDigit), text.dropWhile Char.isDigit)
    else none

/-- A whole number of 32 bits. -/
def int32? (text : List Char) : Option (Int32 × List Char) :=
  (integer? text).bind fun (value, rest) =>
    if (Int32.ofInt value).toInt = value then some (Int32.ofInt value, rest) else none

/-- The source of a type, in front of the dot and the word that make it a class. -/
def classType? (alphabet : Alphabet) (text : List Char) : Option (String × List Char) :=
  let written := text.takeWhile (isTypeChar alphabet)
  if ".class".toList <:+ written then
    some (String.ofList (written.take (written.length - 6)), text.dropWhile (isTypeChar alphabet))
  else none

mutual

def annotation? (alphabet : Alphabet) (text : List Char) : Option (AnnotationForm × List Char) :=
  match text with
  | '@' :: rest =>
    let name := String.ofList (rest.takeWhile (isNameChar alphabet))
    match rest.dropWhile (isNameChar alphabet) with
    | '(' :: later =>
      if _ : later.length < rest.length then
        (bindings? alphabet later).map fun (values, rest) => (.mk name values, rest)
      else none
    | later => some (.mk name [], later)
  | _ => none
termination_by (text.length, 0)

/-- Elements with their values, and the parenthesis that closes them. -/
def bindings? (alphabet : Alphabet) (text : List Char) :
    Option (List (String × Element) × List Char) :=
  let key := String.ofList (text.takeWhile (isWordChar alphabet))
  match text.dropWhile (isWordChar alphabet) with
  | '=' :: rest =>
    if _ : rest.length < text.length then
      match value? alphabet rest with
      | some (value, ',' :: ' ' :: later) =>
        if _ : later.length < text.length then
          (bindings? alphabet later).map fun (values, rest) => ((key, value) :: values, rest)
        else none
      | some (value, ')' :: later) => some ([(key, value)], later)
      | _ => none
    else none
  | _ => none
termination_by (text.length, 2)

def value? (alphabet : Alphabet) (text : List Char) : Option (Element × List Char) :=
  match text with
  | '@' :: rest => (annotation? alphabet ('@' :: rest)).map fun (value, rest) => (.nested value, rest)
  | '\x7b' :: '\x7d' :: rest => some (.array [], rest)
  | '\x7b' :: rest => (items? alphabet rest).map fun (items, rest) => (.array items, rest)
  | '"' :: rest =>
    (quoted? '"' rest).map fun (content, rest) => (.str (String.ofList content), rest)
  | text =>
    if text.head?.any fun c => c == '-' || c.isDigit then
      (int32? text).map fun (value, rest) => (.int value, rest)
    else (classType? alphabet text).map fun (source, rest) => (.type source, rest)
termination_by (text.length, 1)

/-- The items of an array, and the brace that closes it. -/
def items? (alphabet : Alphabet) (text : List Char) : Option (List Element × List Char) :=
  match value? alphabet text with
  | some (item, ',' :: ' ' :: later) =>
    if _ : later.length < text.length then
      (items? alphabet later).map fun (items, rest) => (item :: items, rest)
    else none
  | some (item, '\x7d' :: later) => some ([item], later)
  | _ => none
termination_by (text.length, 2)

end

/-- The annotation that a whole text is the source of. -/
def readAnnotation? (alphabet : Alphabet) (text : String) : Option AnnotationForm :=
  match (translate? .plain text.toList).bind (annotation? alphabet) with
  | some (value, []) => some value
  | _ => none

end JavaBackend.Java

namespace JavaBackend

open Java

/-! ## What an annotation is -/

mutual

/-- What the source of an annotation tells. -/
def AnnotationUse.normal : AnnotationUse → AnnotationForm
  | .mk name values =>
    .mk (mapChars (fun c => if c = '/' ∨ c = '$' then '.' else c) name)
      (ElementValue.normalBindings values)

def ElementValue.normalBindings : List (String × ElementValue) → List (String × Element)
  | [] => []
  | (key, value) :: rest => (key, value.normal) :: ElementValue.normalBindings rest

def ElementValue.normal : ElementValue → Element
  | .int value => .int value
  | .str value => .str value
  | .array items => .array (ElementValue.normals items)
  | .type value => .type value.source
  | .nested value => .nested value.normal

def ElementValue.normals : List ElementValue → List Element
  | [] => []
  | item :: rest => item.normal :: ElementValue.normals rest

end

/-- Whether the names in a type are identifiers. -/
def JavaType.isNamed (alphabet : Alphabet) : JavaType → Bool
  | .array component => component.isNamed alphabet
  | .reference name => isQualified alphabet name
  | _ => true

mutual

/-- Whether all names in an annotation are identifiers, its own and those of nested annotations with dots
    or slashes between the parts. -/
def AnnotationUse.isNamed (alphabet : Alphabet) : AnnotationUse → Bool
  | .mk name values => isQualified alphabet (dotted name) && ElementValue.areBound alphabet values

def ElementValue.areBound (alphabet : Alphabet) : List (String × ElementValue) → Bool
  | [] => true
  | (key, value) :: rest =>
    isIdentifier alphabet key && value.isNamed alphabet && ElementValue.areBound alphabet rest

def ElementValue.isNamed (alphabet : Alphabet) : ElementValue → Bool
  | .int _ | .str _ => true
  | .array items => ElementValue.areNamed alphabet items
  | .type value => value.isNamed alphabet
  | .nested value => value.isNamed alphabet

def ElementValue.areNamed (alphabet : Alphabet) : List ElementValue → Bool
  | [] => true
  | item :: rest => item.isNamed alphabet && ElementValue.areNamed alphabet rest

end

/-! ## Translation -/

namespace Java

/-- What becomes of a text in which unicode escapes are translated, in front of any other. -/
def Translates (text plain : List Char) : Prop :=
  ∀ rest, translate? .plain (text ++ rest) = (plain ++ ·) <$> translate? .plain rest

namespace Translates

theorem of_slashFree {text : List Char} (free : '\\' ∉ text) : Translates text text :=
  fun _ => Text.translate?_plain free

theorem append {first second plain plain' : List Char} (front : Translates first plain)
    (behind : Translates second plain') : Translates (first ++ second) (plain ++ plain') := by
  intro rest
  rw [List.append_assoc, front, behind]
  simp [Function.comp_def]

theorem eq_some {text plain : List Char} (translates : Translates text plain) :
    translate? .plain text = some plain := by
  simpa [translate?] using translates []

theorem quoted (content : List Char) : Translates (Text.quoted '"' content)
    ('"' :: (content.flatMap (Text.translated '"') ++ ['"'])) := by
  have inside : Translates (content.flatMap (Text.escape '"')) _ :=
    Text.translate?_content (.inl rfl) content
  have quote : Translates ['"'] ['"'] := of_slashFree (by decide)
  exact quote.append (inside.append quote)

end Translates

/-! ## Words -/

/-- The characters that end a type, whatever the alphabet is. -/
def typeEnds : List Char := "@()\x7b\x7d,=\"-\\".toList

variable {alphabet : Alphabet}

theorem not_isTypeChar_of_mem {c : Char} (mark : c ∈ typeEnds) : isTypeChar alphabet c = false := by
  have all : (typeEnds.all fun c => !(c.isAlpha || c == '_' || c == '$' || c.isDigit || isExotic c ||
      c == '.' || c == '[' || c == ']')) = true := by decide
  have parts := List.all_eq_true.mp all c mark
  simp only [Bool.not_eq_true', Bool.or_eq_false_iff] at parts
  simp [isTypeChar, isNameChar, isWordChar, isLetter, parts]

theorem isTypeChar_of_isNameChar {c : Char} (nameChar : isNameChar alphabet c = true) :
    isTypeChar alphabet c = true := by
  simp [isTypeChar, nameChar]

theorem isNameChar_of_isWordChar {c : Char} (wordChar : isWordChar alphabet c = true) :
    isNameChar alphabet c = true := by
  simp [isNameChar, wordChar]

/-- The characters of a qualified name. -/
theorem isNameChar_of_isQualified {name : String} (qualified : isQualified alphabet name = true) :
    ∀ c ∈ name.toList, isNameChar alphabet c = true := by
  have word {part : String} (identifier : isIdentifier alphabet part = true) :
      ∀ c ∈ part.toList, isNameChar alphabet c = true := fun c mem =>
    isNameChar_of_isWordChar (isWordChar_of_mem (wordToken_of_isIdentifier identifier).1 mem)
  obtain ⟨first, parts, split, joined⟩ := nameParts_eq name
  rw [isQualified, split, List.all_eq_true, List.forall_mem_cons] at qualified
  intro c mem
  rw [joined, List.mem_append, memberChars, List.mem_flatMap] at mem
  rcases mem with mem | ⟨part, memPart, mem⟩
  · exact word qualified.1 c mem
  · rcases List.mem_cons.mp mem with rfl | mem
    · simp [isNameChar]
    · exact word (qualified.2 part memPart) c mem

theorem qualified_head {name : String} (qualified : isQualified alphabet name = true) :
    ∃ first others, name.toList = first :: others ∧ isLetter alphabet first = true := by
  obtain ⟨part, parts, split, joined⟩ := nameParts_eq name
  rw [isQualified, split, List.all_eq_true] at qualified
  obtain ⟨first, others, chars, letter⟩ := identifier_head (qualified part List.mem_cons_self)
  exact ⟨first, others ++ memberChars parts, by rw [joined, chars, List.cons_append], letter⟩

theorem slash_not_mem {text : List Char} (all : ∀ c ∈ text, isTypeChar alphabet c = true) :
    '\\' ∉ text := fun mem =>
  Bool.false_ne_true ((not_isTypeChar_of_mem (by decide)).symm.trans (all _ mem))

/-! ## Reading -/

/-- What can follow a value. -/
def endsValue (c : Char) : Bool := c ∈ [',', ')', '\x7d']

/-- The text is read as the value in front of all that may follow one. -/
def ReadsAs {α : Type} (reader : List Char → Option (α × List Char)) (text : String) (value : α) : Prop :=
  ∃ plain, Translates text.toList plain ∧
    ∀ rest, rest.head?.all endsValue = true → reader (plain ++ rest) = some (value, rest)

variable {rest : List Char}

theorem not_isTypeChar_of_endsValue {c : Char} (ends : endsValue c = true) :
    isTypeChar alphabet c = false := by
  have listed : [',', ')', '\x7d'] ⊆ typeEnds := by decide
  exact not_isTypeChar_of_mem (listed (of_decide_eq_true ends))

theorem stop_of_endsValue (ends : rest.head?.all endsValue = true) {p : Char → Bool}
    (typeChars : ∀ c, p c = true → isTypeChar alphabet c = true) : rest.head?.any p = false := by
  cases rest with
  | nil => rfl
  | cons c rest =>
    refine Bool.eq_false_iff.mpr fun holds => Bool.false_ne_true ?_
    exact (not_isTypeChar_of_endsValue ends).symm.trans (typeChars c holds)

theorem value?_unmarked {c : Char} (other : c ∉ ['@', '\x7b', '"']) :
    value? alphabet (c :: rest) =
      if c == '-' || c.isDigit then (int32? (c :: rest)).map fun (value, rest) => (.int value, rest)
      else (classType? alphabet (c :: rest)).map fun (source, rest) => (.type source, rest) := by
  rw [value?]
  · rfl
  all_goals
    rintro rest' same
    cases same
    exact absurd other (by decide)

theorem integer?_eq (text : List Char) : integer? text = exponent? ('e' :: text) := by
  unfold integer?
  split
  · rfl
  · next noSign =>
    rw [exponent?]
    intro rest same
    exact noSign rest same

theorem endsNumber_of_endsValue (ends : rest.head?.all endsValue = true) : endsNumber alphabet rest := by
  intro c head
  rw [head] at ends
  have ended : isTypeChar alphabet c = false := not_isTypeChar_of_endsValue ends
  simp only [isTypeChar, isNameChar, Bool.or_eq_false_iff] at ended
  exact ⟨ended.1.1.1, by simpa using ended.1.1.2⟩

theorem int32?_toString (value : Int32) (ends : rest.head?.all endsValue = true) :
    int32? ((toString value.toInt).toList ++ rest) = some (value, rest) := by
  have stop : endsNumber ⟨fun _ => false, fun _ => false⟩ rest := endsNumber_of_endsValue ends
  rw [int32?, integer?_eq, exponent?_toString value.toInt stop]
  simp

/-- The text of a number starts with a digit or with its sign. -/
theorem toString_int_head (value : Int) :
    ∃ first more, (toString value).toList = first :: more ∧ (first == '-' || first.isDigit) = true := by
  cases value with
  | ofNat n =>
    obtain ⟨first, more, digits⟩ := List.exists_cons_of_ne_nil (toString_ne_nil n)
    refine ⟨first, more, digits, ?_⟩
    rw [all_digits n first (digits ▸ List.mem_cons_self), Bool.or_true]
  | negSucc n =>
    refine ⟨'-', (toString (n + 1)).toList, ?_, rfl⟩
    show ("-" ++ toString (n + 1)).toList = _
    rw [String.toList_append]
    rfl

theorem readsAs_int (value : Int32) :
    ReadsAs (value? alphabet) (Literal.int value).source (.int value) := by
  refine ⟨_, .of_slashFree (slash_not_mem_toString value.toInt), fun rest ends => ?_⟩
  obtain ⟨first, more, text, sign⟩ := toString_int_head value.toInt
  have other : first ∉ ['@', '\x7b', '"'] := by
    intro mem
    simp only [List.mem_cons, List.not_mem_nil, or_false] at mem
    rcases mem with rfl | rfl | rfl <;> exact absurd sign (by decide)
  have number := int32?_toString value ends
  show value? alphabet ((toString value.toInt).toList ++ rest) = _
  rw [text, List.cons_append] at number ⊢
  rw [value?_unmarked other, if_pos sign, number]
  rfl

theorem readsAs_str (value : String) :
    ReadsAs (value? alphabet) (Literal.str value).source (.str value) := by
  have text : (Literal.str value).source.toList = Text.quoted '"' value.toList := String.toList_ofList
  have translates := Translates.quoted value.toList
  rw [← text] at translates
  refine ⟨_, translates, fun rest _ => ?_⟩
  have content := Text.quoted?_content (.inl rfl) value.toList rest
  simp [value?, content]

/-! ## Types -/

/-- A qualified name with dots in the place of dollars. -/
theorem isNameChar_mapChars {name : String} (qualified : isQualified alphabet name = true) :
    ∀ c ∈ (mapChars (fun c => if c = '$' then '.' else c) name).toList,
      isNameChar alphabet c = true := by
  intro c mem
  rw [mapChars, String.toList_ofList, List.mem_map] at mem
  obtain ⟨c, mem, rfl⟩ := mem
  split
  · simp [isNameChar]
  · exact isNameChar_of_isQualified qualified c mem

/-- Letters, dots and brackets are characters of types, whatever the alphabet is. -/
theorem isTypeChar_of_all {text : String}
    (all : (text.toList.all fun c => c.isAlpha || c ∈ ['.', '[', ']']) = true) :
    ∀ c ∈ text.toList, isTypeChar alphabet c = true := by
  intro c mem
  have plain := List.all_eq_true.mp all c mem
  simp only [Bool.or_eq_true, decide_eq_true_eq, List.mem_cons, List.not_mem_nil, or_false] at plain
  rcases plain with letter | rfl | rfl | rfl <;>
    simp [isTypeChar, isNameChar, isWordChar, isLetter, *]

/-- A text of characters that types have, which starts with no digit. -/
def LooksLikeType (alphabet : Alphabet) (text : String) : Prop :=
  (∀ c ∈ text.toList, isTypeChar alphabet c = true) ∧ text.toList.head?.any (!Char.isDigit ·) = true

theorem LooksLikeType.append {first : String} (front : LooksLikeType alphabet first) (second : String)
    (behind : ∀ c ∈ second.toList, isTypeChar alphabet c = true) :
    LooksLikeType alphabet (first ++ second) := by
  obtain ⟨all, start⟩ := front
  rw [LooksLikeType, String.toList_append]
  refine ⟨List.forall_mem_append.mpr ⟨all, behind⟩, ?_⟩
  cases chars : first.toList with
  | nil => simp [chars] at start
  | cons c rest => simpa [chars] using start

/-- The source of a type whose names are identifiers. -/
theorem looksLikeType_source {type : JavaType} (named : type.isNamed alphabet = true) :
    LooksLikeType alphabet type.source := by
  induction type with
  | array component ih => exact (ih named).append "[]" (isTypeChar_of_all rfl)
  | reference name =>
    unfold JavaType.source
    split
    · exact ⟨isTypeChar_of_all rfl, rfl⟩
    · obtain ⟨first, others, chars, letter⟩ := qualified_head named
      have noDigit := not_isDigit_of_isLetter letter
      refine ⟨fun c mem => isTypeChar_of_isNameChar (isNameChar_mapChars named c mem), ?_⟩
      rw [mapChars, String.toList_ofList, chars, List.map_cons, List.head?_cons, Option.any_some]
      split
      · rfl
      · simp [noDigit]
  | _ => exact ⟨isTypeChar_of_all rfl, rfl⟩

theorem classType?_source {source : String} (looks : LooksLikeType alphabet source)
    (ends : rest.head?.all endsValue = true) :
    classType? alphabet ((source ++ ".class").toList ++ rest) = some (source, rest) := by
  have all := (looks.append ".class" (isTypeChar_of_all rfl)).1
  obtain ⟨taken, left⟩ := takeWhile_append_stop all (stop_of_endsValue ends fun _ => id)
  simp only [classType?, taken, left]
  rw [String.toList_append, if_pos (List.suffix_append _ _)]
  simp

theorem readsAs_type {type : JavaType} (named : type.isNamed alphabet = true) :
    ReadsAs (value? alphabet) (Literal.type type).source (.type type.source) := by
  have looks := looksLikeType_source named
  show ReadsAs (value? alphabet) (type.source ++ ".class") _
  obtain ⟨all, start⟩ := looks.append ".class" (isTypeChar_of_all rfl)
  refine ⟨_, Translates.of_slashFree (slash_not_mem all), fun rest ends => ?_⟩
  have read := classType?_source looks ends
  cases chars : (type.source ++ ".class").toList with
  | nil => simp [chars] at start
  | cons first more =>
    rw [chars, List.cons_append] at read
    have letter : isTypeChar alphabet first = true := all first (chars ▸ List.mem_cons_self)
    have noDigit : first.isDigit = false := by simpa [chars] using start
    have unmarked : ∀ listed ⊆ typeEnds, first ∉ listed := fun listed subset mem =>
      Bool.false_ne_true ((not_isTypeChar_of_mem (subset mem)).symm.trans letter)
    have noSign : first ≠ '-' := List.ne_of_not_mem_cons (unmarked ['-'] (by decide))
    rw [List.cons_append, value?_unmarked (unmarked _ (by decide)),
      if_neg (by simp [noDigit, noSign]), read]
    rfl

/-! ## Annotations and arrays -/

variable {name key text : String} {value : Element}

/-- No value starts with the brace that closes an array. -/
theorem value?_brace : value? alphabet ('\x7d' :: rest) = none := by
  have ended : isTypeChar alphabet '\x7d' = false := not_isTypeChar_of_mem (by decide)
  rw [value?_unmarked (by decide), if_neg (by decide), classType?, List.takeWhile_cons, ended]
  rfl

theorem readsAs_nested {value : AnnotationForm} (read : ReadsAs (annotation? alphabet) text value) :
    ReadsAs (value? alphabet) text (.nested value) := by
  obtain ⟨plain, translates, read⟩ := read
  refine ⟨plain, translates, fun rest ends => ?_⟩
  have found := read rest ends
  cases chars : plain ++ rest with
  | nil =>
    rw [chars, annotation?] at found
    · cases found
    · nofun
  | cons c later =>
    rw [chars] at found
    by_cases mark : c = '@'
    · subst mark
      rw [value?, found]
      rfl
    · rw [annotation?] at found
      · cases found
      · exact fun _ same => mark (List.cons.inj same).1

theorem readsAs_noItems : ReadsAs (value? alphabet) "\x7b\x7d" (.array []) :=
  ⟨_, Translates.of_slashFree (by decide), fun rest _ => by simp [value?]⟩

theorem readsAs_items {items : List Element} (read : ReadsAs (items? alphabet) text items) :
    ReadsAs (value? alphabet) ("\x7b" ++ text) (.array items) := by
  obtain ⟨plain, translates, read⟩ := read
  refine ⟨'\x7b' :: plain, ?_, fun rest ends => ?_⟩
  · rw [String.toList_append]
    exact (Translates.of_slashFree (by decide)).append translates
  · have found := read rest ends
    have inner : ∀ later, plain ++ rest ≠ '\x7d' :: later := by
      intro later same
      rw [same, items?, value?_brace] at found
      cases found
    rw [List.cons_append, value?, found]
    · rfl
    · exact inner

theorem readsAs_lastItem (read : ReadsAs (value? alphabet) text value) :
    ReadsAs (items? alphabet) (text ++ "\x7d") [value] := by
  obtain ⟨plain, translates, read⟩ := read
  refine ⟨plain ++ ['\x7d'], ?_, fun rest _ => ?_⟩
  · rw [String.toList_append]
    exact translates.append (.of_slashFree (by decide))
  · have found := read ('\x7d' :: rest) rfl
    rw [List.append_assoc, List.singleton_append, items?, found]
    rfl

theorem readsAs_nextItem {more : String} {items : List Element}
    (read : ReadsAs (value? alphabet) text value) (others : ReadsAs (items? alphabet) more items) :
    ReadsAs (items? alphabet) (text ++ ", " ++ more) (value :: items) := by
  obtain ⟨plain, translates, read⟩ := read
  obtain ⟨plain', translates', others⟩ := others
  refine ⟨plain ++ ", ".toList ++ plain', ?_, fun rest ends => ?_⟩
  · rw [String.toList_append, String.toList_append]
    exact (translates.append (.of_slashFree (by decide))).append translates'
  · have found := read (',' :: ' ' :: (plain' ++ rest)) rfl
    have joined : plain ++ ", ".toList ++ plain' ++ rest = plain ++ ',' :: ' ' :: (plain' ++ rest) := by
      simp
    rw [joined, items?, found]
    simp only
    rw [dif_pos (by simp; omega), others rest ends]
    rfl

theorem isWordChar_of_isIdentifier (identifier : isIdentifier alphabet key = true) :
    ∀ c ∈ key.toList, isWordChar alphabet c = true := fun _ =>
  isWordChar_of_mem (wordToken_of_isIdentifier identifier).1

/-- A key ends in front of the sign behind it. -/
theorem key_stops (identifier : isIdentifier alphabet key = true) (rest : List Char) :
    (key.toList ++ '=' :: rest).takeWhile (isWordChar alphabet) = key.toList ∧
      (key.toList ++ '=' :: rest).dropWhile (isWordChar alphabet) = '=' :: rest :=
  takeWhile_append_stop (isWordChar_of_isIdentifier identifier) (not_isWordChar_of_mem (by decide))

theorem translates_key (identifier : isIdentifier alphabet key = true) :
    Translates (key.toList ++ ['=']) (key.toList ++ ['=']) := by
  have free : '\\' ∉ key.toList := slash_not_mem fun c mem =>
    isTypeChar_of_isNameChar (isNameChar_of_isWordChar (isWordChar_of_isIdentifier identifier c mem))
  exact (Translates.of_slashFree free).append (.of_slashFree (by decide))

theorem readsAs_lastBinding (identifier : isIdentifier alphabet key = true)
    (read : ReadsAs (value? alphabet) text value) :
    ReadsAs (bindings? alphabet) (key ++ "=" ++ text ++ ")") [(key, value)] := by
  obtain ⟨plain, translates, read⟩ := read
  refine ⟨key.toList ++ ['='] ++ plain ++ [')'], ?_, fun rest _ => ?_⟩
  · simp only [String.toList_append]
    exact ((translates_key identifier).append translates).append (.of_slashFree (by decide))
  · obtain ⟨taken, left⟩ := key_stops identifier (plain ++ ')' :: rest)
    have found := read (')' :: rest) rfl
    have joined : key.toList ++ ['='] ++ plain ++ [')'] ++ rest =
        key.toList ++ '=' :: (plain ++ ')' :: rest) := by simp
    rw [joined, bindings?, left]
    simp only [taken, String.ofList_toList]
    rw [dif_pos (by simp; omega), found]
    rfl

theorem readsAs_nextBinding {more : String} {values : List (String × Element)}
    (identifier : isIdentifier alphabet key = true) (read : ReadsAs (value? alphabet) text value)
    (others : ReadsAs (bindings? alphabet) more values) :
    ReadsAs (bindings? alphabet) (key ++ "=" ++ text ++ ", " ++ more) ((key, value) :: values) := by
  obtain ⟨plain, translates, read⟩ := read
  obtain ⟨plain', translates', others⟩ := others
  refine ⟨key.toList ++ ['='] ++ plain ++ ", ".toList ++ plain', ?_, fun rest ends => ?_⟩
  · simp only [String.toList_append]
    have front := (translates_key identifier).append translates
    exact (front.append (.of_slashFree (by decide))).append translates'
  · obtain ⟨taken, left⟩ := key_stops identifier (plain ++ ',' :: ' ' :: (plain' ++ rest))
    have found := read (',' :: ' ' :: (plain' ++ rest)) rfl
    have joined : key.toList ++ ['='] ++ plain ++ ", ".toList ++ plain' ++ rest =
        key.toList ++ '=' :: (plain ++ ',' :: ' ' :: (plain' ++ rest)) := by simp
    rw [joined, bindings?, left]
    simp only [taken, String.ofList_toList]
    rw [dif_pos (by simp; omega), found]
    simp only
    rw [dif_pos (by simp; omega), others rest ends]
    rfl

theorem translates_name (all : ∀ c ∈ name.toList, isNameChar alphabet c = true) :
    Translates ("@" ++ name).toList ('@' :: name.toList) := by
  have free : '\\' ∉ name.toList := slash_not_mem fun c mem => isTypeChar_of_isNameChar (all c mem)
  rw [String.toList_append]
  exact (Translates.of_slashFree (by decide)).append (.of_slashFree free)

theorem readsAs_bare (all : ∀ c ∈ name.toList, isNameChar alphabet c = true) :
    ReadsAs (annotation? alphabet) ("@" ++ name) (.mk name []) := by
  refine ⟨_, translates_name all, fun rest ends => ?_⟩
  obtain ⟨taken, left⟩ := takeWhile_append_stop all
    (stop_of_endsValue ends fun _ => isTypeChar_of_isNameChar)
  rw [List.cons_append, annotation?, left]
  simp only [taken, String.ofList_toList]
  split
  · simp [endsValue] at ends
  · rfl

theorem readsAs_bound {values : List (String × Element)}
    (all : ∀ c ∈ name.toList, isNameChar alphabet c = true)
    (read : ReadsAs (bindings? alphabet) text values) :
    ReadsAs (annotation? alphabet) ("@" ++ name ++ "(" ++ text) (.mk name values) := by
  obtain ⟨plain, translates, read⟩ := read
  refine ⟨'@' :: name.toList ++ ['('] ++ plain, ?_, fun rest ends => ?_⟩
  · have front := (translates_name all).append (.of_slashFree (by decide : '\\' ∉ ['(']))
    rw [String.toList_append, String.toList_append]
    exact front.append translates
  · have stop : ('(' :: (plain ++ rest)).head?.any (isNameChar alphabet) = false := by
      have ended : isTypeChar alphabet '(' = false := not_isTypeChar_of_mem (by decide)
      simp only [isTypeChar, Bool.or_eq_false_iff] at ended
      simpa using ended.1.1
    obtain ⟨taken, left⟩ := takeWhile_append_stop all stop
    have joined : '@' :: name.toList ++ ['('] ++ plain ++ rest =
        '@' :: (name.toList ++ '(' :: (plain ++ rest)) := by simp
    rw [joined, annotation?, left]
    simp only [taken, String.ofList_toList]
    rw [dif_pos (by simp; omega), read rest ends]
    rfl

end Java

/-! ## Whole annotations -/

open Java

variable {alphabet : Alphabet}

theorem isNameChar_of_dotted {name : String} (qualified : isQualified alphabet (dotted name) = true) :
    ∀ c ∈ (mapChars (fun c => if c = '/' ∨ c = '$' then '.' else c) name).toList,
      isNameChar alphabet c = true := by
  have composed : mapChars (fun c => if c = '/' ∨ c = '$' then '.' else c) name =
      mapChars (fun c => if c = '$' then '.' else c) (dotted name) := by
    rw [dotted, mapChars, mapChars, mapChars, String.toList_ofList, List.map_map]
    refine congrArg String.ofList (List.map_congr_left fun c _ => ?_)
    by_cases slash : c = '/' <;> simp [slash]
  rw [composed]
  exact isNameChar_mapChars qualified

mutual

theorem AnnotationUse.readsAs : (use : AnnotationUse) → use.isNamed alphabet = true →
    ReadsAs (annotation? alphabet) use.source use.normal
  | .mk name [] => fun named => by
    simp only [AnnotationUse.isNamed, Bool.and_eq_true] at named
    exact readsAs_bare (isNameChar_of_dotted named.1)
  | .mk name (binding :: rest) => fun named => by
    simp only [AnnotationUse.isNamed, Bool.and_eq_true] at named
    have read := ElementValue.bindings_readsAs (binding :: rest) (by simp) named.2
    have whole := readsAs_bound (isNameChar_of_dotted named.1) read
    rw [← String.append_assoc] at whole
    exact whole

theorem ElementValue.bindings_readsAs : (values : List (String × ElementValue)) → values ≠ [] →
    ElementValue.areBound alphabet values = true →
    ReadsAs (bindings? alphabet) (", ".intercalate (ElementValue.bindings values) ++ ")")
      (ElementValue.normalBindings values)
  | [], some?, _ => absurd rfl some?
  | [(key, value)], _, named => by
    simp only [ElementValue.areBound, Bool.and_eq_true] at named
    have read := readsAs_lastBinding named.1.1 (value.readsAs named.1.2)
    simpa [ElementValue.bindings, ElementValue.normalBindings] using read
  | (key, value) :: next :: rest, _, named => by
    rw [ElementValue.areBound, Bool.and_eq_true, Bool.and_eq_true] at named
    have others := ElementValue.bindings_readsAs (next :: rest) (by simp) named.2
    have read := readsAs_nextBinding named.1.1 (value.readsAs named.1.2) others
    rw [← String.append_assoc] at read
    rwa [ElementValue.bindings, ElementValue.bindings, String.intercalate_cons_cons]

theorem ElementValue.readsAs : (value : ElementValue) → value.isNamed alphabet = true →
    ReadsAs (value? alphabet) value.source value.normal
  | .int value, _ => readsAs_int value
  | .str value, _ => readsAs_str value
  | .array [], _ => readsAs_noItems
  | .array (item :: rest), named => by
    have read := readsAs_items (ElementValue.items_readsAs (item :: rest) (by simp) named)
    rw [← String.append_assoc] at read
    exact read
  | .type value, named => readsAs_type named
  | .nested value, named => readsAs_nested (value.readsAs named)

theorem ElementValue.items_readsAs : (items : List ElementValue) → items ≠ [] →
    ElementValue.areNamed alphabet items = true →
    ReadsAs (items? alphabet) (", ".intercalate (ElementValue.sources items) ++ "\x7d")
      (ElementValue.normals items)
  | [], some?, _ => absurd rfl some?
  | [item], _, named => by
    simp only [ElementValue.areNamed, Bool.and_eq_true] at named
    have read := readsAs_lastItem (item.readsAs named.1)
    simpa [ElementValue.sources, ElementValue.normals] using read
  | item :: next :: rest, _, named => by
    rw [ElementValue.areNamed, Bool.and_eq_true] at named
    have others := ElementValue.items_readsAs (next :: rest) (by simp) named.2
    have read := readsAs_nextItem (item.readsAs named.1) others
    rw [← String.append_assoc] at read
    rwa [ElementValue.sources, ElementValue.sources, String.intercalate_cons_cons]

end

/-! ## Annotations that are told apart -/

theorem AnnotationUse.source_mk (name : String) (values : List (String × ElementValue)) :
    (AnnotationUse.mk name values).source =
      "@" ++ mapChars (fun c => if c = '/' ∨ c = '$' then '.' else c) name ++
        match ElementValue.bindings values with
        | [] => ""
        | bindings => "(" ++ ", ".intercalate bindings ++ ")" := by
  cases values with
  | nil => simp [AnnotationUse.source, ElementValue.bindings]
  | cons binding rest => simp [AnnotationUse.source, ElementValue.bindings, String.append_assoc]

mutual

/-- The source shows no more than what the reader gets. -/
theorem AnnotationUse.source_congr : (use other : AnnotationUse) → use.normal = other.normal →
    use.source = other.source
  | .mk name values, .mk name' values', same => by
    simp only [AnnotationUse.normal, AnnotationForm.mk.injEq] at same
    rw [AnnotationUse.source_mk, AnnotationUse.source_mk, same.1,
      ElementValue.bindings_congr values values' same.2]

theorem ElementValue.bindings_congr : (values others : List (String × ElementValue)) →
    ElementValue.normalBindings values = ElementValue.normalBindings others →
    ElementValue.bindings values = ElementValue.bindings others
  | [], [], _ => rfl
  | (key, value) :: rest, (key', value') :: rest', same => by
    simp only [ElementValue.normalBindings, List.cons.injEq, Prod.mk.injEq] at same
    rw [ElementValue.bindings, ElementValue.bindings, same.1.1, value.source_congr value' same.1.2,
      ElementValue.bindings_congr rest rest' same.2]

theorem ElementValue.source_congr : (value other : ElementValue) → value.normal = other.normal →
    value.source = other.source
  | .int value, .int other, same => by
    cases same
    rfl
  | .str value, .str other, same => by
    cases same
    rfl
  | .array items, .array others, same => by
    simp only [ElementValue.normal, Element.array.injEq] at same
    rw [ElementValue.source, ElementValue.source, ElementValue.sources_congr items others same]
  | .type value, .type other, same => by
    simp only [ElementValue.normal, Element.type.injEq] at same
    rw [ElementValue.source, ElementValue.source, Literal.source, Literal.source, Literal.ofType,
      Literal.ofType, same]
  | .nested value, .nested other, same => by
    simp only [ElementValue.normal, Element.nested.injEq] at same
    exact value.source_congr other same

theorem ElementValue.sources_congr : (items others : List ElementValue) →
    ElementValue.normals items = ElementValue.normals others →
    ElementValue.sources items = ElementValue.sources others
  | [], [], _ => rfl
  | item :: rest, item' :: rest', same => by
    simp only [ElementValue.normals, List.cons.injEq] at same
    rw [ElementValue.sources, ElementValue.sources, item.source_congr item' same.1,
      ElementValue.sources_congr rest rest' same.2]

end

/-- The source of an annotation whose names are identifiers is read as what the annotation is, and two
    such annotations have the same source just if they are the same: dots, slashes and dollars between
    the parts of an annotation's name count as one, and so do types with the same source. -/
theorem annotation_reads_back {use : AnnotationUse} (named : use.isNamed alphabet = true) :
    readAnnotation? alphabet use.source = some use.normal ∧
      ∀ other : AnnotationUse, other.isNamed alphabet = true →
        (use.source = other.source ↔ use.normal = other.normal) := by
  have read {use : AnnotationUse} (named : use.isNamed alphabet = true) :
      readAnnotation? alphabet use.source = some use.normal := by
    obtain ⟨plain, translates, read⟩ := use.readsAs named
    have found := read [] rfl
    rw [List.append_nil] at found
    rw [readAnnotation?, translates.eq_some, Option.bind_some, found]
  refine ⟨read named, fun other otherNamed => ⟨fun same => ?_, use.source_congr other⟩⟩
  have both := read named
  rw [same, read otherNamed] at both
  exact (Option.some.inj both).symm

/-- An annotation with a text in an array, in front of an empty array and of another annotation. -/
def labelled (name text : String) : AnnotationUse :=
  .mk name [("x", .array [.str text, .array [], .nested (.mk "D" [("y", .int (-2147483648))])]),
    ("z", .type (.array (.reference "java.util.Map$Entry")))]

/-- A text that looks like the end of its array and like a quote, and one that is such a quote. -/
theorem labelled_reads_back :
    let alphabet : Alphabet := ⟨fun _ => false, fun _ => false⟩
    let use := labelled "a/B$C" "\", @D(y=1)\x7d)\\u0022"
    let same := labelled "a.B.C" "\", @D(y=1)\x7d)\\u0022"
    let other := labelled "a.B.C" "\", @D(y=1)\x7d)\""
    (use.isNamed alphabet = true ∧ same.isNamed alphabet = true ∧ other.isNamed alphabet = true) ∧
      readAnnotation? alphabet use.source = some use.normal ∧
      use.source = same.source ∧ use.source ≠ other.source := by
  intro alphabet use same other
  have named : use.isNamed alphabet = true := by decide
  have sameNamed : same.isNamed alphabet = true := by decide
  have otherNamed : other.isNamed alphabet = true := by decide
  obtain ⟨read, sources⟩ := annotation_reads_back named
  refine ⟨⟨named, sameNamed, otherNamed⟩, read, (sources same sameNamed).mpr ?_, fun equal => ?_⟩
  · exact congrArg (AnnotationForm.mk · _) (by decide)
  · have told := (sources other otherNamed).mp equal
    simp [use, other, labelled, AnnotationUse.normal, ElementValue.normalBindings, ElementValue.normal,
      ElementValue.normals] at told

end JavaBackend
