import JavaBackend.Proofs.Layout.Lines
import JavaBackend.Proofs.Words.Characters

/-!
# Words that keep to their line

Names without spaces, line breaks and braces do not disturb the layout of the code around them: no
text that is made of such names breaks a line, and none of the lines that start with one starts like
the end of a block. Constants may hold anything, since what they hold is quoted.
-/

namespace JavaBackend

open Java (Stmt Code Piece Expr Test Handler Sink)

/-- The text has no spaces, line breaks and braces. -/
def Unbroken (text : String) : Prop := ∀ c ∈ text.toList, c ∉ [' ', '\n', '\x7b', '\x7d']

instance (text : String) : Decidable (Unbroken text) := List.decidableBAll _ text.toList

/-- A word that can stand as a name. -/
structure IsName (text : String) : Prop where
  nonempty : text ≠ ""
  unbroken : Unbroken text

instance (text : String) : Decidable (IsName text) :=
  decidable_of_iff (text ≠ "" ∧ Unbroken text) ⟨fun h => ⟨h.1, h.2⟩, fun h => ⟨h.1, h.2⟩⟩

theorem Unbroken.append {first second : String} (front : Unbroken first) (behind : Unbroken second) :
    Unbroken (first ++ second) := by
  unfold Unbroken
  rw [String.toList_append]
  exact List.forall_mem_append.mpr ⟨front, behind⟩

theorem IsName.append {first second : String} (name : IsName first) (behind : Unbroken second) :
    IsName (first ++ second) :=
  ⟨fun empty => name.nonempty (String.append_eq_empty_iff.mp empty).1, name.unbroken.append behind⟩

/-- Names stay names where dots take the place of other separators. -/
theorem Unbroken.mapChars {f : Char → Char} (dots : ∀ c, f c = c ∨ f c = '.') {text : String}
    (unbroken : Unbroken text) : Unbroken (mapChars f text) := by
  intro c mem
  simp only [JavaBackend.mapChars, String.toList_ofList, List.mem_map] at mem
  obtain ⟨old, mem, rfl⟩ := mem
  rcases dots old with same | dot
  · rw [same]
    exact unbroken old mem
  · rw [dot]
    decide

theorem IsName.mapChars {f : Char → Char} (dots : ∀ c, f c = c ∨ f c = '.') {text : String}
    (name : IsName text) : IsName (mapChars f text) := by
  refine ⟨fun empty => name.nonempty ?_, name.unbroken.mapChars dots⟩
  have chars := congrArg String.toList empty
  simpa [JavaBackend.mapChars] using chars

theorem Unbroken.break_not_mem {text : String} (unbroken : Unbroken text) : '\n' ∉ text.toList :=
  fun mem => unbroken _ mem (by decide)

/-! ## Starts of lines -/

/-- The text does not start with a space or the end of a block. -/
def NoFalseStart (text : List Char) : Prop := ∀ c ∈ text.head?, c ≠ ' ' ∧ c ≠ '\x7d'

theorem NoFalseStart.append {text tail : List Char} (start : NoFalseStart text)
    (plain : Line.startsPlain tail = true) : Line.startsPlain (text ++ tail) = true := by
  cases text with
  | nil => exact plain
  | cons c rest => simpa [Line.startsPlain] using start c rfl

theorem startsPlain_append {text : List Char} (plain : Line.startsPlain text = true)
    (tail : List Char) : Line.startsPlain (text ++ tail) = true := by
  cases text with
  | nil => cases plain
  | cons c rest => exact plain

theorem noFalseStart_of_startsPlain {text : List Char} (plain : Line.startsPlain text = true) :
    NoFalseStart text := by
  obtain ⟨c, rest, rfl, space, brace⟩ := Line.startsPlain_iff.mp plain
  rintro _ ⟨⟩
  exact ⟨space, brace⟩

theorem Unbroken.noFalseStart {text : String} (unbroken : Unbroken text) :
    NoFalseStart text.toList := by
  intro c head
  have free := unbroken c (List.mem_of_mem_head? head)
  simp only [List.mem_cons, not_or] at free
  exact ⟨free.1, free.2.2.2.1⟩

theorem IsName.startsPlain {text : String} (name : IsName text) :
    Line.startsPlain text.toList = true := by
  have start := name.unbroken.noFalseStart
  cases chars : text.toList with
  | nil => exact absurd (String.toList_eq_nil_iff.mp chars) name.nonempty
  | cons c rest =>
    rw [chars] at start
    simpa [Line.startsPlain] using start c rfl

/-! ## Types -/

/-- The names in the type can stand as names. -/
def JavaType.Tidy : JavaType → Prop
  | .reference name => IsName name
  | .array component => component.Tidy
  | _ => True

theorem JavaType.isName_source {type : JavaType} (tidy : type.Tidy) : IsName type.source := by
  induction type with
  | reference name =>
    unfold source
    split
    · decide
    · refine tidy.mapChars fun c => ?_
      split <;> simp
  | array component ih => exact (ih tidy).append (by decide)
  | _ => decide

/-! ## Constants -/

/-- The types in the constant are spelled by names. -/
def Literal.Tidy : Literal → Prop
  | .type value => value.Tidy
  | _ => True

theorem JavaType.Tidy.avoids {type : JavaType} (tidy : type.Tidy) : type.Avoids '\n' := by
  induction type with
  | reference name => exact tidy.unbroken.break_not_mem
  | array component ih => exact ih tidy
  | _ => trivial

/-- A constant does not break the line: line breaks are written as escapes. -/
theorem Literal.break_not_mem_source {value : Literal} (tidy : value.Tidy) :
    '\n' ∉ value.source.toList := by
  intro mem
  have shows := shows_of_mem_source (by decide) mem
  cases value with
  | str value => exact absurd shows.2 (by decide)
  | char value => exact absurd shows.2 (by decide)
  | type value => exact shows (JavaType.Tidy.avoids tidy)
  | _ => exact shows

theorem noFalseStart_of_numerals {text : List Char} (numerals : ∀ c ∈ text, isNumeral c = true) :
    NoFalseStart text := by
  intro c head
  have numeral := numerals c (List.mem_of_mem_head? head)
  constructor <;>
  · rintro rfl
    exact absurd numeral (by decide)

theorem Literal.noFalseStart_floating {owner cast : String}
    (ownerStart : Line.startsPlain owner.toList = true)
    (castStart : cast = "" ∨ Line.startsPlain cast.toList = true) (format : Decimal.Format)
    (bits : Nat) : NoFalseStart (floating owner cast format bits).toList := by
  have behind (text : String) : NoFalseStart (owner ++ text).toList := by
    rw [String.toList_append]
    exact noFalseStart_of_startsPlain (startsPlain_append ownerStart _)
  unfold floating
  split
  · exact behind _
  · exact behind _
  · exact behind _
  · rw [String.toList_append, String.toList_ofList]
    rcases castStart with rfl | plain
    · exact noFalseStart_of_numerals fun c => Decimal.isNumeral_of_mem_renderBinary
    · exact noFalseStart_of_startsPlain (startsPlain_append plain _)

theorem Literal.noFalseStart_source {value : Literal} (tidy : value.Tidy) :
    NoFalseStart value.source.toList := by
  cases value with
  | null => exact noFalseStart_of_startsPlain (by decide)
  | bool value => cases value <;> exact noFalseStart_of_startsPlain (by decide)
  | int value => exact noFalseStart_of_numerals fun c => isNumeral_of_mem_toString
  | long value =>
    have number : NoFalseStart (toString value.toInt).toList :=
      noFalseStart_of_numerals fun c => isNumeral_of_mem_toString
    rw [source, String.toList_append]
    exact noFalseStart_of_startsPlain (number.append (by decide))
  | float bits => exact noFalseStart_floating (by decide) (.inr (by decide)) _ _
  | double bits => exact noFalseStart_floating (by decide) (.inl rfl) _ _
  | char value =>
    rw [source, ofChar]
    split
    · rw [String.toList_append]
      exact noFalseStart_of_startsPlain (startsPlain_append (by decide) _)
    · rw [String.toList_ofList]
      exact noFalseStart_of_startsPlain rfl
  | str value =>
    rw [source, ofString, String.toList_ofList]
    exact noFalseStart_of_startsPlain rfl
  | type value =>
    rw [source, ofType, String.toList_append]
    exact noFalseStart_of_startsPlain (startsPlain_append (JavaType.isName_source tidy).startsPlain _)

/-! ## Words -/

/-- The names in the word can stand as names. The name of a class may be missing in front of its
    members. -/
def Word.Tidy : Word → Prop
  | .var name | .field name | .method name | .label name => IsName name
  | .owner name => Unbroken name
  | .type named => named.Tidy
  | .literal value => value.Tidy
  | .lead _ => False

theorem Word.Tidy.break_not_mem {word : Word} (tidy : word.Tidy) : '\n' ∉ word.text.toList := by
  cases word with
  | var _ | field _ | method _ | label _ => exact tidy.unbroken.break_not_mem
  | owner _ => exact Unbroken.break_not_mem tidy
  | type named => exact (JavaType.isName_source tidy).unbroken.break_not_mem
  | literal value => exact Literal.break_not_mem_source tidy
  | lead _ => exact tidy.elim

theorem isName_numbered {name : String} (tidy : IsName name) (n : Nat) :
    IsName (name ++ toString n) := by
  refine tidy.append fun c mem listed => ?_
  have digit := isDigit_of_mem_toString mem
  simp only [List.mem_cons, List.not_mem_nil, or_false] at listed
  rcases listed with rfl | rfl | rfl | rfl <;> exact absurd digit (by decide)

theorem Word.closed_tidy : Closed Tidy where
  temp := isName_numbered (by decide)
  label := isName_numbered (by decide)
  object := (by decide : IsName JavaType.objectName)
  boolean := trivial
  exception := (by decide : IsName "java.lang.Exception")
  component := id
  owner tidy := (JavaType.isName_source tidy).unbroken
  null := trivial
  zero := trivial
  bool _ := trivial

/-! ## Lines without breaks -/

/-- The search for line breaks. -/
def breakReading : Reading Char := .ofChar '\n' (by decide)

theorem see_breakReading {text : String} : breakReading.see text = [] ↔ '\n' ∉ text.toList := by
  show text.toList.filter (· == '\n') = [] ↔ _
  rw [List.filter_eq_nil_iff]
  exact ⟨fun free mem => free _ mem rfl, fun free c mem same => free (beq_iff_eq.mp same ▸ mem)⟩

theorem breakReading_words {words : List Word} (tidy : OverAll Word.Tidy words) :
    words.flatMap breakReading.word = [] :=
  List.flatMap_eq_nil_iff.mpr fun word mem => see_breakReading.mpr (tidy word mem).break_not_mem

theorem breakReading_ends {words : List Word} (tidy : OverAll Word.Tidy words) :
    OverAll breakReading.Ends words := by
  rintro word mem text rfl
  exact (tidy _ mem).elim

/-- No line of a statement is broken. -/
theorem break_not_mem_pieces {stmt : Stmt} (tidy : OverAll Word.Tidy stmt.words) :
    ∀ piece ∈ stmt.pieces, breakReading.piece piece = [] := by
  have found := breakReading.pieces_eq stmt (breakReading_ends tidy)
  rw [breakReading_words tidy] at found
  exact List.flatMap_eq_nil_iff.mp found

/-! ## Expressions at the start of a line -/

/-- A text that starts with one that starts plainly. -/
theorem startsPlain_toList (first : String) (plain : Line.startsPlain first.toList = true)
    (second : String) (tail : List Char) :
    Line.startsPlain ((first ++ second).toList ++ tail) = true := by
  rw [String.toList_append, List.append_assoc]
  exact startsPlain_append plain _

theorem UnaryOp.startsPlain_symbol (op : UnaryOp) : Line.startsPlain op.symbol.toList = true := by
  cases op <;> decide

/-- A line that starts with an expression starts plainly, if what follows the expression does. -/
theorem startsPlain_text (tail : List Char) (plain : Line.startsPlain tail = true) :
    (expr : Expr) → OverAll Word.Tidy expr.words → Line.startsPlain (expr.text.toList ++ tail) = true
  | .literal value, tidy => (Literal.noFalseStart_source (tidy _ List.mem_cons_self)).append plain
  | .this, _ => startsPlain_append (by decide) tail
  | .var name, tidy => startsPlain_append (tidy (.var name) List.mem_cons_self).startsPlain tail
  | .owner name, tidy => (Unbroken.noFalseStart (tidy (.owner name) List.mem_cons_self)).append plain
  | .field target name, tidy => by
    have start := startsPlain_text (".".toList ++ (name.toList ++ tail)) rfl target
      (OverAll.append_iff.mp tidy).1
    simpa [Expr.text] using start
  | .call target method args, tidy => by
    have start := startsPlain_text (".".toList ++ ((method ++ ("(" ++
      (", ".intercalate (Expr.texts args) ++ ")"))).toList ++ tail)) rfl target
      (OverAll.append_iff.mp tidy).1
    simpa [Expr.text] using start
  | .unary op operand, _ => by
    simp only [Expr.text, String.append_assoc]
    exact startsPlain_toList op.symbol op.startsPlain_symbol _ tail
  | .concat [], _ => startsPlain_append (by decide) tail
  | .concat (first :: rest), _ => by
    rw [Expr.text, String.append_assoc]
    split
    · exact startsPlain_toList "(" (by decide) _ tail
    · exact startsPlain_toList "(\"\" + " (by decide) _ tail
  | .cast _ _, _ => by
    simp only [Expr.text, String.append_assoc]
    exact startsPlain_toList "((" (by decide) _ tail
  | .new _ _, _ | .newArray _ _, _ => by
    simp only [Expr.text, String.append_assoc]
    exact startsPlain_toList "new " (by decide) _ tail
  | .assign _ _, _ | .binary _ _ _, _ | .isNull _, _ | .instanceOf _ _, _ | .cond _ _ _, _ => by
    simp only [Expr.text, String.append_assoc]
    exact startsPlain_toList "(" (by decide) _ tail

end JavaBackend
