import JavaBackend.Proofs.Words.Reading
import JavaBackend.Proofs.Words.Lowering

/-!
# The characters of words

Which characters stand in the words of generated code: those of the names, types and constants that
it was made from, and the few that their spelling brings in (`wordTexts`).
-/

namespace JavaBackend

/-- The fixed texts in the spelling of types and constants. -/
def wordTexts : List String :=
  ["Object", "java.lang.Exception", "void", "boolean", "byte", "char", "short", "int", "long",
    "float", "double", "[]", ".",
    -- numbers, and the other constants
    "0123456789", "-", "e", "0", "L", "(float)", "(char)", "Float", "Double", ".NaN",
    ".POSITIVE_INFINITY", ".NEGATIVE_INFINITY", "null", "true", "false", ".class",
    -- quoted text
    "\"", "'", "\\", "nrtbfu", "0123456789abcdef"]

/-- The character stands in none of the fixed texts inside types and constants. -/
def Odd (c : Char) : Prop := ∀ text ∈ wordTexts, c ∉ text.toList

instance (c : Char) : Decidable (Odd c) := inferInstanceAs (Decidable (∀ _ ∈ _, _))

/-! ## Numbers -/

theorem mem_digits {c : Char} (digit : c.isDigit = true) : c ∈ "0123456789".toList := by
  have all : ∀ n < 58, 48 ≤ n → Char.ofNat n ∈ "0123456789".toList := by decide
  simp only [Char.isDigit, Bool.and_eq_true, decide_eq_true_eq] at digit
  have found := all c.toNat (Nat.lt_succ_of_le digit.2) digit.1
  rwa [Char.ofNat_toNat] at found

theorem isDigit_of_mem_toString {n : Nat} {c : Char} (mem : c ∈ (toString n).toList) :
    c.isDigit = true := by
  rw [Nat.toString_eq_repr, Nat.toList_repr] at mem
  exact Nat.isDigit_of_mem_toDigits (by decide) (by decide) mem

/-- The characters of decimal numbers. -/
def isNumeral (c : Char) : Bool := c.isDigit || c == '-' || c == '.' || c == 'e'

theorem isNumeral_of_mem_toString {n : Int} {c : Char} (mem : c ∈ (toString n).toList) :
    isNumeral c = true := by
  have digits {n : Nat} (mem : c ∈ (toString n).toList) : isNumeral c = true := by
    simp [isNumeral, isDigit_of_mem_toString mem]
  rw [Int.toString_eq_repr, Int.repr_eq_if] at mem
  split at mem
  · exact digits mem
  · rw [String.toList_append] at mem
    rcases List.mem_append.mp mem with mem | mem
    · cases List.mem_singleton.mp mem
      rfl
    · exact digits mem

namespace Decimal

theorem mem_positional {digits : List Char} {whole : Int} {c : Char}
    (mem : c ∈ positional digits whole) : c ∈ digits ∨ c = '0' ∨ c = '.' := by
  unfold positional at mem
  split at mem
  · simp only [List.mem_cons, List.mem_append, List.mem_replicate] at mem
    grind
  · split at mem
    · simp only [List.mem_cons, List.mem_append, List.mem_replicate, List.not_mem_nil] at mem
      grind
    · simp only [List.mem_cons, List.mem_append] at mem
      rcases mem with mem | rfl | mem
      · exact .inl (List.mem_of_mem_take mem)
      · simp
      · exact .inl (List.mem_of_mem_drop mem)

theorem isNumeral_of_mem_scientific {digits : List Char} {power : Int} {c : Char}
    (all : ∀ c ∈ digits, isNumeral c = true) (mem : c ∈ scientific digits power) :
    isNumeral c = true := by
  unfold scientific at mem
  rcases List.mem_append.mp mem with mem | mem
  · split at mem
    · simp only [List.mem_cons] at mem
      rcases mem with rfl | rfl | rfl | mem
      · exact all _ (by simp)
      · rfl
      · exact all _ (by simp)
      · exact all _ (by simp [mem])
    · exact all c mem
  · rcases List.mem_cons.mp mem with rfl | mem
    · rfl
    · exact isNumeral_of_mem_toString mem

theorem isNumeral_of_mem_renderBinary {layout : Layout} {negative : Bool} {x : Binary} {c : Char}
    (mem : c ∈ layout.renderBinary negative x) : isNumeral c = true := by
  have sign {c : Char} (mem : c ∈ if negative then ['-'] else []) : isNumeral c = true := by
    cases negative <;> simp_all [isNumeral]
  have digits {n : Nat} : ∀ c ∈ (toString n).toList, isNumeral c = true := by
    intro c mem
    simp [isNumeral, isDigit_of_mem_toString mem]
  simp only [Layout.renderBinary] at mem
  by_cases zero : x.m = 0
  · rw [if_pos zero] at mem
    rcases List.mem_append.mp mem with mem | mem
    · exact sign mem
    · simp only [List.mem_cons, List.not_mem_nil, or_false] at mem
      rcases mem with rfl | rfl | rfl <;> rfl
  · rw [if_neg zero] at mem
    rcases List.mem_append.mp mem with mem | mem
    · exact sign mem
    · simp only [Layout.render] at mem
      split at mem
      · rcases mem_positional mem with mem | rfl | rfl
        · exact digits c mem
        · rfl
        · rfl
      · exact isNumeral_of_mem_scientific digits mem

end Decimal

/-- An odd character is none of a number. -/
theorem Odd.not_numeral {c : Char} (odd : Odd c) : ¬isNumeral c = true := by
  intro numeral
  simp only [isNumeral, Bool.or_eq_true, beq_iff_eq] at numeral
  rcases numeral with ((digit | rfl) | rfl) | rfl
  · exact odd "0123456789" (by decide) (mem_digits digit)
  · exact odd "-" (by decide) (by decide)
  · exact odd "." (by decide) (by decide)
  · exact odd "e" (by decide) (by decide)

/-! ## Types and constants -/

/-- The character stands in no name of the type. -/
def JavaType.Avoids (c : Char) : JavaType → Prop
  | .reference name => c ∉ name.toList
  | .array component => component.Avoids c
  | _ => True

theorem JavaType.not_mem_source {c : Char} (odd : Odd c) {type : JavaType} (avoids : type.Avoids c) :
    c ∉ type.source.toList := by
  induction type with
  | reference name =>
    unfold source
    split
    · exact odd "Object" (by decide)
    · intro mem
      simp only [mapChars, String.toList_ofList, List.mem_map] at mem
      obtain ⟨old, mem, same⟩ := mem
      split at same <;> cases same
      · exact odd "." (by decide) (by decide)
      · exact avoids mem
  | array component ih =>
    rw [source, String.toList_append]
    intro mem
    rcases List.mem_append.mp mem with mem | mem
    · exact ih avoids mem
    · exact odd "[]" (by decide) mem
  | void => exact odd "void" (by decide)
  | boolean => exact odd "boolean" (by decide)
  | byte => exact odd "byte" (by decide)
  | char => exact odd "char" (by decide)
  | short => exact odd "short" (by decide)
  | int => exact odd "int" (by decide)
  | long => exact odd "long" (by decide)
  | float => exact odd "float" (by decide)
  | double => exact odd "double" (by decide)

namespace Text

theorem mem_hexDigits {n : Nat} {c : Char} (mem : c ∈ hexDigits n) :
    c ∈ "0123456789abcdef".toList := by
  have digit : ∀ d < 16, d.digitChar ∈ "0123456789abcdef".toList := by decide
  simp only [hexDigits, List.map_cons, List.map_nil, List.mem_cons, List.not_mem_nil,
    or_false] at mem
  rcases mem with rfl | rfl | rfl | rfl <;> exact digit _ (Nat.mod_lt _ (by decide))

/-- What stands for a character inside quotes is the character itself, unless it is a control
    character, or starts with a backslash. -/
theorem escape_cases (quote original : Char) :
    escape quote original = [original] ∧ isControl original = false ∨
      ∃ rest, escape quote original = '\\' :: rest ∧
        ∀ c ∈ rest, c = original ∧ c = quote ∨ c = '\\' ∨ c ∈ "nrtbfu".toList ∨
          c ∈ "0123456789abcdef".toList := by
  have letter {d : Char} (listed : d ∈ "nrtbfu".toList) : ∀ c ∈ [d], c = original ∧ c = quote ∨
      c = '\\' ∨ c ∈ "nrtbfu".toList ∨ c ∈ "0123456789abcdef".toList :=
    List.forall_mem_singleton.mpr (.inr (.inr (.inl listed)))
  unfold escape
  split
  · exact .inr ⟨_, rfl, by simp⟩
  split
  · exact .inr ⟨_, rfl, letter (by decide)⟩
  split
  · exact .inr ⟨_, rfl, letter (by decide)⟩
  split
  · exact .inr ⟨_, rfl, letter (by decide)⟩
  split
  · exact .inr ⟨_, rfl, letter (by decide)⟩
  split
  · exact .inr ⟨_, rfl, letter (by decide)⟩
  split
  · next same => exact .inr ⟨_, rfl, by simp [same]⟩
  split
  · refine .inr ⟨_, rfl, List.forall_mem_cons.mpr ⟨.inr (.inr (.inl (by decide))), ?_⟩⟩
    exact fun c mem => .inr (.inr (.inr (mem_hexDigits mem)))
  · next plain => exact .inl ⟨rfl, by simpa using plain⟩

/-- An odd character stands inside quotes for itself only, and is no control character then. -/
theorem mem_escape {c quote original : Char} (odd : Odd c) (other : c ≠ quote)
    (mem : c ∈ escape quote original) : c = original ∧ isControl c = false := by
  have slash : c ≠ '\\' := fun same => odd "\\" (by decide) (by simp [same])
  rcases escape_cases quote original with ⟨same, plain⟩ | ⟨rest, same, all⟩
  · rw [same, List.mem_singleton] at mem
    subst mem
    exact ⟨rfl, plain⟩
  · rw [same, List.mem_cons] at mem
    rcases all c (mem.resolve_left slash) with ⟨-, same⟩ | same | listed | listed
    · exact absurd same other
    · exact absurd same slash
    · exact absurd listed (odd "nrtbfu" (by decide))
    · exact absurd listed (odd "0123456789abcdef" (by decide))

theorem mem_quoted {c quote : Char} {content : List Char} (odd : Odd c) (other : c ≠ quote)
    (mem : c ∈ quoted quote content) : c ∈ content ∧ isControl c = false := by
  simp only [quoted, List.mem_cons, List.mem_append, List.mem_flatMap, List.not_mem_nil,
    or_false] at mem
  rcases mem with same | ⟨original, found, mem⟩ | same
  · exact absurd same other
  · obtain ⟨rfl, plain⟩ := mem_escape odd other mem
    exact ⟨found, plain⟩
  · exact absurd same other

end Text

namespace Literal

/-- The character stands for itself in the quoted text of the constant, or in a name of the type that
    it stands for. -/
def Shows (c : Char) : Literal → Prop
  | .str value => c ∈ value.toList ∧ Text.isControl c = false
  | .char value => c = value ∧ Text.isControl c = false
  | .type value => ¬value.Avoids c
  | _ => False

theorem not_mem_floating {c : Char} (odd : Odd c) {owner cast : String}
    (ownerFree : c ∉ owner.toList) (castFree : c ∉ cast.toList) (format : Decimal.Format)
    (bits : Nat) : c ∉ (floating owner cast format bits).toList := by
  have behind {text : String} (listed : text ∈ wordTexts) : c ∉ (owner ++ text).toList := by
    rw [String.toList_append, List.mem_append, not_or]
    exact ⟨ownerFree, odd text listed⟩
  unfold floating
  split
  · exact behind (by decide)
  · exact behind (by decide)
  · exact behind (by decide)
  · rw [String.toList_append, String.toList_ofList, List.mem_append, not_or]
    exact ⟨castFree, fun mem => odd.not_numeral (Decimal.isNumeral_of_mem_renderBinary mem)⟩

/-- An odd character stands in the source of a constant only where the constant shows it. -/
theorem shows_of_mem_source {c : Char} (odd : Odd c) {value : Literal}
    (mem : c ∈ value.source.toList) : value.Shows c := by
  cases value with
  | null => exact absurd mem (odd "null" (by decide))
  | bool value =>
    cases value
    · exact absurd mem (odd "false" (by decide))
    · exact absurd mem (odd "true" (by decide))
  | int value => exact absurd (isNumeral_of_mem_toString mem) odd.not_numeral
  | long value =>
    rw [source, String.toList_append] at mem
    rcases List.mem_append.mp mem with mem | mem
    · exact absurd (isNumeral_of_mem_toString mem) odd.not_numeral
    · exact absurd mem (odd "L" (by decide))
  | float bits =>
    exact absurd mem (not_mem_floating odd (odd "Float" (by decide)) (odd "(float)" (by decide)) _ _)
  | double bits => exact absurd mem (not_mem_floating odd (odd "Double" (by decide)) (by simp) _ _)
  | char value =>
    rw [source, ofChar] at mem
    split at mem
    · rw [String.toList_append] at mem
      rcases List.mem_append.mp mem with mem | mem
      · exact absurd mem (odd "(char)" (by decide))
      · exact absurd (mem_digits (isDigit_of_mem_toString mem)) (odd "0123456789" (by decide))
    · rw [String.toList_ofList] at mem
      have other : c ≠ '\'' := fun same => odd "'" (by decide) (by simp [same])
      obtain ⟨same, plain⟩ := Text.mem_quoted odd other mem
      exact ⟨List.mem_singleton.mp same, plain⟩
  | str value =>
    rw [source, ofString, String.toList_ofList] at mem
    have other : c ≠ '"' := fun same => odd "\"" (by decide) (by simp [same])
    exact Text.mem_quoted odd other mem
  | type value =>
    rw [source, ofType, String.toList_append] at mem
    intro avoids
    rcases List.mem_append.mp mem with mem | mem
    · exact JavaType.not_mem_source odd avoids mem
    · exact odd ".class" (by decide) mem

end Literal

/-! ## Words -/

/-- The character stands in no name, type or quoted text of the word, unless the word is the name of
    a method. -/
def Word.Avoids (c : Char) : Word → Prop
  | .method _ => True
  | .var name | .field name | .owner name | .label name | .lead name => c ∉ name.toList
  | .type named => named.Avoids c
  | .literal value => ¬value.Shows c

theorem not_mem_numbered {c : Char} (odd : Odd c) {name : String} (free : c ∉ name.toList) (n : Nat) :
    c ∉ (name ++ toString n).toList := by
  rw [String.toList_append, List.mem_append, not_or]
  exact ⟨free, fun mem => odd "0123456789" (by decide) (mem_digits (isDigit_of_mem_toString mem))⟩

/-- What lowering brings in avoids every odd character that its names do not have. -/
theorem Word.closed_avoids {c : Char} (odd : Odd c) (temp : c ∉ "temp$".toList)
    (label : c ∉ "label".toList) : Closed (Avoids c) where
  temp := not_mem_numbered odd temp
  label := not_mem_numbered odd label
  object := by
    have covered : ∀ c ∈ JavaType.objectName.toList,
        c ∈ "java.lang.Exception".toList ∨ c ∈ "Object".toList := by simp [JavaType.objectName]
    exact fun mem => (covered c mem).elim (odd _ (by decide)) (odd _ (by decide))
  boolean := trivial
  exception := by
    have named : anyException = .reference "java.lang.Exception" := by decide
    rw [named]
    exact odd "java.lang.Exception" (by decide)
  component := id
  owner := JavaType.not_mem_source odd
  null := id
  zero := id
  bool _ := id

/-- An odd character stands in words that avoid it only as part of the name of a method. -/
theorem Word.not_mem_text {c : Char} (odd : Odd c) {word : Word} (avoids : word.Avoids c)
    (other : ∀ name, word ≠ .method name) : c ∉ word.text.toList := by
  cases word with
  | method name => exact absurd rfl (other name)
  | var _ | field _ | owner _ | label _ | lead _ => exact avoids
  | type named => exact JavaType.not_mem_source odd avoids
  | literal value => exact fun mem => avoids (Literal.shows_of_mem_source odd mem)

end JavaBackend
