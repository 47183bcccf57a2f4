import JavaBackend.Proofs.Words.Characters

/-!
# Reading quoted text

How Java reads what stands between quotes. Unicode escapes are translated in all of a text before it
is taken apart: a backslash starts one if `u` follows it and if an even number of backslashes stands
right in front of it. Only then are the quotes and the escapes between them looked at, so that a
translated character counts as if it had been written there.

The main statement is `quoted_reads_back`: a literal is read as the text that it was made from.
-/

namespace JavaBackend.Java

/-! ## Unicode escapes -/

/-- The value of a hexadecimal digit. -/
def hexValue? (c : Char) : Option Nat :=
  if '0' ≤ c ∧ c ≤ '9' then some (c.toNat - '0'.toNat)
  else if 'a' ≤ c ∧ c ≤ 'f' then some (c.toNat - 'a'.toNat + 10)
  else if 'A' ≤ c ∧ c ≤ 'F' then some (c.toNat - 'A'.toNat + 10)
  else none

/-- The character of a code. Codes that stand for half a character only have none. -/
def charOf? (code : Nat) : Option Char :=
  if (Char.ofNat code).toNat = code then some (Char.ofNat code) else none

/-- Where the translation of a text stands. -/
inductive Decoding where
  /-- An even number of backslashes is in front. -/
  | plain
  /-- Behind a backslash that can start an escape. -/
  | slash
  /-- Behind the letter of an escape, which may be repeated. -/
  | marker
  /-- Inside the digits of an escape: how many of them follow, and the value so far. -/
  | digits (left : Nat) (value : Nat)
  deriving DecidableEq, Repr

/-- A text with its unicode escapes translated. An escape without four digits is refused. -/
def translate? : Decoding → List Char → Option (List Char)
  | .plain, [] => some []
  | .slash, [] => some ['\\']
  | .marker, [] | .digits _ _, [] => none
  | .plain, c :: rest =>
    if c = '\\' then translate? .slash rest else (c :: ·) <$> translate? .plain rest
  | .slash, c :: rest =>
    -- the second backslash of a pair starts nothing
    if c = 'u' then translate? .marker rest else ('\\' :: c :: ·) <$> translate? .plain rest
  | .marker, c :: rest =>
    if c = 'u' then translate? .marker rest
    else (hexValue? c).bind fun value => translate? (.digits 2 value) rest
  | .digits left value, c :: rest =>
    (hexValue? c).bind fun digit =>
      match left with
      | 0 => (charOf? (value * 16 + digit)).bind fun char => (char :: ·) <$> translate? .plain rest
      | left + 1 => translate? (.digits left (value * 16 + digit)) rest

/-! ## Quotes -/

/-- The character of a short escape. -/
def shortEscape? : Char → Option Char
  | 'b' => some '\x08'
  | 't' => some '\t'
  | 'n' => some '\n'
  | 'f' => some '\x0c'
  | 'r' => some '\r'
  | '"' => some '"'
  | '\'' => some '\''
  | '\\' => some '\\'
  | _ => none

/-- What stands in front of the quote that ends a literal, and what follows the quote. A literal does
    not go beyond its line. -/
def quoted? (quote : Char) : List Char → Option (List Char × List Char)
  | [] => none
  | '\\' :: c :: rest =>
    (shortEscape? c).bind fun char =>
      (fun (content, rest) => (char :: content, rest)) <$> quoted? quote rest
  | c :: rest =>
    if c = quote then some ([], rest)
    else if c ∈ ['\\', '\n', '\r'] then none
    else (fun (content, rest) => (c :: content, rest)) <$> quoted? quote rest

/-- The content of a text that is one literal between quotes, from its first character to its last. -/
def readLiteral? (quote : Char) (text : List Char) : Option (List Char) :=
  match translate? .plain text with
  | some (c :: rest) =>
    if c = quote then
      match quoted? quote rest with
      | some (content, []) => some content
      | _ => none
    else none
  | _ => none

end JavaBackend.Java

namespace JavaBackend.Text

open Java (hexValue? charOf? translate? quoted? readLiteral?)

/-- The quotes of strings and of characters. -/
def IsQuote (quote : Char) : Prop := quote = '"' ∨ quote = '\''

/-- What is left of a character's spelling once unicode escapes are translated. -/
def translated (quote c : Char) : List Char :=
  if escape quote c = '\\' :: 'u' :: hexDigits c.toNat then [c] else escape quote c

variable {quote c : Char} {rest : List Char}

/-! ## Translation -/

theorem hexValue?_digitChar {n : Nat} (digit : n < 16) : hexValue? n.digitChar = some n := by
  have all : ∀ n < 16, hexValue? n.digitChar = some n := by decide
  exact all n digit

theorem charOf?_toNat (c : Char) : charOf? c.toNat = some c := by
  simp [charOf?]

/-- Four digits are read as the number that they were written for. -/
theorem translate?_hexDigits {n : Nat} (small : n < 65536) (rest : List Char) :
    translate? .marker (hexDigits n ++ rest) =
      (charOf? n).bind fun char => (char :: ·) <$> translate? .plain rest := by
  have noMarker : ∀ n < 16, n.digitChar ≠ 'u' := by decide
  have value : ((n / 4096 % 16 * 16 + n / 256 % 16) * 16 + n / 16 % 16) * 16 + n % 16 = n := by omega
  simp [hexDigits, translate?, noMarker, hexValue?_digitChar, Nat.mod_lt, value]

theorem translate?_plain {text : List Char} (free : '\\' ∉ text) :
    translate? .plain (text ++ rest) = (text ++ ·) <$> translate? .plain rest := by
  induction text with
  | nil => simp
  | cons c text ih =>
    obtain ⟨other, free⟩ : c ≠ '\\' ∧ '\\' ∉ text := by
      simpa [eq_comm] using free
    rw [List.cons_append, translate?, if_neg other, ih free]
    simp [Function.comp_def]

theorem escape_control (own : c ≠ '\\' ∧ c ≠ '\n' ∧ c ≠ '\r' ∧ c ≠ '\t' ∧ c ≠ '\x08' ∧ c ≠ '\x0c')
    (other : c ≠ quote) (control : isControl c = true) :
    escape quote c = '\\' :: 'u' :: hexDigits c.toNat := by
  simp [escape, own, other, control]

theorem escape_self (own : c ≠ '\\') (other : c ≠ quote) (plain : isControl c = false) :
    escape quote c = [c] := by
  have visible : ∀ control : Char, isControl control = true → c ≠ control := by
    rintro control control rfl
    exact Bool.false_ne_true (plain.symm.trans control)
  simp [escape, own, other, plain, visible '\n' rfl, visible '\r' rfl, visible '\t' rfl,
    visible '\x08' rfl, visible '\x0c' rfl]

/-- The three forms that a character's spelling has: a short escape, a unicode escape, and the
    character itself. -/
theorem escape_forms (isQuote : IsQuote quote) (c : Char) :
    (∃ letter, escape quote c = ['\\', letter] ∧ letter ≠ 'u' ∧ Java.shortEscape? letter = some c) ∨
      (escape quote c = '\\' :: 'u' :: hexDigits c.toNat ∧ isControl c = true ∧
        c ∉ ['\\', '\n', '\r', quote]) ∨
      (escape quote c = [c] ∧ c ∉ ['\\', '\n', '\r', quote]) := by
  have short : ∀ letter, escape quote c = ['\\', letter] → letter ≠ 'u' →
      Java.shortEscape? letter = some c →
      ∃ letter, escape quote c = ['\\', letter] ∧ letter ≠ 'u' ∧ Java.shortEscape? letter = some c :=
    fun letter spelled other means => ⟨letter, spelled, other, means⟩
  by_cases slash : c = '\\'
  · subst slash
    exact .inl (short '\\' (by simp [escape]) (by decide) rfl)
  by_cases line : c = '\n'
  · subst line
    exact .inl (short 'n' (by simp [escape]) (by decide) rfl)
  by_cases back : c = '\r'
  · subst back
    exact .inl (short 'r' (by simp [escape]) (by decide) rfl)
  by_cases tab : c = '\t'
  · subst tab
    exact .inl (short 't' (by simp [escape]) (by decide) rfl)
  by_cases erase : c = '\x08'
  · subst erase
    exact .inl (short 'b' (by simp [escape]) (by decide) rfl)
  by_cases feed : c = '\x0c'
  · subst feed
    exact .inl (short 'f' (by simp [escape]) (by decide) rfl)
  by_cases own : c = quote
  · subst own
    refine .inl (short c (by simp [escape, slash, line, back, tab, erase, feed]) ?_ ?_) <;>
      rcases isQuote with rfl | rfl <;> decide
  have apart : c ∉ ['\\', '\n', '\r', quote] := by simp [slash, line, back, own]
  cases control : isControl c with
  | true =>
    exact .inr (.inl ⟨escape_control ⟨slash, line, back, tab, erase, feed⟩ own control, rfl, apart⟩)
  | false => exact .inr (.inr ⟨escape_self slash own control, apart⟩)

theorem small_of_isControl (control : isControl c = true) : c.toNat < 65536 := by
  simp only [isControl, Bool.or_eq_true, Bool.and_eq_true, decide_eq_true_eq] at control
  omega

theorem translated_of_short {letter : Char} (spelled : escape quote c = ['\\', letter]) :
    translated quote c = ['\\', letter] := by
  simp [translated, spelled, hexDigits]

theorem translated_of_unicode (spelled : escape quote c = '\\' :: 'u' :: hexDigits c.toNat) :
    translated quote c = [c] := if_pos spelled

theorem translated_of_self (spelled : escape quote c = [c]) : translated quote c = [c] := by
  simp [translated, spelled]

/-- Translation leaves the short escapes alone and takes the unicode escapes away. -/
theorem translate?_escape (isQuote : IsQuote quote) (c : Char) (rest : List Char) :
    translate? .plain (escape quote c ++ rest) =
      (translated quote c ++ ·) <$> translate? .plain rest := by
  rcases escape_forms isQuote c with ⟨letter, spelled, other, -⟩ | ⟨spelled, control, -⟩ |
    ⟨spelled, apart⟩
  · rw [translated_of_short spelled, spelled]
    simp [translate?, other]
  · rw [translated_of_unicode spelled, spelled]
    have digits := translate?_hexDigits (small_of_isControl control) rest
    rw [charOf?_toNat] at digits
    exact digits
  · rw [translated_of_self spelled, spelled]
    exact translate?_plain (by simpa [eq_comm] using (not_or.mp (mt List.mem_cons.mpr apart)).1)

theorem translate?_content (isQuote : IsQuote quote) (content rest : List Char) :
    translate? .plain (content.flatMap (escape quote) ++ rest) =
      (content.flatMap (translated quote) ++ ·) <$> translate? .plain rest := by
  induction content with
  | nil => simp
  | cons c content ih =>
    rw [List.flatMap_cons, List.append_assoc, translate?_escape isQuote, ih, List.flatMap_cons]
    simp [Function.comp_def]

/-! ## Reading -/

/-- What is left of a character's spelling is read as the character. -/
theorem quoted?_translated (isQuote : IsQuote quote) (c : Char) (rest : List Char) :
    quoted? quote (translated quote c ++ rest) =
      (fun (content, rest) => (c :: content, rest)) <$> quoted? quote rest := by
  rcases escape_forms isQuote c with ⟨letter, spelled, -, means⟩ | ⟨spelled, -, apart⟩ |
    ⟨spelled, apart⟩
  · rw [translated_of_short spelled]
    simp [quoted?, means]
  · rw [translated_of_unicode spelled]
    simp_all [quoted?]
  · rw [translated_of_self spelled]
    simp_all [quoted?]

theorem quoted?_content (isQuote : IsQuote quote) (content rest : List Char) :
    quoted? quote (content.flatMap (translated quote) ++ quote :: rest) = some (content, rest) := by
  induction content with
  | nil => rcases isQuote with rfl | rfl <;> simp [quoted?]
  | cons c content ih =>
    rw [List.flatMap_cons, List.append_assoc, quoted?_translated isQuote, ih]
    rfl

/-- A quoted text is one literal, and its content is what was quoted. -/
theorem quoted_reads_back (isQuote : IsQuote quote) (content : List Char) :
    readLiteral? quote (quoted quote content) = some content := by
  have other : quote ≠ '\\' := by rcases isQuote with rfl | rfl <;> decide
  have text : translate? .plain (quoted quote content) =
      some (quote :: (content.flatMap (translated quote) ++ [quote])) := by
    rw [quoted, translate?, if_neg other, translate?_content isQuote]
    simp [translate?, other]
  simp [readLiteral?, text, quoted?_content isQuote]

/-- No line of the source ends inside quotes. -/
theorem break_not_mem_quoted {lineBreak : Char} (isQuote : IsQuote quote)
    (isBreak : lineBreak = '\n' ∨ lineBreak = '\r') (content : List Char) :
    lineBreak ∉ quoted quote content := by
  intro mem
  have odd : Odd lineBreak := by rcases isBreak with rfl | rfl <;> decide
  have other : lineBreak ≠ quote := by
    rcases isBreak with rfl | rfl <;> rcases isQuote with rfl | rfl <;> decide
  have visible := (mem_quoted odd other mem).2
  rcases isBreak with rfl | rfl <;> exact absurd visible (by decide)

end JavaBackend.Text

namespace JavaBackend.Literal

open Java (readLiteral?)
open Text (quoted_reads_back break_not_mem_quoted)

/-- String literals, and character literals of 16 bits, are read as what they were made from, and
    stand on one line. So different values have different literals. -/
theorem quoted_literals_read_back :
    (∀ value : String, readLiteral? '"' (ofString value).toList = some value.toList ∧
      '\n' ∉ (ofString value).toList ∧ '\r' ∉ (ofString value).toList) ∧
    (∀ value : Char, value.toNat ≤ 0xffff → readLiteral? '\'' (ofChar value).toList = some [value] ∧
      '\n' ∉ (ofChar value).toList ∧ '\r' ∉ (ofChar value).toList) ∧
    (∀ value other : String, ofString value = ofString other → value = other) ∧
    ∀ value other : Char, value.toNat ≤ 0xffff → other.toNat ≤ 0xffff → ofChar value = ofChar other →
      value = other := by
  have strings : ∀ value : String, readLiteral? '"' (ofString value).toList = some value.toList := by
    intro value
    rw [ofString, String.toList_ofList]
    exact quoted_reads_back (.inl rfl) _
  have small : ∀ value : Char, value.toNat ≤ 0xffff →
      (ofChar value).toList = Text.quoted '\'' [value] := by
    intro value fits
    rw [ofChar, if_neg (Nat.not_lt.mpr fits), String.toList_ofList]
  have chars : ∀ value : Char, value.toNat ≤ 0xffff →
      readLiteral? '\'' (ofChar value).toList = some [value] := by
    intro value fits
    rw [small value fits]
    exact quoted_reads_back (.inr rfl) _
  refine ⟨fun value => ⟨strings value, ?_, ?_⟩, fun value fits => ⟨chars value fits, ?_, ?_⟩, ?_, ?_⟩
  · rw [ofString, String.toList_ofList]
    exact break_not_mem_quoted (.inl rfl) (.inl rfl) _
  · rw [ofString, String.toList_ofList]
    exact break_not_mem_quoted (.inl rfl) (.inr rfl) _
  · rw [small value fits]
    exact break_not_mem_quoted (.inr rfl) (.inl rfl) _
  · rw [small value fits]
    exact break_not_mem_quoted (.inr rfl) (.inr rfl) _
  · intro value other same
    have read := strings value
    rw [same, strings other] at read
    exact (String.toList_inj.mp (Option.some.inj read)).symm
  · intro value other fits fits' same
    have read := chars value fits
    rw [same, chars other fits'] at read
    exact (List.singleton_inj.mp (Option.some.inj read)).symm

/-- A backslash in front of the letter `u`, and a control character behind a backslash. -/
theorem slashes_read_back :
    readLiteral? '"' (ofString "\\u0041\\\x07").toList =
      some ['\\', 'u', '0', '0', '4', '1', '\\', '\x07'] ∧
      'é'.toNat ≤ 0xffff ∧ readLiteral? '\'' (ofChar 'é').toList = some ['é'] :=
  ⟨(quoted_literals_read_back.1 _).1, by decide, (quoted_literals_read_back.2.1 'é' (by decide)).1⟩

end JavaBackend.Literal
