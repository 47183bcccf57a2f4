import JavaBackend.Operator
import JavaBackend.Proofs.Grammar.Quotes

/-!
# The tokens of Java expressions

`lex` reads the tokens off a text by the rules of the Java language: unicode escapes are translated
first, the longest token at a place is taken, words are keywords or names, and literals stand for
their values. Of the lexical grammar only what expressions need is there. A text with anything else
in it (comments, text blocks, numbers in other bases or with other suffixes, octal escapes) is
refused, never read in another way.

Which characters beyond ASCII are letters is a matter of the Unicode version. An `Alphabet` stands
for it, and nothing depends on which one it is.

`Reads` is `lex` in a form that takes a text token by token: there is one rule for each kind of
token, which says what may follow the token so that it ends where it should.
-/

namespace JavaBackend.Java

/-- A token. Literals have the values that they stand for. -/
inductive Token where
  | name (text : String)
  | int (value : Nat)
  | long (value : Nat)
  | double (value : Rat)
  | char (value : Char)
  | str (value : String)
  | bool (value : Bool)
  | null
  | this
  | new
  | classWord
  | instanceOf
  | primitive (type : JavaType)
  /-- A keyword of other constructs. -/
  | reserved
  /-- An operator between two values, two of which also stand in front of one value. -/
  | op (op : BinaryOp)
  | not
  | complement
  | assign
  | question
  | colon
  | comma
  | dot
  | opening
  | closing
  | openBracket
  | closeBracket
  /-- A symbol of other constructs. -/
  | foreign
  deriving DecidableEq, Repr

/-! ## Words -/

/-- The characters for which Unicode decides whether a word can start with them or go on with
    them. -/
structure Alphabet where
  starts : Char → Bool
  goesOn : Char → Bool

/-- The characters that an alphabet decides about: those beyond ASCII, and the control characters
    that a word may hold. -/
def isExotic (c : Char) : Bool :=
  c.toNat < 0x09 || (0x0e ≤ c.toNat && c.toNat < 0x1c) || 0x7f ≤ c.toNat

/-- The characters that a word can start with. -/
def isLetter (alphabet : Alphabet) (c : Char) : Bool :=
  c.isAlpha || c == '_' || c == '$' || (isExotic c && alphabet.starts c)

/-- The characters that a word can go on with. -/
def isWordChar (alphabet : Alphabet) (c : Char) : Bool :=
  isLetter alphabet c || c.isDigit || (isExotic c && alphabet.goesOn c)

/-- The keywords with their tokens. -/
def keywordTokens : List (String × Token) :=
  [("this", .this), ("new", .new), ("null", .null), ("true", .bool true), ("false", .bool false),
    ("class", .classWord), ("instanceof", .instanceOf), ("boolean", .primitive .boolean),
    ("byte", .primitive .byte), ("char", .primitive .char), ("short", .primitive .short),
    ("int", .primitive .int), ("long", .primitive .long), ("float", .primitive .float),
    ("double", .primitive .double)] ++
  ["_", "abstract", "assert", "break", "case", "catch", "const", "continue", "default", "do",
    "else", "enum", "extends", "final", "finally", "for", "goto", "if", "implements", "import",
    "interface", "native", "package", "private", "protected", "public", "return", "static",
    "strictfp", "super", "switch", "synchronized", "throw", "throws", "transient", "try", "void",
    "volatile", "while"].map (·, .reserved)

/-- The token of a word. -/
def wordToken (word : String) : Token := (keywordTokens.lookup word).getD (.name word)

def isWord (alphabet : Alphabet) (word : String) : Bool :=
  match word.toList with
  | [] => false
  | c :: rest => isLetter alphabet c && rest.all (isWordChar alphabet)

/-- A name: a word that is no keyword. -/
def isIdentifier (alphabet : Alphabet) (word : String) : Bool :=
  isWord alphabet word && (keywordTokens.lookup word).isNone

/-! ## Symbols -/

/-- The symbols with their tokens. A symbol stands in front of those that it starts with. -/
def symbolTokens : List (List Char × Token) :=
  [(['>', '>', '>', '='], .foreign), (['>', '>', '>'], .op .ushr), (['>', '>', '='], .foreign),
    (['<', '<', '='], .foreign), (['.', '.', '.'], .foreign), (['>', '>'], .op .shr),
    (['<', '<'], .op .shl), (['>', '='], .op .ge), (['<', '='], .op .le), (['=', '='], .op .eq),
    (['!', '='], .op .ne), (['&', '&'], .op .and), (['|', '|'], .op .or), (['+', '+'], .foreign),
    (['-', '-'], .foreign), (['+', '='], .foreign), (['-', '='], .foreign), (['*', '='], .foreign),
    (['/', '='], .foreign), (['%', '='], .foreign), (['&', '='], .foreign), (['|', '='], .foreign),
    (['^', '='], .foreign), (['-', '>'], .foreign), ([':', ':'], .foreign), (['/', '/'], .foreign),
    (['/', '*'], .foreign), (['+'], .op .add), (['-'], .op .sub), (['*'], .op .mul),
    (['/'], .op .div), (['%'], .op .rem), (['<'], .op .lt), (['>'], .op .gt), (['|'], .op .bitOr),
    (['&'], .op .bitAnd), (['^'], .op .bitXor), (['!'], .not), (['~'], .complement),
    (['='], .assign), (['?'], .question), ([':'], .colon), ([','], .comma), (['.'], .dot),
    (['('], .opening), ([')'], .closing), (['['], .openBracket), ([']'], .closeBracket)]

/-- The longest symbol at the start of the text. -/
def symbol? (text : List Char) : Option (Token × List Char) :=
  symbolTokens.findSome? fun (symbol, token) =>
    if symbol.isPrefixOf text then some (token, text.drop symbol.length) else none

/-! ## Numbers -/

/-- The number `digits · 10 ^ exponent`. -/
def decimalValue (digits : Nat) (exponent : Int) : Rat :=
  mkRat (digits * Nat.pow 10 exponent.toNat : Nat) (Nat.pow 10 (-exponent).toNat)

/-- The number that decimal digits stand for. -/
def numberOf (digits : List Char) : Nat := Nat.ofDigitChars 10 digits 0

/-- The power of ten at the start of the text, if there is one. -/
def exponent? : List Char → Option (Int × List Char)
  | 'e' :: '-' :: rest =>
    if rest.head?.any Char.isDigit then
      some (-(numberOf (rest.takeWhile Char.isDigit) : Int), rest.dropWhile Char.isDigit)
    else none
  | 'e' :: rest =>
    if rest.head?.any Char.isDigit then
      some (numberOf (rest.takeWhile Char.isDigit), rest.dropWhile Char.isDigit)
    else none
  | rest => some (0, rest)

/-- A number that is not whole, given its digits and how many of them follow the point. -/
def real? (digits : List Char) (places : Nat) (rest : List Char) : Option (Token × List Char) :=
  (exponent? rest).map fun (power, rest) =>
    (.double (decimalValue (numberOf digits) (power - places)), rest)

/-- A whole number. One that starts with a zero would not be decimal. -/
def whole? (token : Nat → Token) (digits rest : List Char) : Option (Token × List Char) :=
  if digits.head? = some '0' ∧ 1 < digits.length then none
  else some (token (numberOf digits), rest)

/-- The number that starts with these digits, given what follows them. -/
def numberFrom? (digits : List Char) : List Char → Option (Token × List Char)
  | '.' :: rest =>
    let places := rest.takeWhile Char.isDigit
    real? (digits ++ places) places.length (rest.dropWhile Char.isDigit)
  | 'e' :: rest => real? digits 0 ('e' :: rest)
  | 'L' :: rest => whole? .long digits rest
  | rest => whole? .int digits rest

/-- The number at the start of the text. No word goes on behind it. -/
def number? (alphabet : Alphabet) (text : List Char) : Option (Token × List Char) :=
  (numberFrom? (text.takeWhile Char.isDigit) (text.dropWhile Char.isDigit)).filter
    fun (_, rest) => !rest.head?.any (isWordChar alphabet)

/-! ## Texts -/

/-- The characters between tokens. -/
def blanks : List Char := [' ', '\t', '\n', '\x0c', '\r']

def isBlank (c : Char) : Bool := c ∈ blanks

/-- The token at the start of a text without unicode escapes. -/
def token? (alphabet : Alphabet) : List Char → Option (Token × List Char)
  | [] => none
  | '"' :: '"' :: '"' :: _ => none
  | '"' :: rest =>
    (quoted? '"' rest).map fun (content, rest) => (.str (String.ofList content), rest)
  | '\'' :: rest =>
    match quoted? '\'' rest with
    | some ([c], rest) => if c.toNat ≤ 0xffff then some (.char c, rest) else none
    | _ => none
  | c :: rest =>
    if isLetter alphabet c then
      some (wordToken (String.ofList (c :: rest.takeWhile (isWordChar alphabet))),
        rest.dropWhile (isWordChar alphabet))
    else if c.isDigit then number? alphabet (c :: rest)
    else if c = '.' ∧ rest.head?.any Char.isDigit then none
    else symbol? (c :: rest)

/-- The tokens of a text without unicode escapes. -/
def tokens? (alphabet : Alphabet) : List Char → Option (List Token)
  | [] => some []
  | c :: rest =>
    if isBlank c then tokens? alphabet rest
    else
      match token? alphabet (c :: rest) with
      | none => none
      | some (token, later) =>
        -- every token takes at least one character
        if _ : later.length ≤ rest.length then (token :: ·) <$> tokens? alphabet later else none
termination_by text => text.length

/-- The tokens of a text. -/
def lex (alphabet : Alphabet) (text : List Char) : Option (List Token) :=
  (translate? .plain text).bind (tokens? alphabet)

/-! ## Token by token -/

variable {alphabet : Alphabet} {text piece rest : List Char} {tokens : List Token} {token : Token}

/-- The text has these tokens. What the translation of unicode escapes leaves of it starts with the
    same character, so that the end of a token in front of it can be told from the text. -/
def Reads (alphabet : Alphabet) (text : List Char) (tokens : List Token) : Prop :=
  ∃ plain, translate? .plain text = some plain ∧ plain.head? = text.head? ∧
    tokens? alphabet plain = some tokens

theorem Reads.lex_eq (reads : Reads alphabet text tokens) : lex alphabet text = some tokens := by
  obtain ⟨plain, translated, -, read⟩ := reads
  rw [lex, translated, Option.bind_some, read]

theorem Reads.nil : Reads alphabet [] [] :=
  ⟨[], rfl, rfl, by rw [tokens?]⟩

theorem tokens?_blank {c : Char} (blank : isBlank c = true) :
    tokens? alphabet (c :: rest) = tokens? alphabet rest := by
  rw [tokens?, if_pos blank]

theorem tokens?_token (start : (text ++ rest).head?.all (!isBlank ·) = true) (some? : text ≠ [])
    (first : token? alphabet (text ++ rest) = some (token, rest)) :
    tokens? alphabet (text ++ rest) = (token :: ·) <$> tokens? alphabet rest := by
  obtain ⟨c, more, rfl⟩ := List.exists_cons_of_ne_nil some?
  have visible : isBlank c = false := by simpa using start
  rw [List.cons_append] at first ⊢
  rw [tokens?, visible, if_neg Bool.false_ne_true, first]
  exact dif_pos (by simp)

/-- A blank is skipped. -/
theorem Reads.space (reads : Reads alphabet rest tokens) : Reads alphabet (' ' :: rest) tokens := by
  obtain ⟨plain, translated, -, read⟩ := reads
  refine ⟨' ' :: plain, ?_, rfl, (tokens?_blank rfl).trans read⟩
  simp [translate?, translated]

/-- A token without a backslash is read whatever the text behind it becomes, as long as that starts
    with the same character. -/
theorem Reads.plainToken (slashFree : '\\' ∉ piece) (start : piece.head?.any (!isBlank ·) = true)
    (first : ∀ plain, plain.head? = rest.head? → token? alphabet (piece ++ plain) = some (token, plain))
    (reads : Reads alphabet rest tokens) : Reads alphabet (piece ++ rest) (token :: tokens) := by
  obtain ⟨plain, translated, same, read⟩ := reads
  obtain ⟨c, more, rfl⟩ : ∃ c more, piece = c :: more :=
    List.exists_cons_of_ne_nil (by rintro rfl; simp at start)
  refine ⟨c :: more ++ plain, ?_, rfl, ?_⟩
  · rw [Text.translate?_plain slashFree, translated]
    rfl
  · rw [tokens?_token (by simpa using start) (List.cons_ne_nil c more) (first plain same), read]
    rfl

theorem Reads.plainChar {c : Char} (visible : c ≠ '\\' ∧ isBlank c = false)
    (first : ∀ plain, plain.head? = rest.head? → token? alphabet (c :: plain) = some (token, plain))
    (reads : Reads alphabet rest tokens) : Reads alphabet (c :: rest) (token :: tokens) := by
  show Reads alphabet ([c] ++ rest) (token :: tokens)
  exact Reads.plainToken (by simpa [eq_comm] using visible.1) (by simpa using visible.2) first reads

/-- The characters that end a word, whatever the alphabet is. -/
def punctuation : List Char := " \t\n\x0c\r\"\\'().,[]=-+!~<>*/%|&^?:".toList

theorem not_isWordChar_of_mem {c : Char} (mark : c ∈ punctuation) :
    isWordChar alphabet c = false := by
  have marks : (punctuation.all fun c =>
      !(c.isAlpha || c == '_' || c == '$' || c.isDigit || isExotic c)) = true := by decide
  have parts := List.all_eq_true.mp marks c mark
  simp only [Bool.not_eq_true', Bool.or_eq_false_iff] at parts
  simp [isWordChar, isLetter, parts]

theorem not_mem_punctuation {c : Char} (wordChar : isWordChar alphabet c = true) :
    c ∉ punctuation := fun mark =>
  Bool.false_ne_true ((not_isWordChar_of_mem mark).symm.trans wordChar)

theorem isWordChar_of_isLetter {c : Char} (letter : isLetter alphabet c = true) :
    isWordChar alphabet c = true := by
  simp [isWordChar, letter]

theorem isWordChar_of_isDigit {c : Char} (digit : c.isDigit = true) :
    isWordChar alphabet c = true := by
  simp [isWordChar, digit]

theorem isWordChar_of_mem {word : String} {c : Char} (isWord : isWord alphabet word = true)
    (mem : c ∈ word.toList) : isWordChar alphabet c = true := by
  unfold Java.isWord at isWord
  cases chars : word.toList with
  | nil => simp [chars] at mem
  | cons first rest =>
    simp only [chars, Bool.and_eq_true, List.all_eq_true] at isWord
    rcases List.mem_cons.mp (chars ▸ mem) with rfl | mem
    · exact isWordChar_of_isLetter isWord.1
    · exact isWord.2 c mem

/-- A text that starts with no quote starts with a word, a number or a symbol. -/
theorem token?_unquoted {c : Char} (unquoted : c ∉ ['"', '\'']) :
    token? alphabet (c :: rest) =
      if isLetter alphabet c then
        some (wordToken (String.ofList (c :: rest.takeWhile (isWordChar alphabet))),
          rest.dropWhile (isWordChar alphabet))
      else if c.isDigit then number? alphabet (c :: rest)
      else if c = '.' ∧ rest.head?.any Char.isDigit then none
      else symbol? (c :: rest) := by
  rw [token?] <;> simp_all

theorem takeWhile_append_stop {p : Char → Bool} (all : ∀ c ∈ text, p c = true)
    (stop : rest.head?.any p = false) :
    (text ++ rest).takeWhile p = text ∧ (text ++ rest).dropWhile p = rest := by
  rw [List.takeWhile_append_of_pos all, List.dropWhile_append_of_pos all]
  cases rest with
  | nil => simp
  | cons c rest => simp_all

/-- A word ends in front of the first character that cannot go on with it. -/
theorem Reads.word {word : String} (isWord : isWord alphabet word = true)
    (stop : rest.head?.any (isWordChar alphabet) = false) (reads : Reads alphabet rest tokens) :
    Reads alphabet (word.toList ++ rest) (wordToken word :: tokens) := by
  have all : ∀ c ∈ word.toList, isWordChar alphabet c = true := fun c => isWordChar_of_mem isWord
  have spelled : String.ofList word.toList = word := String.ofList_toList
  unfold Java.isWord at isWord
  cases chars : word.toList with
  | nil => simp [chars] at isWord
  | cons first more =>
    simp only [chars, Bool.and_eq_true] at isWord
    rw [chars] at all spelled
    have apart : ∀ marks ⊆ punctuation, first ∉ marks := fun marks subset mem =>
      not_mem_punctuation (all first List.mem_cons_self) (subset mem)
    refine Reads.plainToken (fun mem => not_mem_punctuation (all _ mem) (by decide)) ?_ ?_ reads
    · simpa [isBlank] using apart blanks (by decide)
    · intro plain same
      obtain ⟨taken, left⟩ := takeWhile_append_stop
        (fun c mem => all c (List.mem_cons_of_mem first mem)) (same ▸ stop)
      rw [List.cons_append, token?_unquoted (apart _ (by decide)), if_pos isWord.1,
        taken, left, spelled]

theorem wordToken_of_isIdentifier {word : String} (identifier : isIdentifier alphabet word = true) :
    isWord alphabet word = true ∧ wordToken word = .name word := by
  simp only [isIdentifier, Bool.and_eq_true, Option.isNone_iff_eq_none] at identifier
  simp [wordToken, identifier]

theorem Reads.name {name : String} (identifier : isIdentifier alphabet name = true)
    (stop : rest.head?.any (isWordChar alphabet) = false) (reads : Reads alphabet rest tokens) :
    Reads alphabet (name.toList ++ rest) (.name name :: tokens) := by
  obtain ⟨isWord, token⟩ := wordToken_of_isIdentifier identifier
  exact token ▸ reads.word isWord stop

/-- The symbols that are the same token whatever follows them. -/
def mark? : Char → Option Token
  | '(' => some .opening
  | ')' => some .closing
  | ',' => some .comma
  | '[' => some .openBracket
  | ']' => some .closeBracket
  | _ => none

theorem Reads.mark {c : Char} (found : mark? c = some token) (reads : Reads alphabet rest tokens) :
    Reads alphabet (c :: rest) (token :: tokens) := by
  unfold mark? at found
  split at found <;> cases found <;>
    exact Reads.plainChar (by decide) (fun _ _ => rfl) reads

theorem exists_cons_of_head? {plain : List Char} {c : Char}
    (same : plain.head? = (c :: rest).head?) : ∃ more, plain = c :: more := by
  cases plain with
  | nil => cases same
  | cons _ more => exact ⟨more, congrArg (· :: more) (Option.some.inj same)⟩

/-- The symbols besides operators that blanks stand around. -/
def spacedMark? : Char → Option Token
  | '=' => some .assign
  | '?' => some .question
  | ':' => some .colon
  | _ => none

theorem Reads.spacedMark {c : Char} (found : spacedMark? c = some token)
    (reads : Reads alphabet rest tokens) : Reads alphabet (c :: ' ' :: rest) (token :: tokens) := by
  unfold spacedMark? at found
  split at found <;> cases found <;>
    refine Reads.plainChar (by decide) (fun plain same => ?_) reads.space <;>
    obtain ⟨more, rfl⟩ := exists_cons_of_head? same <;> rfl

theorem Reads.operator (op : BinaryOp) (reads : Reads alphabet rest tokens) :
    Reads alphabet (op.symbol.toList ++ ' ' :: rest) (.op op :: tokens) := by
  refine Reads.plainToken (by cases op <;> decide) (by cases op <;> decide) (fun plain same => ?_)
    reads.space
  obtain ⟨more, rfl⟩ := exists_cons_of_head? same
  cases op <;> rfl

/-- The token of an operator in front of a value. -/
def unaryToken : UnaryOp → Token
  | .neg => .op .sub
  | .plus => .op .add
  | .not => .not
  | .bitNot => .complement

theorem Reads.unaryOperator (op : UnaryOp) (reads : Reads alphabet ('(' :: rest) tokens) :
    Reads alphabet (op.symbol.toList ++ '(' :: rest) (unaryToken op :: tokens) := by
  refine Reads.plainToken (by cases op <;> decide) (by cases op <;> decide) (fun plain same => ?_) reads
  obtain ⟨more, rfl⟩ := exists_cons_of_head? same
  cases op <;> rfl

theorem symbol?_minus {c : Char} (other : '-' ≠ c ∧ '=' ≠ c ∧ '>' ≠ c) :
    symbol? ('-' :: c :: rest) = some (.op .sub, c :: rest) := by
  simp [symbol?, symbolTokens, other]

theorem symbol?_dot {c : Char} (other : '.' ≠ c) :
    symbol? ('.' :: c :: rest) = some (.dot, c :: rest) := by
  simp [symbol?, symbolTokens, other]

/-- A minus in front of a number. -/
theorem Reads.minus {c : Char} (digit : c.isDigit = true) (reads : Reads alphabet (c :: rest) tokens) :
    Reads alphabet ('-' :: c :: rest) (.op .sub :: tokens) := by
  have wordChar : isWordChar alphabet c = true := isWordChar_of_isDigit digit
  have other {mark : Char} (mem : mark ∈ punctuation) : mark ≠ c := fun same =>
    not_mem_punctuation wordChar (same ▸ mem)
  refine Reads.plainChar (by decide) (fun plain same => ?_) reads
  obtain ⟨more, rfl⟩ := exists_cons_of_head? same
  rw [token?_unquoted (by decide)]
  exact symbol?_minus ⟨other (by decide), other (by decide), other (by decide)⟩

theorem not_isDigit_of_isLetter {c : Char} (letter : isLetter alphabet c = true) :
    c.isDigit = false := by
  have digits : ("0123456789".toList.all fun c =>
      !(c.isAlpha || c == '_' || c == '$' || isExotic c)) = true := by decide
  refine Bool.eq_false_iff.mpr fun digit => ?_
  have parts := List.all_eq_true.mp digits c (mem_digits digit)
  simp only [Bool.not_eq_true', Bool.or_eq_false_iff] at parts
  simp [isLetter, parts] at letter

/-- A point in front of a name. -/
theorem Reads.dot {c : Char} (letter : isLetter alphabet c = true)
    (reads : Reads alphabet (c :: rest) tokens) :
    Reads alphabet ('.' :: c :: rest) (.dot :: tokens) := by
  have other : '.' ≠ c := fun same =>
    not_mem_punctuation (isWordChar_of_isLetter letter) (same ▸ by decide)
  refine Reads.plainChar (by decide) (fun plain same => ?_) reads
  obtain ⟨more, rfl⟩ := exists_cons_of_head? same
  have next : ¬ ('.' = '.' ∧ (c :: more).head?.any Char.isDigit = true) := by
    simp [not_isDigit_of_isLetter letter]
  have first : token? alphabet ('.' :: c :: more) = symbol? ('.' :: c :: more) := by
    rw [token?_unquoted (by decide), if_neg next]
    rfl
  rw [first, symbol?_dot other]

/-! ## Literals -/

open Text (IsQuote translated escape_forms translated_of_short translated_of_unicode translated_of_self)

/-- The content of a literal does not start with a quote. -/
theorem translated_head {quote c : Char} (isQuote : IsQuote quote) :
    ∃ first more, translated quote c = first :: more ∧ first ≠ quote := by
  rcases escape_forms isQuote c with ⟨letter, spelled, -, -⟩ | ⟨spelled, -, apart⟩ | ⟨spelled, apart⟩
  · refine ⟨'\\', [letter], translated_of_short spelled, ?_⟩
    rcases isQuote with rfl | rfl <;> decide
  · exact ⟨c, [], translated_of_unicode spelled, by simp_all⟩
  · exact ⟨c, [], translated_of_self spelled, by simp_all⟩

/-- A literal is read if what is left of it after the translation is. -/
theorem Reads.literal {quote : Char} {content : List Char} (isQuote : IsQuote quote)
    (first : ∀ plain, plain.head? = rest.head? →
      token? alphabet (quote :: (content.flatMap (translated quote) ++ quote :: plain)) =
        some (token, plain))
    (reads : Reads alphabet rest tokens) :
    Reads alphabet (Text.quoted quote content ++ rest) (token :: tokens) := by
  obtain ⟨plain, translation, same, read⟩ := reads
  have other : quote ≠ '\\' := by rcases isQuote with rfl | rfl <;> decide
  have visible : isBlank quote = false := by rcases isQuote with rfl | rfl <;> decide
  refine ⟨quote :: content.flatMap (translated quote) ++ [quote] ++ plain, ?_, ?_, ?_⟩
  · simp only [Text.quoted, List.cons_append, List.append_assoc, List.nil_append]
    rw [translate?, if_neg other, Text.translate?_content isQuote,
      translate?, if_neg other, translation]
    simp
  · simp [Text.quoted]
  · have found : token? alphabet (quote :: content.flatMap (translated quote) ++ [quote] ++ plain) =
        some (token, plain) := by simpa using first plain same
    rw [tokens?_token (by simpa using visible) (by simp) found, read]
    rfl

theorem Reads.str {content : List Char} (stop : rest.head? ≠ some '"')
    (reads : Reads alphabet rest tokens) :
    Reads alphabet (Text.quoted '"' content ++ rest) (.str (String.ofList content) :: tokens) := by
  refine reads.literal (.inl rfl) fun plain same => ?_
  have read := Text.quoted?_content (.inl rfl) content plain
  rw [token?, read]
  · rfl
  -- three quotes in a row would start a text block
  · intro more block
    cases content with
    | nil => exact stop (same ▸ by simp [show plain = '"' :: more by simpa using block])
    | cons c content =>
      obtain ⟨first, others, spelled, other⟩ := translated_head (.inl rfl) (c := c)
      rw [List.flatMap_cons, spelled] at block
      exact other (List.cons.inj block).1

theorem Reads.char {c : Char} (small : c.toNat ≤ 0xffff) (reads : Reads alphabet rest tokens) :
    Reads alphabet (Text.quoted '\'' [c] ++ rest) (.char c :: tokens) := by
  refine reads.literal (.inr rfl) fun plain _ => ?_
  rw [token?, Text.quoted?_content (.inr rfl)]
  exact if_pos small

end JavaBackend.Java
