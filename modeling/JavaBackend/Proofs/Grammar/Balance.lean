import JavaBackend.Proofs.Grammar.Numbers
import JavaBackend.Proofs.Words.Reading

/-!
# The parentheses of expressions

An expression either brings a pair of parentheses around all of its text or none (`Expr.inside?`),
and `unwrap` takes away exactly that pair (`unwrap_text`): a text that is not enclosed but starts with
a parenthesis closes it before its end. All of this takes no more than names and types without
parentheses and quotes.
-/

namespace JavaBackend.Text.Parens

/-! ## Texts that leave the depth alone -/

/-- Scanning the text changes nothing. -/
def Neutral (text : String) : Prop :=
  ∀ depth rest, balanced .code depth (text.toList ++ rest) = balanced .code depth rest

/-- The characters that the scan looks at outside of quotes. -/
def marks : List Char := ['(', ')', '"', '\'']

/-- The text has none of the characters that matter. -/
def isPlain (text : String) : Bool := text.toList.all (· ∉ marks)

variable {text first second : String} {quote c : Char}

theorem balanced_plain {chars rest : List Char} {depth : Nat} (plain : ∀ c ∈ chars, c ∉ marks) :
    balanced .code depth (chars ++ rest) = balanced .code depth rest := by
  induction chars with
  | nil => rfl
  | cons c chars ih =>
    have other := plain c List.mem_cons_self
    simp only [marks, List.mem_cons, List.not_mem_nil, or_false, not_or] at other
    rw [List.cons_append, balanced.eq_def]
    simp only [other, or_self, if_false]
    exact ih fun d mem => plain d (List.mem_cons_of_mem c mem)

theorem neutral_of_isPlain (plain : isPlain text = true) : Neutral text := by
  intro depth rest
  exact balanced_plain (by simpa [isPlain] using plain)

theorem Neutral.append (neutral : Neutral first) (next : Neutral second) :
    Neutral (first ++ second) := by
  intro depth rest
  rw [String.toList_append, List.append_assoc, neutral, next]

theorem Neutral.parens (neutral : Neutral text) : Neutral ("(" ++ text ++ ")") := by
  intro depth rest
  rw [String.toList_append, String.toList_append, List.append_assoc, List.append_assoc]
  show balanced .code (depth + 1) (text.toList ++ ')' :: rest) = _
  rw [neutral]
  rfl

/-- Between quotes a character is read over, however it is spelled. -/
theorem balanced_escape (isQuote : IsQuote quote) (c : Char) (depth : Nat) (rest : List Char) :
    balanced (.literal quote) depth (escape quote c ++ rest) =
      balanced (.literal quote) depth rest := by
  have noSlash : quote ≠ '\\' := by rcases isQuote with rfl | rfl <;> decide
  have hex : ("0123456789abcdef".toList.all fun d => d ≠ '\\' ∧ d ∉ marks) = true := by decide
  rcases escape_forms isQuote c with ⟨letter, spelled, -, -⟩ | ⟨spelled, -, -⟩ | ⟨spelled, apart⟩
  · rw [spelled]
    rfl
  · have digits {chars : List Char} (all : ∀ d ∈ chars, d ∈ "0123456789abcdef".toList) :
        balanced (.literal quote) depth (chars ++ rest) = balanced (.literal quote) depth rest := by
      induction chars with
      | nil => rfl
      | cons d chars ih =>
        obtain ⟨slash, mark⟩ :=
          of_decide_eq_true (List.all_eq_true.mp hex d (all d List.mem_cons_self))
        have other : d ≠ quote := by
          rintro rfl
          rcases isQuote with rfl | rfl <;> exact mark (by decide)
        rw [List.cons_append, balanced, if_neg slash, if_neg other]
        exact ih fun e mem => all e (List.mem_cons_of_mem d mem)
    rw [spelled]
    show balanced (.literal quote) depth (hexDigits c.toNat ++ rest) = _
    exact digits fun d mem => mem_hexDigits mem
  · rw [spelled]
    simp only [List.mem_cons, List.not_mem_nil, or_false, not_or] at apart
    rw [List.singleton_append, balanced, if_neg apart.1, if_neg apart.2.2.2]

theorem neutral_quoted (isQuote : IsQuote quote) (content : List Char) :
    Neutral (String.ofList (quoted quote content)) := by
  intro depth rest
  have inside : balanced (.literal quote) depth (content.flatMap (escape quote) ++ quote :: rest) =
      balanced .code depth rest := by
    induction content with
    | nil =>
      have noSlash : quote ≠ '\\' := by rcases isQuote with rfl | rfl <;> decide
      rw [List.flatMap_nil, List.nil_append, balanced, if_neg noSlash, if_pos rfl]
    | cons c content ih => rw [List.flatMap_cons, List.append_assoc, balanced_escape isQuote, ih]
  rw [String.toList_ofList, quoted, List.cons_append, List.append_assoc, balanced.eq_def]
  exact (if_pos isQuote).trans inside

/-! ## Enclosed and other texts -/

/-- The text starts with no parenthesis, or closes it before its end. -/
def Apart (text : String) : Prop :=
  text.toList.head? ≠ some '(' ∨
    ∃ core tail, text = "(" ++ core ++ ")" ++ tail ∧ Neutral core ∧ tail ≠ ""

/-- A pair that encloses all of the text is taken away. -/
theorem unwrap_parens (neutral : Neutral text) : unwrap ("(" ++ text ++ ")") = text := by
  have chars : ("(" ++ text ++ ")").toList = '(' :: (text.toList ++ [')']) := by
    simp
  have closed : balanced .code 0 text.toList = true := by
    have scanned := neutral 0 []
    rwa [List.append_nil] at scanned
  have inside : inner? ('(' :: (text.toList ++ [')'])) = some text.toList := by
    simp [inner?]
  rw [unwrap, chars, unwrapChars, inside]
  simp [closed]

/-- Other parentheses stay. -/
theorem unwrap_of_apart (apart : Apart text) : unwrap text = text := by
  have same : unwrapChars text.toList = text.toList := by
    unfold unwrapChars
    split
    case h_2 => rfl
    case h_1 inside found =>
      have enclosed := eq_of_inner? found
      rcases apart with other | ⟨core, tail, rfl, neutral, some?⟩
      · exact absurd (by rw [enclosed]; rfl) other
      · obtain ⟨front, last, ends⟩ : ∃ front last, tail.toList = front ++ [last] :=
          have other : tail.toList ≠ [] := by simpa using some?
          ⟨_, _, (List.dropLast_concat_getLast other).symm⟩
        have core_eq : inside = core.toList ++ ')' :: front := by
          have chars : core.toList ++ ')' :: front ++ [last] = inside ++ [')'] := by
            simpa [ends] using enclosed
          exact (List.append_inj' chars rfl).1.symm
        have early : balanced .code 0 inside = false := by
          rw [core_eq, neutral]
          rfl
        simp [early]
  rw [unwrap, same, String.ofList_toList]

/-- A text with a first part of that kind is of that kind, if it goes on with no parenthesis. -/
theorem Apart.append (apart : Apart first) (next : second.toList.head?.any (· ≠ '(') = true) :
    Apart (first ++ second) := by
  rcases apart with other | ⟨core, tail, rfl, neutral, some?⟩
  · left
    rw [String.toList_append]
    cases chars : first.toList with
    | nil =>
      intro head
      rw [List.nil_append] at head
      simp [head] at next
    | cons => simpa [chars] using other
  · exact .inr ⟨core, tail ++ second, by simp only [String.append_assoc], neutral, by simp [some?]⟩

/-- What follows an enclosed text. -/
theorem apart_of_parens (neutral : Neutral text) (some? : second ≠ "") :
    Apart ("(" ++ text ++ ")" ++ second) := .inr ⟨text, second, rfl, neutral, some?⟩

theorem apart_of_isPlain (plain : isPlain text = true) : Apart text := by
  refine .inl fun head => ?_
  have mem : '(' ∈ text.toList := List.mem_of_head? head
  exact absurd (List.all_eq_true.mp plain _ mem) (by decide)

end JavaBackend.Text.Parens

namespace JavaBackend

open Text (IsQuote)
open Text.Parens (Neutral Apart isPlain marks neutral_of_isPlain apart_of_isPlain neutral_quoted unwrap
  unwrap_parens unwrap_of_apart apart_of_parens)

/-! ## Words -/

/-- A word that brings no parenthesis of its own to the text around it. -/
def Word.Harmless (word : Word) : Prop := Neutral word.text ∧ Apart word.text

theorem harmless_of_isPlain {word : Word} (plain : isPlain word.text = true) : word.Harmless :=
  ⟨neutral_of_isPlain plain, apart_of_isPlain plain⟩

theorem isPlain_of_isNumeral {chars : List Char} (all : ∀ c ∈ chars, isNumeral c = true) :
    isPlain (String.ofList chars) = true := by
  have numerals : (marks.all fun c => !isNumeral c) = true := by decide
  rw [isPlain, String.toList_ofList, List.all_eq_true]
  intro c mem
  refine decide_eq_true fun mark => ?_
  have other := List.all_eq_true.mp numerals c mark
  rw [all c mem] at other
  exact Bool.false_ne_true other

theorem isPlain_toString (n : Int) : isPlain (toString n) = true := by
  rw [← String.ofList_toList (s := toString n)]
  exact isPlain_of_isNumeral fun c => isNumeral_of_mem_toString

theorem isPlain_append {first second : String} (plain : isPlain first = true)
    (next : isPlain second = true) : isPlain (first ++ second) = true := by
  simp_all [isPlain]

/-- A number, and a cast in front of it. -/
theorem harmless_number {chars : List Char} (all : ∀ c ∈ chars, isNumeral c = true) (some? : chars ≠ [])
    {type : String} (plain : isPlain type = true) :
    Neutral (String.ofList chars) ∧ Apart (String.ofList chars) ∧
      Neutral ("(" ++ type ++ ")" ++ String.ofList chars) ∧
      Apart ("(" ++ type ++ ")" ++ String.ofList chars) := by
  have number := isPlain_of_isNumeral all
  have inside := neutral_of_isPlain plain
  exact ⟨neutral_of_isPlain number, apart_of_isPlain number,
    inside.parens.append (neutral_of_isPlain number), apart_of_parens inside (by simpa using some?)⟩

theorem renderBinary_ne_nil (layout : Decimal.Layout) (negative : Bool) (x : Decimal.Binary) :
    layout.renderBinary negative x ≠ [] := by
  obtain ⟨first, more, text, -⟩ := Java.render_head layout x.shortest
  unfold Decimal.Layout.renderBinary
  dsimp only
  split <;> simp [text]

/-- A floating-point literal, with a cast or without. -/
theorem harmless_floating {owner cast type : String} (format : Decimal.Format) (bits : Nat)
    (known : isPlain owner = true) (plain : isPlain type = true)
    (casts : cast = "" ∨ cast = "(" ++ type ++ ")") :
    Neutral (Literal.floating owner cast format bits) ∧
      Apart (Literal.floating owner cast format bits) := by
  have member {name : String} (named : isPlain name = true) :
      Neutral (owner ++ name) ∧ Apart (owner ++ name) :=
    ⟨neutral_of_isPlain (isPlain_append known named), apart_of_isPlain (isPlain_append known named)⟩
  unfold Literal.floating
  split
  · exact member (by decide)
  · exact member (by decide)
  · exact member (by decide)
  · obtain ⟨neutral, apart, cast⟩ := harmless_number
      (fun c => Decimal.isNumeral_of_mem_renderBinary) (renderBinary_ne_nil _ _ _) plain
    rcases casts with rfl | rfl
    · rw [String.empty_append]
      exact ⟨neutral, apart⟩
    · exact cast

/-- The types in a literal are the only names that it has. -/
theorem harmless_literal {value : Literal}
    (types : ∀ type, value = .type type → isPlain type.source = true) :
    (Word.literal value).Harmless := by
  cases value with
  | null => exact harmless_of_isPlain (by decide)
  | bool value => cases value <;> exact harmless_of_isPlain (by decide)
  | int value => exact harmless_of_isPlain (isPlain_toString _)
  | long value => exact harmless_of_isPlain (isPlain_append (isPlain_toString _) (by decide))
  | float bits =>
    exact harmless_floating .single bits.toNat (by decide) (by decide : isPlain "float" = true)
      (.inr (by decide))
  | double bits =>
    exact harmless_floating .double bits.toNat (by decide) (by decide : isPlain "" = true) (.inl rfl)
  | char value =>
    have front : "(char)" = "(" ++ "char" ++ ")" := by decide
    show Neutral (Literal.ofChar value) ∧ Apart (Literal.ofChar value)
    unfold Literal.ofChar
    split
    · obtain ⟨-, -, cast⟩ := harmless_number (fun c => isNumeral_of_mem_toString (n := value.toNat))
        (Java.toString_ne_nil value.toNat) (by decide : isPlain "char" = true)
      rw [front, ← String.ofList_toList (s := toString value.toNat)]
      exact cast
    · exact ⟨neutral_quoted (.inr rfl) _, .inl (by simp [Text.quoted])⟩
  | str value =>
    show Neutral (Literal.ofString value) ∧ Apart (Literal.ofString value)
    exact ⟨neutral_quoted (.inl rfl) _, .inl (by simp [Literal.ofString, Text.quoted])⟩
  | type type => exact harmless_of_isPlain (isPlain_append (types type rfl) (by decide))

/-! ## Expressions -/

namespace Java.Expr

open Java (Expr)

/-- What stands between the parentheses that the expression brings around its text, if it does. -/
def inside? : Expr → Option String
  | .assign name value => some (name ++ " = " ++ value.text)
  | .binary op left right => some (left.text ++ " " ++ op.symbol ++ " " ++ right.text)
  | .isNull value => some (value.text ++ " == null")
  | .instanceOf value type => some (value.text ++ " instanceof " ++ type.source)
  | .cast type value => some ("(" ++ type.source ++ ")(" ++ unwrap value.text ++ ")")
  | .concat (first :: rest) =>
    some ((if first.isString then "" else "\"\" + ") ++ " + ".intercalate (texts (first :: rest)))
  | .cond test yes no => some (test.text ++ " ? " ++ yes.text ++ " : " ++ no.text)
  | _ => none

theorem text_of_inside? {expr : Expr} {inside : String} (enclosed : expr.inside? = some inside) :
    expr.text = "(" ++ inside ++ ")" := by
  have null : " == null)" = " == null" ++ ")" := by decide
  have open₂ : "((" = "(" ++ "(" := by decide
  have close₂ : "))" = ")" ++ ")" := by decide
  have empty : "(\"\" + " = "(" ++ "\"\" + " := by decide
  cases expr with
  | concat parts =>
    cases parts with
    | nil => cases enclosed
    | cons first rest =>
      cases enclosed
      rw [text]
      split
      · simp only [String.append_assoc, String.empty_append]
      · rw [empty]
        simp only [String.append_assoc]
  | assign | binary | isNull | instanceOf | cast | cond =>
    cases enclosed
    simp only [text, null, open₂, close₂, String.append_assoc]
  | _ => cases enclosed

/-- The text of the expression between the parentheses of a construct. -/
def bareText (expr : Expr) : String := expr.inside?.getD expr.text

/-- The text is enclosed only where the expression says so. -/
structure Parted (expr : Expr) : Prop where
  neutral : Neutral expr.bareText
  apart : expr.inside? = none → Apart expr.text

namespace Parted

variable {expr : Expr}

theorem text (parted : expr.Parted) : Neutral expr.text := by
  cases enclosed : expr.inside? with
  | none => simpa [bareText, enclosed] using parted.neutral
  | some inside =>
    have neutral : Neutral inside := by simpa [bareText, enclosed] using parted.neutral
    rw [text_of_inside? enclosed]
    exact neutral.parens

/-- Exactly the expression's own pair of parentheses is taken away. -/
theorem unwrap_text (parted : expr.Parted) : unwrap expr.text = expr.bareText := by
  cases enclosed : expr.inside? with
  | none =>
    rw [unwrap_of_apart (parted.apart enclosed), bareText, enclosed]
    rfl
  | some inside =>
    have neutral : Neutral inside := by simpa [bareText, enclosed] using parted.neutral
    rw [text_of_inside? enclosed, unwrap_parens neutral, bareText, enclosed]
    rfl

theorem of_inside {inside : String} (enclosed : expr.inside? = some inside)
    (neutral : Neutral inside) : expr.Parted := by
  refine ⟨by simpa [bareText, enclosed] using neutral, fun none => ?_⟩
  rw [enclosed] at none
  cases none

theorem of_apart (loose : expr.inside? = none) (neutral : Neutral expr.text)
    (apart : Apart expr.text) : expr.Parted :=
  ⟨by simpa [bareText, loose] using neutral, fun _ => apart⟩

/-- A member behind the expression. -/
theorem member (parted : expr.Parted) (rest : String) : Apart (expr.text ++ ("." ++ rest)) := by
  have point : ("." ++ rest).toList.head?.any (· ≠ '(') = true := by simp
  cases enclosed : expr.inside? with
  | none => exact (parted.apart enclosed).append point
  | some inside =>
    have neutral : Neutral inside := by simpa [bareText, enclosed] using parted.neutral
    rw [text_of_inside? enclosed]
    exact apart_of_parens neutral (by simp)

/-- A cast takes away the parentheses of its operand, to bring its own. -/
theorem inside?_cast (parted : expr.Parted) (type : JavaType) :
    (Expr.cast type expr).inside? =
      some ("(" ++ type.source ++ ")" ++ ("(" ++ expr.bareText ++ ")")) := by
  have between : ")(" = ")" ++ "(" := by decide
  rw [inside?, parted.unwrap_text, between]
  simp only [String.append_assoc]

end Parted

theorem neutral_intercalate {separator : String} (between : Neutral separator) {parts : List String}
    (each : ∀ part ∈ parts, Neutral part) : Neutral (separator.intercalate parts) := by
  induction parts with
  | nil => exact neutral_of_isPlain rfl
  | cons part parts ih =>
    have first := each part List.mem_cons_self
    have others := ih fun other mem => each other (List.mem_cons_of_mem part mem)
    cases parts with
    | nil => rwa [String.intercalate_singleton]
    | cons next parts =>
      rw [String.intercalate_cons_cons]
      exact (first.append between).append others

theorem neutral_symbol (op : BinaryOp) : Neutral op.symbol := by
  cases op <;> exact neutral_of_isPlain (by decide)

theorem neutral_brackets (count : Nat) : Neutral (String.join (List.replicate count "[]")) := by
  induction count with
  | zero => exact neutral_of_isPlain (by decide)
  | succ count ih =>
    rw [List.replicate_succ, String.join_cons]
    exact (neutral_of_isPlain (by decide)).append ih

/-- Arguments between parentheses. -/
theorem neutral_arguments {args : List String} (each : ∀ arg ∈ args, Neutral arg) :
    Neutral ("(" ++ (", ".intercalate args ++ ")")) := by
  rw [← String.append_assoc]
  exact (neutral_intercalate (neutral_of_isPlain (by decide)) each).parens

mutual

/-- Parentheses and quotes outside of literals are the expression's own, if its words have none. -/
theorem parted : (expr : Expr) → OverAll Word.Harmless expr.words → expr.Parted
  | .literal value, words | .var name, words | .owner name, words => by
    simp only [Expr.words, OverAll.cons_iff] at words
    exact .of_apart rfl words.1.1 words.1.2
  | .this, _ => .of_apart rfl (neutral_of_isPlain (by decide)) (apart_of_isPlain (by decide))
  | .field target name, words => by
    simp only [Expr.words, OverAll.append_iff, OverAll.cons_iff] at words
    have owner := parted target words.1
    refine .of_apart rfl ?_ ?_ <;> rw [Expr.text, String.append_assoc]
    · exact owner.text.append ((neutral_of_isPlain (by decide)).append words.2.1.1)
    · exact owner.member _
  | .assign name value, words => by
    simp only [Expr.words, OverAll.cons_iff] at words
    refine .of_inside rfl ((words.1.1.append ?_).append (parted value words.2).text)
    exact neutral_of_isPlain (by decide)
  | .call target method args, words => by
    simp only [Expr.words, OverAll.append_iff, OverAll.cons_iff] at words
    have owner := parted target words.1
    refine .of_apart rfl ?_ ?_ <;> rw [Expr.text] <;> simp only [String.append_assoc]
    · exact owner.text.append ((neutral_of_isPlain (by decide)).append
        (words.2.1.1.append (neutral_arguments (neutral_texts args words.2.2))))
    · exact owner.member _
  | .new type args, words => by
    simp only [Expr.words, OverAll.cons_iff] at words
    refine .of_apart rfl ?_ (.inl (by simp [Expr.text]))
    rw [Expr.text]
    simp only [String.append_assoc]
    exact (neutral_of_isPlain (by decide)).append
      (words.1.1.append (neutral_arguments (neutral_texts args words.2)))
  | .binary op left right, words => by
    simp only [Expr.words, OverAll.append_iff] at words
    have space : Neutral " " := neutral_of_isPlain (by decide)
    have sign : Neutral (left.text ++ " " ++ op.symbol) :=
      ((parted left words.1).text.append space).append (neutral_symbol op)
    exact .of_inside rfl ((sign.append space).append (parted right words.2).text)
  | .unary op operand, words => by
    have inner := parted operand words
    refine .of_apart rfl ?_ (.inl (by cases op <;> simp [Expr.text, UnaryOp.symbol]))
    have text : (Expr.unary op operand).text = op.symbol ++ ("(" ++ operand.bareText ++ ")") := by
      rw [Expr.text, inner.unwrap_text]
      simp only [String.append_assoc]
    rw [text]
    refine Neutral.append ?_ inner.neutral.parens
    cases op <;> exact neutral_of_isPlain (by decide)
  | .isNull value, words => by
    exact .of_inside rfl ((parted value words).text.append (neutral_of_isPlain (by decide)))
  | .instanceOf value type, words => by
    simp only [Expr.words, OverAll.append_iff, OverAll.cons_iff] at words
    refine .of_inside rfl (((parted value words.1).text.append ?_).append words.2.1.1)
    exact neutral_of_isPlain (by decide)
  | .cast type value, words => by
    simp only [Expr.words, OverAll.cons_iff] at words
    have inner := parted value words.2
    have operands : Neutral ("(" ++ type.source ++ ")" ++ ("(" ++ value.bareText ++ ")")) :=
      Neutral.append words.1.1.parens inner.neutral.parens
    exact .of_inside (inner.inside?_cast type) operands
  | .concat [], _ => by
    have empty : (Expr.concat []).text = String.ofList (Text.quoted '"' []) := by decide
    refine .of_apart rfl ?_ (.inl (by simp [empty, Text.quoted]))
    rw [empty]
    exact neutral_quoted (.inl rfl) []
  | .concat (first :: rest), words => by
    have quotes : "\"\" + " = String.ofList (Text.quoted '"' []) ++ " + " := by decide
    have plus : Neutral " + " := neutral_of_isPlain (by decide)
    refine .of_inside rfl (Neutral.append ?_ (neutral_intercalate plus (neutral_texts _ words)))
    split
    · exact neutral_of_isPlain (by decide)
    · rw [quotes]
      exact (neutral_quoted (.inl rfl) []).append plus
  | .newArray component size, words => by
    simp only [Expr.words, OverAll.cons_iff] at words
    have inner := parted size words.2
    refine .of_apart rfl ?_ (.inl (by simp [Expr.text]))
    rw [Expr.text, inner.unwrap_text]
    have bracket : Neutral "[" ∧ Neutral "]" :=
      ⟨neutral_of_isPlain (by decide), neutral_of_isPlain (by decide)⟩
    exact (((((neutral_of_isPlain (by decide)).append words.1.1).append bracket.1).append
      inner.neutral).append bracket.2).append (neutral_brackets _)
  | .cond test yes no, words => by
    simp only [Expr.words, OverAll.append_iff] at words
    refine .of_inside rfl (((((parted test words.1).text.append ?_).append
      (parted yes words.2.1).text).append ?_).append (parted no words.2.2).text)
    · exact neutral_of_isPlain (by decide)
    · exact neutral_of_isPlain (by decide)

theorem neutral_texts : (exprs : List Expr) → OverAll Word.Harmless (Expr.wordsAll exprs) →
    ∀ text ∈ texts exprs, Neutral text
  | [], _ => by simp [texts]
  | expr :: rest, words => by
    simp only [Expr.wordsAll, OverAll.append_iff] at words
    simp only [texts, List.mem_cons, forall_eq_or_imp]
    exact ⟨(parted expr words.1).text, neutral_texts rest words.2⟩

end

end Java.Expr

end JavaBackend
