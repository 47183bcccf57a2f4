import JavaBackend.Draft.Method
import JavaBackend.Proofs.Words.Basic

/-!
# Reading generated code

Somebody who looks for something in a text (a character, names of a certain form) and who finds
nothing in the fixed syntax, nor across it, finds in generated code what is in its words, in the
same order. A `Reading` is such a search, and `Reading.see_text` and `Reading.pieces_eq` say so for
expressions and for statements.
-/

namespace JavaBackend

open Java (Stmt Code Piece Expr Test Handler Sink)

/-- The fixed syntax of expressions, statements and signatures. -/
def Java.fixedTexts : List String :=
  ["this", ".", "(", " = ", ")", ", ", "new ", " ", " == null)", " instanceof ", "((", ")(", "))",
    "\"\"", "(\"\" + ", " + ", "[", "]", "[]", " ? ", " : ",
    "+", "-", "*", "/", "%", "<", "<=", "==", "!=", ">=", ">", "<<", ">>", ">>>", "|", "&", "^",
    "&&", "||", "!", "~",
    ";", "return ", "throw ", "return;", "System.out.println(", "System.out.print(", ");", "super(",
    "this(", "break", "continue", ":", "if (", "while (", "!(", "for (", "catch (", " while (",
    "do", "try", "else", "finally", "public ", "public static ", "public abstract ", " throws "]

/-- A search in a text for which fixed syntax holds nothing, and parts what stands in front of it
    from what stands behind. -/
structure Reading (β : Type) where
  read : List Char → List β
  read_nil : read [] = []
  read_cut : ∀ fixed ∈ Java.fixedTexts, ∀ front behind : List Char,
    read (front ++ (fixed.toList ++ behind)) = read front ++ read behind

/-- The search for the occurrences of a character that fixed syntax does not have. -/
def Reading.ofChar (c : Char) (free : ∀ fixed ∈ Java.fixedTexts, c ∉ fixed.toList) :
    Reading Char where
  read text := text.filter (· == c)
  read_nil := rfl
  read_cut fixed mem front behind := by
    have none : fixed.toList.filter (· == c) = [] := by
      rw [List.filter_eq_nil_iff]
      rintro d found same
      exact free fixed mem (beq_iff_eq.mp same ▸ found)
    rw [List.filter_append, List.filter_append, none, List.nil_append]

namespace Text.Parens

theorem eq_of_inner? {chars inside : List Char} (found : inner? chars = some inside) :
    chars = '(' :: (inside ++ [')']) := by
  unfold inner? at found
  split at found
  · split at found <;> cases found
    next last =>
      obtain ⟨front, rfl⟩ := List.getLast?_eq_some_iff.mp last
      rw [List.dropLast_concat]
  · cases found

/-- What is taken away is one pair of parentheses at most. -/
theorem unwrap_cases (text : String) :
    unwrap text = text ∨ text = "(" ++ unwrap text ++ ")" := by
  unfold unwrap unwrapChars
  split
  · next inside found =>
    split
    · right
      apply String.toList_injective
      simpa using eq_of_inner? found
    · simp
  · simp

end Text.Parens

namespace Reading

variable {β : Type} (reading : Reading β)

/-- What is found in a text. -/
def see (text : String) : List β := reading.read text.toList

/-- What is found in a word. -/
def word (word : Word) : List β := reading.see word.text

@[simp]
theorem see_empty : reading.see "" = [] := reading.read_nil

theorem see_cut {fixed : String} (mem : fixed ∈ Java.fixedTexts) (front behind : String) :
    reading.see (front ++ (fixed ++ behind)) = reading.see front ++ reading.see behind := by
  unfold see
  rw [String.toList_append, String.toList_append]
  exact reading.read_cut fixed mem _ _

theorem see_front {fixed : String} (mem : fixed ∈ Java.fixedTexts) (behind : String) :
    reading.see (fixed ++ behind) = reading.see behind := by
  have cut := reading.see_cut mem "" behind
  rwa [String.empty_append, see_empty, List.nil_append] at cut

theorem see_back {fixed : String} (mem : fixed ∈ Java.fixedTexts) (front : String) :
    reading.see (front ++ fixed) = reading.see front := by
  have cut := reading.see_cut mem front ""
  rwa [String.append_empty, see_empty, List.append_nil] at cut

theorem see_fixed {fixed : String} (mem : fixed ∈ Java.fixedTexts) : reading.see fixed = [] := by
  have cut := reading.see_back mem ""
  rwa [String.empty_append, see_empty] at cut

/-! ## Expressions -/

theorem mem_symbol (op : BinaryOp) : op.symbol ∈ Java.fixedTexts := by
  cases op <;> decide

theorem mem_unarySymbol (op : UnaryOp) : op.symbol ∈ Java.fixedTexts := by
  cases op <;> decide

/-- Taking away a pair of parentheses takes away nothing that is found. -/
theorem see_unwrap (text : String) : reading.see (Text.Parens.unwrap text) = reading.see text := by
  rcases Text.Parens.unwrap_cases text with same | wrapped
  · rw [same]
  · conv => rhs; rw [wrapped]
    rw [String.append_assoc, see_front reading (by decide), see_back reading (by decide)]

/-- What is found in texts with fixed syntax between them. -/
theorem see_intercalate {separator : String} (mem : separator ∈ Java.fixedTexts)
    (texts : List String) :
    reading.see (separator.intercalate texts) = texts.flatMap reading.see := by
  induction texts with
  | nil => simp
  | cons text rest ih =>
    cases rest with
    | nil => simp
    | cons second rest =>
      rw [String.intercalate_cons_cons, String.append_assoc, see_cut reading mem, ih]
      rfl

theorem see_brackets (count : Nat) :
    reading.see (String.join (List.replicate count "[]")) = [] := by
  induction count with
  | zero => simp
  | succ count ih =>
    rw [List.replicate_succ, String.join_cons, see_front reading (by decide), ih]

mutual

/-- What is found in an expression is what is found in its words. -/
theorem see_text : (expr : Expr) → reading.see expr.text = expr.words.flatMap reading.word
  | .literal value => by simp [Expr.text, word, Word.text]
  | .this => by simpa [Expr.text] using see_fixed reading (by decide)
  | .var name => by simp [Expr.text, word, Word.text]
  | .owner name => by simp [Expr.text, word, Word.text]
  | .field target name => by
    simp (disch := decide) only [Expr.text, String.append_assoc, see_cut, see_text target]
    simp [word, Word.text]
  | .assign _ value | .instanceOf value _ => by
    simp (disch := decide) only [Expr.text, String.append_assoc, see_front, see_cut, see_back,
      see_text value]
    simp [word, Word.text]
  | .call target method args => by
    simp (disch := decide) only [Expr.text, String.append_assoc, see_cut, see_back,
      see_intercalate, see_text target, see_texts args]
    simp [word, Word.text]
  | .new type args => by
    simp (disch := decide) only [Expr.text, String.append_assoc, see_front, see_cut, see_back,
      see_intercalate, see_texts args]
    simp [word, Word.text]
  | .binary op left right => by
    simp (disch := decide) only [Expr.text, String.append_assoc, see_front, see_cut, see_back,
      see_fixed reading (mem_symbol op), see_text left, see_text right]
    simp
  | .unary op operand => by
    rw [Expr.text, String.append_assoc, String.append_assoc, see_front reading (mem_unarySymbol op)]
    simp (disch := decide) only [see_front, see_back, see_unwrap, see_text operand]
    simp
  | .isNull value => by
    simp (disch := decide) only [Expr.text, String.append_assoc, see_front, see_back,
      see_text value]
    simp
  | .cast type value => by
    simp (disch := decide) only [Expr.text, String.append_assoc, see_front, see_cut, see_back,
      see_unwrap, see_text value]
    simp [word, Word.text]
  | .concat [] => by simpa [Expr.text] using see_fixed reading (by decide)
  | .concat (first :: rest) => by
    rw [Expr.text, String.append_assoc]
    split <;>
    · simp (disch := decide) only [see_front, see_back, see_intercalate, see_texts (first :: rest)]
      simp
  | .newArray component size => by
    simp (disch := decide) only [Expr.text, String.append_assoc, see_front, see_cut, see_unwrap,
      see_brackets, see_text size]
    simp [word, Word.text]
  | .cond test yes no => by
    simp (disch := decide) only [Expr.text, String.append_assoc, see_front, see_cut, see_back,
      see_text test, see_text yes, see_text no]
    simp

theorem see_texts : (exprs : List Expr) →
    (Expr.texts exprs).flatMap reading.see = (Expr.wordsAll exprs).flatMap reading.word
  | [] => rfl
  | expr :: rest => by
    rw [Expr.texts, List.flatMap_cons, see_text expr, see_texts rest, Expr.wordsAll,
      List.flatMap_append]

end

theorem see_bare (expr : Expr) : reading.see expr.bare = expr.words.flatMap reading.word := by
  rw [Expr.bare, see_unwrap, see_text]

/-! ## Lines -/

theorem see_test (test : Test) : reading.see test.text = test.expr.words.flatMap reading.word := by
  unfold Test.text
  split
  · simp (disch := decide) only [String.append_assoc, see_front, see_back, see_bare]
  · exact reading.see_bare test.expr

theorem see_declaration (type : JavaType) (name : String) (init : Expr) :
    reading.see (Java.declaration type name init.text) =
      reading.word (.type type) ++ (reading.word (.var name) ++ init.words.flatMap reading.word) := by
  simp (disch := decide) only [Java.declaration, String.append_assoc, see_cut, see_back, see_text]
  rfl

theorem see_ifHeading (test : Test) :
    reading.see (Java.ifHeading test) = test.expr.words.flatMap reading.word := by
  simp (disch := decide) only [Java.ifHeading, String.append_assoc, see_front, see_back, see_test]

theorem see_whileHeading (test : Test) :
    reading.see (Java.whileHeading test) = test.expr.words.flatMap reading.word := by
  simp (disch := decide) only [Java.whileHeading, String.append_assoc, see_front, see_back, see_test]

theorem see_doTail (test : Test) :
    reading.see (Java.doTail test) = test.expr.words.flatMap reading.word := by
  simp (disch := decide) only [Java.doTail, String.append_assoc, see_front, see_back, see_test]

theorem see_forHeading (type : JavaType) (name : String) (iterable : Expr) :
    reading.see (Java.forHeading type name iterable) =
      reading.word (.type type) ++
        (reading.word (.var name) ++ iterable.words.flatMap reading.word) := by
  simp (disch := decide) only [Java.forHeading, String.append_assoc, see_front, see_cut, see_back,
    see_bare]
  rfl

theorem see_catchHeading (type : JavaType) (name : String) :
    reading.see (Java.catchHeading type name) =
      reading.word (.type type) ++ reading.word (.var name) := by
  simp (disch := decide) only [Java.catchHeading, String.append_assoc, see_front, see_cut, see_back]
  rfl

theorem see_jump {keyword : String} (mem : keyword ∈ Java.fixedTexts) (label : Option String) :
    reading.see (Java.jump keyword label) =
      (label.elim [] fun name => [Word.label name]).flatMap reading.word := by
  cases label with
  | none =>
    rw [Java.jump, see_front reading mem]
    exact reading.see_fixed (by decide)
  | some name =>
    rw [Java.jump, String.append_assoc, String.append_assoc, see_front reading mem]
    simp (disch := decide) only [see_front, see_back]
    simp [word, Word.text]

theorem see_print (newline : Bool) (value : Option Expr) :
    reading.see ("System.out." ++ (if newline then "println" else "print") ++ "(" ++
      (value.map Expr.text).getD "" ++ ");") =
      (value.elim [] Expr.words).flatMap reading.word := by
  have printed : reading.see ((value.map Expr.text).getD "") =
      (value.elim [] Expr.words).flatMap reading.word := by
    cases value with
    | none => exact reading.see_empty
    | some expr => exact reading.see_text expr
  rw [see_back reading (by decide)]
  cases newline with
  | true => exact (see_front reading (by decide) _).trans printed
  | false => exact (see_front reading (by decide) _).trans printed

theorem see_delegate (toSuper : Bool) (args : List Expr) :
    reading.see ((if toSuper then "super" else "this") ++ "(" ++
      ", ".intercalate (Expr.texts args) ++ ");") = (Expr.wordsAll args).flatMap reading.word := by
  have operands : reading.see (", ".intercalate (Expr.texts args)) =
      (Expr.wordsAll args).flatMap reading.word := by
    rw [see_intercalate reading (by decide), see_texts]
  rw [see_back reading (by decide)]
  cases toSuper with
  | true => exact (see_front reading (by decide) _).trans operands
  | false => exact (see_front reading (by decide) _).trans operands

/-- Nothing is found across the end of the text, whatever follows it. -/
def Splits (text : String) : Prop :=
  ∀ behind, reading.see (text ++ behind) = reading.see text ++ reading.see behind

/-- Text in front of a value is the one word that no fixed syntax follows. -/
def Ends (word : Word) : Prop := ∀ text, word = .lead text → reading.Splits text

theorem see_store {sink : Sink} (ends : OverAll reading.Ends sink.words) (value : Expr) :
    reading.see (sink.text ++ value.text ++ ";") =
      sink.words.flatMap reading.word ++ value.words.flatMap reading.word := by
  rw [see_back reading (by decide)]
  cases sink with
  | into name =>
    simp (disch := decide) only [Sink.text, String.append_assoc, see_cut, see_text]
    simp [word, Word.text]
  | result | thrown => simp (disch := decide) only [Sink.text, see_front, see_text]; simp
  | lead text =>
    have splits : reading.Splits text := ends _ List.mem_cons_self text rfl
    rw [Sink.text, splits, see_text]
    simp [Sink.words, word, Word.text]

/-! ## Statements -/

/-- What is found in the text of a piece. -/
def piece : Piece → List β
  | .line text | .opening text | .next text | .closing text => reading.see text

mutual

/-- What is found in a statement is what is found in its words. -/
theorem pieces_eq : (stmt : Stmt) → OverAll reading.Ends stmt.words →
    stmt.pieces.flatMap reading.piece = stmt.words.flatMap reading.word
  | .declare type name init, _ => by
    simp [Stmt.pieces, piece, see_declaration]
  | .store sink value, ends => by
    have ends := (OverAll.append_iff.mp ends).1
    simp [Stmt.pieces, piece, see_store reading ends]
  | .setField field value, _ => by
    simp (disch := decide) only [Stmt.pieces, List.flatMap_cons, List.flatMap_nil, piece,
      String.append_assoc, see_cut, see_back, see_text]
    simp
  | .eval expr, _ => by
    simp (disch := decide) only [Stmt.pieces, List.flatMap_cons, List.flatMap_nil, piece, see_back,
      see_text]
    simp
  | .ret, _ => by simpa [Stmt.pieces, piece] using see_fixed reading (by decide)
  | .print newline value, _ => by simp [Stmt.pieces, piece, see_print]
  | .delegate toSuper args, _ => by simp [Stmt.pieces, piece, see_delegate]
  | .break label, _ => by
    simpa [Stmt.pieces, piece] using see_jump reading (by decide) label
  | .continue label, _ => by
    simpa [Stmt.pieces, piece] using see_jump reading (by decide) label
  | .labeled label body, ends => by
    have rest := pieces_eq body (OverAll.cons_iff.mp ends).2
    rw [Stmt.pieces, List.flatMap_cons, rest]
    simp (disch := decide) only [piece, see_back]
    simp [word, Word.text]
  | .block body, ends => by
    simp [Stmt.pieces, piece, codePieces_eq body ends]
  | .ifThen test yes, ends => by
    have ends := (OverAll.append_iff.mp ends).2
    simp [Stmt.pieces, piece, see_ifHeading, codePieces_eq yes ends]
  | .ifElse test yes no, ends => by
    obtain ⟨-, yesEnds, noEnds⟩ := (OverAll.append_iff.mp ends).imp id OverAll.append_iff.mp
    have between := see_fixed reading (show "else" ∈ Java.fixedTexts by decide)
    simp [Stmt.pieces, piece, see_ifHeading, between, codePieces_eq yes yesEnds,
      codePieces_eq no noEnds]
  | .whileLoop test body, ends => by
    have ends := (OverAll.append_iff.mp ends).2
    simp [Stmt.pieces, piece, see_whileHeading, codePieces_eq body ends]
  | .doLoop body test, ends => by
    have ends := (OverAll.append_iff.mp ends).1
    have heading := see_fixed reading (show "do" ∈ Java.fixedTexts by decide)
    simp [Stmt.pieces, piece, heading, see_doTail, codePieces_eq body ends]
  | .forEach type name iterable body, ends => by
    have ends : OverAll reading.Ends (Stmt.codeWords body) := by simp_all
    simp [Stmt.pieces, piece, see_forHeading, codePieces_eq body ends]
  | .tryCatch body handlers, ends => by
    obtain ⟨ends, handled⟩ := OverAll.append_iff.mp ends
    have heading := see_fixed reading (show "try" ∈ Java.fixedTexts by decide)
    simp [Stmt.pieces, piece, heading, codePieces_eq body ends, handlersPieces_eq handlers handled]
  | .tryFinally body cleanup, ends => by
    obtain ⟨ends, last⟩ := OverAll.append_iff.mp ends
    have heading := see_fixed reading (show "try" ∈ Java.fixedTexts by decide)
    have between := see_fixed reading (show "finally" ∈ Java.fixedTexts by decide)
    simp [Stmt.pieces, piece, heading, between, codePieces_eq body ends, codePieces_eq cleanup last]

theorem codePieces_eq : (code : Code) → OverAll reading.Ends (Stmt.codeWords code) →
    (Stmt.codePieces code).flatMap reading.piece = (Stmt.codeWords code).flatMap reading.word
  | [], _ => rfl
  | stmt :: rest, ends => by
    obtain ⟨first, others⟩ := OverAll.append_iff.mp ends
    simp [Stmt.codePieces, pieces_eq stmt first, codePieces_eq rest others]

theorem handlerPieces_eq : (handler : Handler Code) →
    OverAll reading.Ends (Stmt.handlerWords handler) →
    (Stmt.handlerPieces handler).flatMap reading.piece =
      (Stmt.handlerWords handler).flatMap reading.word
  | ⟨type, name, body⟩, ends => by
    have ends : OverAll reading.Ends (Stmt.codeWords body) := by simp_all
    simp [Stmt.handlerPieces, piece, see_catchHeading, codePieces_eq body ends]

theorem handlersPieces_eq : (handlers : List (Handler Code)) →
    OverAll reading.Ends (Stmt.handlersWords handlers) →
    (Stmt.handlersPieces handlers).flatMap reading.piece =
      (Stmt.handlersWords handlers).flatMap reading.word
  | [], _ => rfl
  | handler :: rest, ends => by
    obtain ⟨first, others⟩ := OverAll.append_iff.mp ends
    simp [Stmt.handlersPieces, handlerPieces_eq handler first, handlersPieces_eq rest others]

end

/-! ## Signatures -/

/-- The words of a parameter. -/
def paramWords (param : Param) : List Word := [.type param.type, .var param.name]

theorem see_params (params : List Param) :
    reading.see (", ".intercalate (params.map fun param => param.type.source ++ " " ++ param.name)) =
      (params.flatMap paramWords).flatMap reading.word := by
  rw [see_intercalate reading (by decide), List.flatMap_map, List.flatMap_assoc]
  refine congrArg (List.flatMap · params) (funext fun param => ?_)
  simp (disch := decide) only [String.append_assoc, see_cut]
  simp [paramWords, word, Word.text]

theorem see_types (types : List JavaType) :
    reading.see (", ".intercalate (types.map JavaType.source)) =
      (types.map Word.type).flatMap reading.word := by
  rw [see_intercalate reading (by decide), List.flatMap_map, List.flatMap_map]
  rfl

/-- What stands in front of the type in a signature. -/
def modifiers : Flavor → String
  | .static => "public static "
  | .abstract => "public abstract "
  | .member | .constructor => "public "

theorem modifiers_eq (s : Signature) :
    "public" ++ (if s.isStatic then " static" else "") ++
      (if s.isAbstract then " abstract" else "") ++ " " = modifiers s.flavor := by
  unfold Signature.isStatic Signature.isAbstract
  cases s.flavor <;> decide

/-- The words of a signature. -/
def signatureWords (s : Signature) : List Word :=
  (if s.isConstructor then [] else [.type s.returns]) ++
    .method s.name :: (s.params.flatMap paramWords ++ s.exceptions.map .type)

/-- What is found in a signature is what is found in its words. -/
theorem see_signature (s : Signature) :
    reading.see s.source = (signatureWords s).flatMap reading.word := by
  obtain ⟨name, flavor, returns, params, exceptions⟩ := s
  have modified : modifiers flavor ∈ Java.fixedTexts := by cases flavor <;> decide
  have listed := reading.see_params params
  unfold Signature.source
  simp only [modifiers_eq]
  generalize ", ".intercalate (params.map _) = texts at *
  unfold signatureWords
  simp only [String.append_assoc]
  rw [see_front reading modified]
  cases exceptions with
  | nil =>
    split <;>
    · simp (disch := decide) only [String.empty_append, String.append_assoc, see_cut, listed]
      simp [word, Word.text]
  | cons first rest =>
    have thrown := reading.see_types (first :: rest)
    split <;>
    · simp (disch := decide) only [String.empty_append, String.append_assoc, see_cut, see_front,
        listed, thrown]
      simp [word, Word.text]

end Reading

end JavaBackend
