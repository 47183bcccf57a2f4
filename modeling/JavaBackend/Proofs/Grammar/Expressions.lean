import JavaBackend.Proofs.Grammar.Balance
import JavaBackend.Proofs.Grammar.Parser
import JavaBackend.Proofs.Grammar.Spelling
import JavaBackend.Proofs.Lowering.Expressions

/-!
# Expressions read back

`Expr.ast` is the tree that Java is to read the text of an expression as. It is read so wherever the
text stands (`Spelled.phrased`), if the names in the expression are identifiers, the classes are
classes and the receivers have members (`Expr.Spelled`).

Three readings go along in the induction, as the texts of expressions are put together in three ways.
As an operand, the text is a unary expression: it brings parentheses around anything looser. In front
of a dot it has to be a primary expression. Where a construct brings parentheses or brackets of its
own, those of the expression are taken away, and what is left is any expression.
-/

namespace JavaBackend.Java

variable {alphabet : Alphabet}

/-! ## The trees of expressions -/

/-- The tree of a floating-point literal: a constant of the class `owner` if the value is not finite,
    and its decimal behind the cast if it is. -/
def floatingAst (owner : String) (cast : Ast → Ast) (format : Decimal.Format) (bits : Nat) : Ast :=
  match Decimal.decode format bits with
  | .nan => .select (.name owner) "NaN"
  | .infinite false => .select (.name owner) "POSITIVE_INFINITY"
  | .infinite true => .select (.name owner) "NEGATIVE_INFINITY"
  | .finite negative magnitude =>
    cast (if negative then .unary .neg (.double (shortestValue magnitude))
      else .double (shortestValue magnitude))

def literalAst : Literal → Ast
  | .null => .null
  | .bool value => .bool value
  | .int value => signed .int value.toInt
  | .long value => signed .long value.toInt
  | .float bits => floatingAst "Float" (.cast (.primitive .float)) .single bits.toNat
  | .double bits => floatingAst "Double" id .double bits.toNat
  | .char value =>
    if 0xffff < value.toNat then .cast (.primitive .char) (.int value.toNat) else .char value
  | .str value => .str value
  | .type type => .classOf (written type)

namespace Expr

mutual

/-- The tree that the text of an expression is to be read as. -/
def ast : Expr → Ast
  | .literal value => literalAst value
  | .this => .this
  | .var name => .name name
  | .owner name => nameTree (nameParts name)
  | .field target name => .select target.ast name
  | .assign name value => .assign (.name name) value.ast
  | .call target method args => .invoke target.ast method (asts args)
  | .new type args => .create (written type) (asts args)
  | .binary op left right => .binary op left.ast right.ast
  | .unary op operand => .unary op operand.ast
  | .isNull value => .binary .eq value.ast .null
  | .instanceOf value type => .instanceOf value.ast (written type)
  | .cast type value => .cast (written type) value.ast
  | .concat parts =>
    match parts with
    | [] => .str ""
    | first :: rest =>
      (asts rest).foldl (.binary .add)
        (if first.isString then first.ast else .binary .add (.str "") first.ast)
  | .newArray component size => .createArray (written component) size.ast
  | .cond test yes no => .cond test.ast yes.ast no.ast

/-- The tree of each expression. -/
def asts : List Expr → List Ast
  | [] => []
  | expr :: rest => expr.ast :: asts rest

end

theorem asts_eq (exprs : List Expr) : asts exprs = exprs.map ast := by
  induction exprs with
  | nil => rfl
  | cons expr rest ih => rw [asts, ih, List.map_cons]

/-- Whether methods can be called on the expression as it is written: there are none on numbers and
    characters, and operators in front of a value would be read as in front of the call. -/
def isReceiver : Expr → Bool
  | .unary _ _ => false
  | .literal (.int _) | .literal (.long _) | .literal (.float _) | .literal (.double _)
  | .literal (.char _) => false
  | _ => true

/-- The names in the expression are identifiers that are no keywords, and stand where Java allows
    them. -/
inductive Spelled (alphabet : Alphabet) : Expr → Prop where
  | literal {value : Literal} (types : ∀ type, value = .type type → isSpelled alphabet type = true) :
    Spelled alphabet (.literal value)
  | this : Spelled alphabet .this
  | var {name : String} (identifier : isIdentifier alphabet name = true) : Spelled alphabet (.var name)
  | owner {name : String} (qualified : isQualified alphabet name = true) :
    Spelled alphabet (.owner name)
  | field {target : Expr} {name : String} (owner : Spelled alphabet target)
      (receiver : target.isReceiver = true) (identifier : isIdentifier alphabet name = true) :
    Spelled alphabet (.field target name)
  | assign {name : String} {value : Expr} (identifier : isIdentifier alphabet name = true)
      (spelled : Spelled alphabet value) : Spelled alphabet (.assign name value)
  | call {target : Expr} {method : String} {args : List Expr} (owner : Spelled alphabet target)
      (receiver : target.isReceiver = true) (identifier : isIdentifier alphabet method = true)
      (each : ∀ arg ∈ args, Spelled alphabet arg) : Spelled alphabet (.call target method args)
  | new {name : String} {args : List Expr} (type : isSpelled alphabet (.reference name) = true)
      (each : ∀ arg ∈ args, Spelled alphabet arg) : Spelled alphabet (.new (.reference name) args)
  | binary (op : BinaryOp) {left right : Expr} (first : Spelled alphabet left)
      (second : Spelled alphabet right) : Spelled alphabet (.binary op left right)
  | unary (op : UnaryOp) {operand : Expr} (spelled : Spelled alphabet operand) :
    Spelled alphabet (.unary op operand)
  | isNull {value : Expr} (spelled : Spelled alphabet value) : Spelled alphabet (.isNull value)
  | instanceOf {value : Expr} {type : JavaType} (spelled : Spelled alphabet value)
      (typed : isSpelled alphabet type = true) : Spelled alphabet (.instanceOf value type)
  | cast {type : JavaType} {value : Expr} (typed : isSpelled alphabet type = true)
      (spelled : Spelled alphabet value) : Spelled alphabet (.cast type value)
  | concat {parts : List Expr} (each : ∀ part ∈ parts, Spelled alphabet part) :
    Spelled alphabet (.concat parts)
  | newArray {component : JavaType} {size : Expr} (typed : isSpelled alphabet component = true)
      (spelled : Spelled alphabet size) : Spelled alphabet (.newArray component size)
  | cond {test yes no : Expr} (first : Spelled alphabet test) (second : Spelled alphabet yes)
      (third : Spelled alphabet no) : Spelled alphabet (.cond test yes no)

end Expr

/-! ## Words without parentheses -/

open Text.Parens (isPlain marks)

theorem isPlain_of_isIdentifier {name : String} (identifier : isIdentifier alphabet name = true) :
    isPlain name = true := by
  have isWord := (wordToken_of_isIdentifier identifier).1
  have punctuated : marks ⊆ punctuation := by decide
  rw [isPlain, List.all_eq_true]
  intro c mem
  refine decide_eq_true fun mark => ?_
  exact not_mem_punctuation (isWordChar_of_mem isWord mem) (punctuated mark)

theorem isPlain_of_isQualified {name : String} (qualified : isQualified alphabet name = true) :
    isPlain name = true := by
  obtain ⟨first, parts, split, joined⟩ := nameParts_eq name
  rw [isQualified, split, List.all_eq_true] at qualified
  have each : ∀ part ∈ first :: parts, ∀ c ∈ part.toList, c ∉ marks := by
    intro part mem c found
    exact of_decide_eq_true (List.all_eq_true.mp (isPlain_of_isIdentifier (qualified part mem)) c found)
  rw [isPlain, List.all_eq_true, joined]
  intro c mem
  refine decide_eq_true ?_
  rcases List.mem_append.mp mem with mem | mem
  · exact each first List.mem_cons_self c mem
  · obtain ⟨part, listed, mem⟩ := List.mem_flatMap.mp mem
    rcases List.mem_cons.mp mem with rfl | mem
    · decide
    · exact each part (List.mem_cons_of_mem first listed) c mem

theorem isPlain_of_isSpelled {type : JavaType} (spelled : isSpelled alphabet type = true) :
    isPlain type.source = true := by
  induction type with
  | void => cases spelled
  | reference name => exact isPlain_of_isQualified spelled
  | array component ih => exact isPlain_append (ih spelled) (by decide)
  | _ => decide

namespace Expr

theorem Spelled.harmless {expr : Expr} (spelled : Spelled alphabet expr) :
    OverAll Word.Harmless expr.words := by
  have named {word : Word} (identifier : isIdentifier alphabet word.text = true) : word.Harmless :=
    harmless_of_isPlain (isPlain_of_isIdentifier identifier)
  have typed {type : JavaType} (spelled : isSpelled alphabet type = true) : (Word.type type).Harmless :=
    harmless_of_isPlain (isPlain_of_isSpelled spelled)
  have all {exprs : List Expr} (each : ∀ expr ∈ exprs, OverAll Word.Harmless expr.words) :
      OverAll Word.Harmless (Expr.wordsAll exprs) := by
    rw [Expr.wordsAll_eq]
    exact OverAll.flatMap_iff.mpr each
  induction spelled with
  | literal types =>
    simpa using harmless_literal fun type same => isPlain_of_isSpelled (types type same)
  | this => simp
  | var identifier => exact OverAll.cons_iff.mpr ⟨named identifier, .nil⟩
  | @owner name qualified =>
    have plain : (Word.owner name).Harmless := harmless_of_isPlain (isPlain_of_isQualified qualified)
    simpa using plain
  | field _ _ identifier ih => simpa using ⟨ih, named identifier⟩
  | assign identifier _ ih => simpa using ⟨named identifier, ih⟩
  | call _ _ identifier _ ih each => simpa using ⟨ih, named identifier, all each⟩
  | new type _ each => simpa using ⟨typed type, all each⟩
  | binary _ _ _ first second => simpa using ⟨first, second⟩
  | unary _ _ ih | isNull _ ih => simpa using ih
  | instanceOf _ type ih => simpa using ⟨ih, typed type⟩
  | cast type _ ih => simpa using ⟨typed type, ih⟩
  | concat _ each => simpa using all each
  | newArray type _ ih => simpa using ⟨typed ((isSpelled_dimensions _).trans type), ih⟩
  | cond _ _ _ first second third => simpa using ⟨first, second, third⟩

theorem Spelled.parted {expr : Expr} (spelled : Spelled alphabet expr) : expr.Parted :=
  Expr.parted expr spelled.harmless

end Expr

/-! ## Literals -/

theorem spells_magnitude (negative : Bool) (x : Decimal.Binary) :
    Spells alphabet endsOperand .unary (String.ofList (Literal.layout.renderBinary negative x))
      (if negative then .unary .neg (.double (shortestValue x)) else .double (shortestValue x)) := by
  refine ⟨signTokens negative ++ [.double (shortestValue x)], ?_, fun rest more ends read => ?_⟩
  · cases negative with
    | false => exact .unary (.unsigned (.leaf rfl rfl))
    | true => exact .unaryOperator .neg (.unary (.unsigned (.leaf rfl rfl)))
  · have number := read.magnitude Literal.layout negative x (endsNumber_of_endsOperand ends)
    simpa using number

/-- A constant of one of the classes of numbers. -/
theorem spells_constant {owner name : String} (known : isIdentifier alphabet owner = true)
    (identifier : isIdentifier alphabet name = true) :
    Spells alphabet endsOperand .unary (owner ++ ("." ++ name)) (.select (.name owner) name) := by
  rw [← String.append_assoc]
  exact ((Spells.name known).select identifier).toUnary

theorem spells_floating {owner cast : String} {wrap : Ast → Ast} (format : Decimal.Format) (bits : Nat)
    (known : isIdentifier alphabet owner = true)
    (wraps : ∀ {text : String} {tree : Ast}, Spells alphabet endsOperand .unary text tree →
      Spells alphabet endsOperand .unary (cast ++ text) (wrap tree)) :
    Spells alphabet endsOperand .unary (Literal.floating owner cast format bits)
      (floatingAst owner wrap format bits) := by
  unfold Literal.floating floatingAst
  cases Decimal.decode format bits with
  | nan => exact spells_constant known rfl
  | infinite negative => cases negative <;> exact spells_constant known rfl
  | finite negative magnitude => exact wraps (spells_magnitude negative magnitude)

theorem spells_int (value : Int) (range : -2147483648 ≤ value ∧ value < 2147483648) :
    Spells alphabet endsOperand .unary (toString value) (signed .int value) := by
  rw [← String.append_empty (s := toString value)]
  refine .whole .int .int "" 2147483648 (fun _ => rfl) (fun n small => decide_eq_true small)
    rfl ?_ value range
  intro n rest more ends read
  exact read.int n (endsNumber_of_endsOperand ends)

theorem spells_long (value : Int) (range : -9223372036854775808 ≤ value ∧ value < 9223372036854775808) :
    Spells alphabet endsOperand .unary (toString value ++ "L") (signed .long value) := by
  refine .whole .long .long "L" 9223372036854775808 (fun _ => rfl) (fun n small => decide_eq_true small)
    rfl ?_ value range
  intro n rest more ends read
  exact read.long n (head?_any_of_endsNumber (endsNumber_of_endsOperand ends)).1

/-- A cast to a primitive type. -/
theorem spells_primitive {type : JavaType} (spelled : isSpelled alphabet type = true)
    (primitive : (written type).isPrimitive = true) {text : String} {tree : Ast}
    (operand : Spells alphabet endsOperand .unary text tree) :
    Spells alphabet endsOperand .unary ("(" ++ type.source ++ ")" ++ text)
      (.cast (written type) tree) := by
  have category : castOperand (written type) = .unary := if_pos primitive
  exact operand.cast spelled fun _ derives => category ▸ derives

/-- A literal is an operand, and a value with members unless it is a number or a character. -/
theorem spells_literal {value : Literal}
    (types : ∀ type, value = .type type → isSpelled alphabet type = true) :
    Spells alphabet endsOperand .unary value.source (literalAst value) ∧
      ((Expr.literal value).isReceiver = true →
        Spells alphabet endsPrimary .primary value.source (literalAst value)) := by
  have plain {value : Literal}
      (spells : Spells alphabet endsPrimary .primary value.source (literalAst value)) :
      Spells alphabet endsOperand .unary value.source (literalAst value) ∧
        ((Expr.literal value).isReceiver = true →
          Spells alphabet endsPrimary .primary value.source (literalAst value)) :=
    ⟨spells.toUnary, fun _ => spells⟩
  cases value with
  | null => exact plain (.keyword rfl rfl rfl rfl)
  | bool value => cases value <;> exact plain (.keyword rfl rfl rfl rfl)
  | int value =>
    exact ⟨spells_int value.toInt ⟨value.le_toInt, value.toInt_lt⟩, fun receiver => by cases receiver⟩
  | long value =>
    exact ⟨spells_long value.toInt ⟨value.le_toInt, value.toInt_lt⟩, fun receiver => by cases receiver⟩
  | float bits =>
    have front : "(float)" = "(" ++ JavaType.float.source ++ ")" := by decide
    refine ⟨spells_floating .single bits.toNat rfl fun spells => ?_, fun receiver => by cases receiver⟩
    rw [front]
    exact spells_primitive rfl rfl spells
  | double bits =>
    refine ⟨spells_floating .double bits.toNat rfl fun spells => ?_, fun receiver => by cases receiver⟩
    rwa [String.empty_append]
  | char value =>
    refine ⟨?_, fun receiver => by cases receiver⟩
    have front : "(char)" = "(" ++ JavaType.char.source ++ ")" := by decide
    show Spells alphabet endsOperand .unary (Literal.ofChar value) (if _ then _ else _)
    unfold Literal.ofChar
    split
    · have code : Spells alphabet endsOperand .unary (toString value.toNat) (.int value.toNat) := by
        have range : value.toNat < 1114112 := by
          have valid : value.toNat.isValidChar := value.valid
          unfold Nat.isValidChar at valid
          omega
        exact spells_int value.toNat ⟨by omega, by omega⟩
      rw [front]
      exact spells_primitive rfl rfl code
    · next small => exact (Spells.char (Nat.le_of_not_lt small)).toUnary
  | str value => exact plain (.str value)
  | type type => exact plain (.classOf (types type rfl))

/-! ## Expressions -/

/-- Parts of a text with plus signs between them are a chain of additions, from the left. -/
theorem spells_chain {first : String} {tree : Ast} {parts : List (String × Ast)}
    (start : Spells alphabet endsOperand (.operation (level .add)) first tree)
    (each : ∀ part ∈ parts, Spells alphabet endsOperand .unary part.1 part.2) :
    Spells alphabet endsOperand .expression (" + ".intercalate (first :: parts.map Prod.fst))
      ((parts.map Prod.snd).foldl (.binary .add) tree) := by
  induction parts generalizing first tree with
  | nil =>
    rw [List.map_nil, String.intercalate_singleton]
    exact start.ofOperation
  | cons part parts ih =>
    have sum := ih (start.binary .add (each part List.mem_cons_self))
      fun other mem => each other (List.mem_cons_of_mem part mem)
    have plus : " + " = " " ++ BinaryOp.add.symbol ++ " " := by decide
    have text : " + ".intercalate ((first ++ " " ++ BinaryOp.add.symbol ++ " " ++ part.1) ::
        parts.map Prod.fst) = " + ".intercalate (first :: (part :: parts).map Prod.fst) := by
      have grouped :
          first ++ " " ++ BinaryOp.add.symbol ++ " " ++ part.1 = first ++ " + " ++ part.1 := by
        simp only [plus, String.append_assoc]
      rw [grouped, List.map_cons, String.intercalate_cons_cons]
      cases parts.map Prod.fst with
      | nil => rw [String.intercalate_singleton, String.intercalate_singleton]
      | cons =>
        rw [String.intercalate_cons_cons, String.intercalate_cons_cons]
        simp only [String.append_assoc]
    rw [text] at sum
    exact sum

namespace Expr

/-- The text of the expression is read as its tree: as an operand, as a value with members if it may
    be one, and between the parentheses of a construct. -/
structure Phrased (alphabet : Alphabet) (expr : Expr) : Prop where
  operand : Spells alphabet endsOperand .unary expr.text expr.ast
  receiver : expr.isReceiver = true → Spells alphabet endsPrimary .primary expr.text expr.ast
  bare : Spells alphabet endsOperand .expression expr.bareText expr.ast

namespace Phrased

variable {expr : Expr}

theorem of_inside {inside : String} (enclosed : expr.inside? = some inside)
    (spells : Spells alphabet endsOperand .expression inside expr.ast) : Phrased alphabet expr := by
  have text := text_of_inside? enclosed
  refine ⟨?_, fun _ => ?_, by simpa [bareText, enclosed] using spells⟩
  · rw [text]
    exact spells.parens.toUnary
  · rw [text]
    exact spells.parens

theorem of_operand (loose : expr.inside? = none)
    (operand : Spells alphabet endsOperand .unary expr.text expr.ast)
    (receiver : expr.isReceiver = true → Spells alphabet endsPrimary .primary expr.text expr.ast) :
    Phrased alphabet expr :=
  ⟨operand, receiver, by simpa [bareText, loose] using operand.toExpression⟩

theorem of_primary (loose : expr.inside? = none)
    (spells : Spells alphabet endsPrimary .primary expr.text expr.ast) : Phrased alphabet expr :=
  .of_operand loose spells.toUnary fun _ => spells

/-- Texts and trees of several expressions. -/
theorem pairs {exprs : List Expr} (each : ∀ expr ∈ exprs, Phrased alphabet expr) :
    ∃ pairs : List (String × Ast), texts exprs = pairs.map Prod.fst ∧ asts exprs = pairs.map Prod.snd ∧
      ∀ pair ∈ pairs, Spells alphabet endsOperand .unary pair.1 pair.2 := by
  refine ⟨exprs.map fun expr => (expr.text, expr.ast), ?_, ?_, ?_⟩
  · rw [texts_eq, List.map_map]
    rfl
  · rw [asts_eq, List.map_map]
    rfl
  · exact List.forall_mem_map.mpr fun expr mem => (each expr mem).operand

end Phrased

theorem Spelled.phrased {expr : Expr} (spelled : Spelled alphabet expr) : Phrased alphabet expr := by
  induction spelled with
  | literal types =>
    obtain ⟨operand, receiver⟩ := spells_literal types
    exact .of_operand rfl operand receiver
  | this => exact .of_primary rfl (.keyword rfl rfl rfl rfl)
  | var identifier => exact .of_primary rfl (.name identifier)
  | owner qualified => exact .of_primary rfl (.qualified qualified)
  | field _ receiver identifier ih => exact .of_primary rfl ((ih.receiver receiver).select identifier)
  | assign identifier _ ih => exact .of_inside rfl (.assign identifier ih.operand.toExpression)
  | call _ receiver identifier _ ih each =>
    obtain ⟨args, texts, trees, spells⟩ := Phrased.pairs each
    refine .of_primary rfl ?_
    rw [text, ast, texts, trees]
    exact (ih.receiver receiver).invoke identifier fun arg mem => (spells arg mem).toExpression
  | new type _ each =>
    obtain ⟨args, texts, trees, spells⟩ := Phrased.pairs each
    refine .of_primary rfl ?_
    rw [text, ast, texts, trees]
    exact .create type rfl fun arg mem => (spells arg mem).toExpression
  | binary op _ _ first second =>
    exact .of_inside rfl ((first.operand.toOperation op).binary op second.operand).ofOperation
  | @unary op operand spelled ih =>
    refine .of_operand rfl ?_ (fun receiver => by cases receiver)
    rw [text, spelled.parted.unwrap_text]
    exact ih.bare.unary op
  | isNull _ ih =>
    have null : Spells alphabet endsOperand .unary "null" .null :=
      Spells.toUnary (.keyword rfl rfl rfl rfl)
    have test := ((ih.operand.toOperation .eq).binary .eq null).ofOperation
    have text : " == null" = " " ++ BinaryOp.eq.symbol ++ " " ++ "null" := by decide
    refine .of_inside rfl ?_
    rw [ast, text]
    simpa only [String.append_assoc] using test
  | instanceOf _ type ih => exact .of_inside rfl (ih.operand.instanceOf type)
  | @cast type value typed spelled ih =>
    have operand : Spells alphabet endsOperand .primary ("(" ++ value.bareText ++ ")") value.ast :=
      ih.bare.parens
    have cast := operand.cast typed fun _ derives => derives.toCastOperand (written type)
    exact .of_inside (spelled.parted.inside?_cast type) cast.toExpression
  | @concat parts _ each =>
    cases parts with
    | nil => exact .of_primary rfl (.str "")
    | cons first rest =>
      refine .of_inside rfl ?_
      rw [ast]
      split
      · obtain ⟨pairs, texts, trees, spells⟩ := Phrased.pairs fun part mem =>
          each part (List.mem_cons_of_mem first mem)
        have chain := spells_chain ((each first List.mem_cons_self).operand.toOperation .add) spells
        rw [String.empty_append, Expr.texts, texts, trees]
        exact chain
      · obtain ⟨pairs, texts, trees, spells⟩ := Phrased.pairs each
        have chain := spells_chain ((Spells.str "").toUnary.toOperation .add) spells
        have empty : "\"\" + " = Literal.ofString "" ++ " + " := by decide
        rw [← texts, ← trees, Expr.texts, String.intercalate_cons_cons, ← empty] at chain
        exact chain
  | @newArray component size typed spelled ih =>
    refine .of_primary rfl ?_
    rw [text, spelled.parted.unwrap_text]
    exact ih.bare.createArray typed
  | cond _ _ _ first second third =>
    exact .of_inside rfl (first.operand.cond second.operand third.operand)

end Expr

end JavaBackend.Java
