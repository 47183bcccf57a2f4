import JavaBackend.Proofs.Grammar.Numbers
import JavaBackend.Proofs.Grammar.Phrases

/-!
# Texts of phrases

`Spells` puts the two sides of the grammar together: a text spells a tree if it is read as the tokens
of a phrase with that tree, in front of every character that may follow it. There is one rule for each
way to put a text together from others.
-/

namespace JavaBackend.Java

variable {alphabet : Alphabet} {rest : List Char} {tokens more : List Token} {tree : Ast}
  {category : Category} {text : String}

/-! ## Qualified names and types -/

/-- The parts of a text between its dots. -/
def dotParts : List Char → List (List Char)
  | [] => [[]]
  | c :: rest =>
    match dotParts rest with
    | [] => []
    | part :: parts => if c = '.' then [] :: part :: parts else (c :: part) :: parts

/-- The identifiers of a qualified name. -/
def nameParts (name : String) : List String := (dotParts name.toList).map String.ofList

/-- Identifiers that are no keywords, with dots between them. -/
def isQualified (alphabet : Alphabet) (name : String) : Bool :=
  (nameParts name).all (isIdentifier alphabet)

/-- The type of a qualified name. -/
def namedType (parts : List String) : WrittenType := .named (parts.headD "") parts.tail

/-- The value of a qualified name. -/
def nameTree (parts : List String) : Ast := parts.tail.foldl .select (.name (parts.headD ""))

/-- The type as it is written. -/
def written : JavaType → WrittenType
  | .array component => .array (written component)
  | .reference name => namedType (nameParts (JavaType.reference name).source)
  | type => .primitive type

/-- Whether the names in a type are identifiers. There are no values of type `void`. -/
def isSpelled (alphabet : Alphabet) : JavaType → Bool
  | .void => false
  | .array component => isSpelled alphabet component
  | .reference name => isQualified alphabet (JavaType.reference name).source
  | _ => true

/-- Names with a dot in front of each. -/
def memberChars (parts : List String) : List Char := parts.flatMap fun part => '.' :: part.toList

theorem stop_mark (c : Char) (mark : c ∈ punctuation) (rest : List Char) :
    (c :: rest).head?.any (isWordChar alphabet) = false := not_isWordChar_of_mem mark

theorem dotParts_eq (chars : List Char) :
    ∃ first parts, dotParts chars = first :: parts ∧ chars = first ++ parts.flatMap ('.' :: ·) := by
  induction chars with
  | nil => exact ⟨[], [], rfl, rfl⟩
  | cons c rest ih =>
    obtain ⟨first, parts, split, joined⟩ := ih
    by_cases dot : c = '.'
    · exact ⟨[], first :: parts, by simp [dotParts, split, dot], by simp [dot, joined]⟩
    · exact ⟨c :: first, parts, by simp [dotParts, split, dot], by simp [joined]⟩

theorem nameParts_eq (name : String) : ∃ first parts, nameParts name = first :: parts ∧
    name.toList = first.toList ++ memberChars parts := by
  obtain ⟨first, parts, split, joined⟩ := dotParts_eq name.toList
  refine ⟨String.ofList first, parts.map String.ofList, by simp [nameParts, split], ?_⟩
  rw [joined, memberChars, List.flatMap_map]
  simp

theorem identifier_head {name : String} (identifier : isIdentifier alphabet name = true) :
    ∃ first others, name.toList = first :: others ∧ isLetter alphabet first = true := by
  have isWord := (wordToken_of_isIdentifier identifier).1
  unfold Java.isWord at isWord
  cases chars : name.toList with
  | nil => simp [chars] at isWord
  | cons first others =>
    simp only [chars, Bool.and_eq_true] at isWord
    exact ⟨first, others, rfl, isWord.1⟩

/-- A name behind a dot. -/
theorem Reads.member {name : String} (identifier : isIdentifier alphabet name = true)
    (stop : rest.head?.any (isWordChar alphabet) = false) (reads : Reads alphabet rest more) :
    Reads alphabet ('.' :: (name.toList ++ rest)) (.dot :: .name name :: more) := by
  have read := reads.name identifier stop
  obtain ⟨first, others, chars, letter⟩ := identifier_head identifier
  rw [chars] at read ⊢
  exact Reads.dot letter read

theorem memberChars_head (parts : List String) (stop : rest.head?.any (isWordChar alphabet) = false) :
    (memberChars parts ++ rest).head?.any (isWordChar alphabet) = false := by
  cases parts with
  | nil => exact stop
  | cons => exact not_isWordChar_of_mem (by decide)

theorem Reads.members {parts : List String} (each : ∀ part ∈ parts, isIdentifier alphabet part = true)
    (stop : rest.head?.any (isWordChar alphabet) = false) (reads : Reads alphabet rest more) :
    Reads alphabet (memberChars parts ++ rest) (members parts ++ more) := by
  induction parts with
  | nil => exact reads
  | cons part parts ih =>
    have others := ih fun other mem => each other (List.mem_cons_of_mem part mem)
    have read := Reads.member (each part List.mem_cons_self) (memberChars_head parts stop) others
    simpa [Java.members, memberChars] using read

theorem Reads.qualified {name : String} (qualified : isQualified alphabet name = true)
    (stop : rest.head?.any (isWordChar alphabet) = false) (reads : Reads alphabet rest more) :
    Reads alphabet (name.toList ++ rest) ((namedType (nameParts name)).tokens ++ more) := by
  obtain ⟨first, parts, split, joined⟩ := nameParts_eq name
  rw [isQualified, split, List.all_eq_true] at qualified
  have others := reads.members (fun part mem => qualified part (List.mem_cons_of_mem first mem)) stop
  have read := others.name (qualified first List.mem_cons_self) (memberChars_head parts stop)
  rw [joined, split, List.append_assoc]
  exact read

theorem Reads.type {type : JavaType} (spelled : isSpelled alphabet type = true)
    (stop : rest.head?.any (isWordChar alphabet) = false) (reads : Reads alphabet rest more) :
    Reads alphabet (type.source.toList ++ rest) ((written type).tokens ++ more) := by
  induction type generalizing rest more with
  | void => cases spelled
  | reference name => exact reads.qualified spelled stop
  | array component ih =>
    have closed : Reads alphabet ('[' :: ']' :: rest) (.openBracket :: .closeBracket :: more) :=
      .mark rfl (.mark rfl reads)
    have next := ih spelled (stop_mark '[' (by decide) _) closed
    simpa [JavaType.source, written, WrittenType.tokens] using next
  | _ => exact reads.word rfl stop

theorem isSpelled_dimensions (type : JavaType) :
    isSpelled alphabet type.dimensions.1 = isSpelled alphabet type := by
  induction type with
  | array component ih => exact ih
  | _ => rfl

theorem written_dimensions (type : JavaType) : written type.dimensions.1 = (written type).element := by
  induction type with
  | array component ih => exact ih
  | _ => rfl

/-- The brackets of all dimensions of an array. -/
theorem Reads.brackets (type : JavaType) (reads : Reads alphabet rest more) :
    Reads alphabet ((String.join (List.replicate type.dimensions.2 "[]")).toList ++ rest)
      ((written type).brackets ++ more) := by
  induction type generalizing rest more with
  | array component ih =>
    have text : String.join (List.replicate (component.dimensions.2 + 1) "[]") =
        String.join (List.replicate component.dimensions.2 "[]") ++ "[]" := by
      rw [List.replicate_succ', String.join_append]
      rfl
    have last : Reads alphabet ('[' :: ']' :: rest) (.openBracket :: .closeBracket :: more) :=
      .mark rfl (.mark rfl reads)
    show Reads alphabet
      ((String.join (List.replicate (component.dimensions.2 + 1) "[]")).toList ++ rest) _
    rw [text]
    simpa [written, WrittenType.brackets] using ih last
  | _ => exact reads

/-! ## Phrases -/

/-- A number with its sign. -/
def signed (leaf : Nat → Ast) (value : Int) : Ast :=
  if value < 0 then .unary .neg (leaf value.natAbs) else leaf value.natAbs

/-- What can follow an operand. -/
def endsOperand (c : Char) : Bool := c ∈ [' ', ')', ',', ']']

/-- What can follow a value that has members. -/
def endsPrimary (c : Char) : Bool := c = '.' || endsOperand c

/-- The text is a phrase of the category with this tree, wherever a character follows that may. -/
def Spells (alphabet : Alphabet) (follows : Char → Bool) (category : Category) (text : String)
    (tree : Ast) : Prop :=
  ∃ tokens, Derives category tokens tree ∧
    ∀ rest more, rest.head?.all follows = true → Reads alphabet rest more →
      Reads alphabet (text.toList ++ rest) (tokens ++ more)

theorem endsPrimary_of_endsOperand {c : Char} (ends : endsOperand c = true) : endsPrimary c = true := by
  rw [endsPrimary, ends, Bool.or_true]

theorem mem_of_endsPrimary {c : Char} (ends : rest.head?.all endsPrimary = true)
    (head : rest.head? = some c) : c ∈ ['.', ' ', ')', ',', ']'] := by
  simpa [head, endsPrimary, endsOperand] using ends

theorem stop_of_endsPrimary (ends : rest.head?.all endsPrimary = true) :
    rest.head?.any (isWordChar alphabet) = false := by
  have marks : ['.', ' ', ')', ',', ']'] ⊆ punctuation := by decide
  cases rest with
  | nil => rfl
  | cons c rest => exact not_isWordChar_of_mem (marks (mem_of_endsPrimary ends rfl))

theorem head?_ne_of_endsPrimary (ends : rest.head?.all endsPrimary = true) : rest.head? ≠ some '"' :=
  fun head => absurd (mem_of_endsPrimary ends head) (by decide)

theorem endsNumber_of_endsOperand (ends : rest.head?.all endsOperand = true) :
    endsNumber alphabet rest := by
  have marks : [' ', ')', ',', ']'] ⊆ punctuation := by decide
  intro c head
  have listed : c ∈ [' ', ')', ',', ']'] := by
    rw [head] at ends
    exact of_decide_eq_true ends
  refine ⟨not_isWordChar_of_mem (marks listed), ?_⟩
  rintro rfl
  exact absurd listed (by decide)

/-- The phrases of one category are phrases of the other, and less may follow. -/
theorem Spells.mono {follows fewer : Char → Bool} {other : Category}
    (spells : Spells alphabet follows category text tree)
    (less : ∀ c, fewer c = true → follows c = true)
    (wider : ∀ tokens, Derives category tokens tree → Derives other tokens tree) :
    Spells alphabet fewer other text tree := by
  obtain ⟨tokens, derives, reads⟩ := spells
  refine ⟨tokens, wider tokens derives, fun rest more ends => reads rest more ?_⟩
  cases rest with
  | nil => rfl
  | cons c rest => exact less c ends

/-- Operands of tight operators are operands of loose ones. -/
theorem Derives.loosen {least : Nat} (steps : Nat)
    (derives : Derives (.operation (least + steps)) tokens tree) :
    Derives (.operation least) tokens tree := by
  induction steps with
  | zero => exact derives
  | succ steps ih => exact ih (.tighter derives)

theorem Derives.toOperation (derives : Derives .unary tokens tree) {least : Nat}
    (bound : least ≤ tightest) : Derives (.operation least) tokens tree := by
  refine loosen (tightest - least) ?_
  rw [Nat.add_sub_cancel' bound]
  exact .operand derives

theorem Derives.toExpression {least : Nat} (derives : Derives (.operation least) tokens tree) :
    Derives .expression tokens tree := by
  refine .expression (.conditional (loosen least ?_))
  rwa [Nat.zero_add]

theorem Derives.unaryOperator (op : UnaryOp) (operand : Derives .unary tokens tree) :
    Derives .unary (unaryToken op :: tokens) (.unary op tree) := by
  cases sign : isSign op with
  | true => exact .sign sign operand
  | false => exact .unary (.negation sign operand)

/-- A value with members can stand behind any cast. -/
theorem Derives.toCastOperand (derives : Derives .primary tokens tree) (type : WrittenType) :
    Derives (castOperand type) tokens tree := by
  unfold castOperand
  split
  · exact .unary (.unsigned derives)
  · exact .unsigned derives

theorem level_lt_tightest (op : BinaryOp) : level op < tightest := by
  cases op <;> decide

namespace Spells

variable {value first second : String} {firstTree secondTree : Ast}

theorem toUnary (spells : Spells alphabet endsPrimary .primary text tree) :
    Spells alphabet endsOperand .unary text tree :=
  spells.mono (fun _ => endsPrimary_of_endsOperand) fun _ derives => .unary (.unsigned derives)

/-- An operand is the first operand of any operator. -/
theorem toOperation (spells : Spells alphabet endsOperand .unary text tree) (op : BinaryOp) :
    Spells alphabet endsOperand (.operation (level op)) text tree :=
  spells.mono (fun _ ends => ends)
    fun _ derives => derives.toOperation (Nat.le_of_lt (level_lt_tightest op))

theorem ofOperation {least : Nat} (spells : Spells alphabet endsOperand (.operation least) text tree) :
    Spells alphabet endsOperand .expression text tree :=
  spells.mono (fun _ ends => ends) fun _ => Derives.toExpression

theorem toExpression (spells : Spells alphabet endsOperand .unary text tree) :
    Spells alphabet endsOperand .expression text tree :=
  (spells.mono (fun _ ends => ends) fun _ => Derives.operand).ofOperation

/-! ### Values -/

theorem qualified {name : String} (qualified : isQualified alphabet name = true) :
    Spells alphabet endsPrimary .primary name (nameTree (nameParts name)) := by
  refine ⟨(namedType (nameParts name)).tokens, ?_, fun rest more ends reads =>
    reads.qualified qualified (stop_of_endsPrimary ends)⟩
  have chain : ∀ (parts : List String) {tokens : List Token} {tree : Ast},
      Derives .primary tokens tree →
        Derives .primary (tokens ++ members parts) (parts.foldl .select tree) := by
    intro parts
    induction parts with
    | nil =>
      intro tokens tree derives
      rwa [members, List.flatMap_nil, List.append_nil]
    | cons part parts ih =>
      intro tokens tree derives
      have others := ih (derives.select part)
      rwa [List.append_assoc] at others
  exact chain _ (.leaf rfl rfl : Derives .primary [.name _] _)

theorem keyword {token : Token} {word : String} (isWord : isWord alphabet word = true)
    (known : wordToken word = token) (found : leaf? token = some tree)
    (inRange : inRange token = true) :
    Spells alphabet endsPrimary .primary word tree := by
  refine ⟨[token], .leaf found inRange, fun rest more ends reads => ?_⟩
  have read := reads.word isWord (stop_of_endsPrimary ends)
  rwa [known] at read

theorem name {name : String} (identifier : isIdentifier alphabet name = true) :
    Spells alphabet endsPrimary .primary name (.name name) := by
  obtain ⟨isWord, token⟩ := wordToken_of_isIdentifier identifier
  exact keyword isWord token rfl rfl

theorem select (target : Spells alphabet endsPrimary .primary value tree) {name : String}
    (identifier : isIdentifier alphabet name = true) :
    Spells alphabet endsPrimary .primary (value ++ "." ++ name) (.select tree name) := by
  obtain ⟨tokens, derives, reads⟩ := target
  refine ⟨tokens ++ [.dot, .name name], derives.select name, fun rest more ends read => ?_⟩
  have member := read.member identifier (stop_of_endsPrimary ends)
  simpa using reads _ _ rfl member

/-- A text between parentheses can be followed by anything. -/
theorem parens {follows : Char → Bool} (inner : Spells alphabet endsOperand .expression text tree) :
    Spells alphabet follows .primary ("(" ++ text ++ ")") tree := by
  obtain ⟨tokens, derives, reads⟩ := inner
  refine ⟨.opening :: tokens ++ [.closing], .parens derives, fun rest more _ read => ?_⟩
  have inside : Reads alphabet (text.toList ++ ')' :: rest) (tokens ++ .closing :: more) :=
    reads _ _ rfl (.mark rfl read)
  have opened : Reads alphabet ('(' :: (text.toList ++ ')' :: rest))
      (.opening :: (tokens ++ .closing :: more)) :=
    .mark rfl inside
  simpa using opened

/-- Arguments up to the parenthesis that closes them. -/
theorem arguments {args : List (String × Ast)}
    (each : ∀ arg ∈ args, Spells alphabet endsOperand .expression arg.1 arg.2) :
    ∃ phrases : List (List Token × Ast), phrases.map Prod.snd = args.map Prod.snd ∧
      (∀ phrase ∈ phrases, Derives .expression phrase.1 phrase.2) ∧
      ∀ rest more, Reads alphabet rest more →
        Reads alphabet ((", ".intercalate (args.map Prod.fst)).toList ++ ')' :: rest)
          (separated (phrases.map Prod.fst) ++ .closing :: more) := by
  induction args with
  | nil =>
    exact ⟨[], rfl, by simp, fun rest more read => by simpa [separated] using Reads.mark rfl read⟩
  | cons arg args ih =>
    obtain ⟨tokens, derives, reads⟩ := each arg List.mem_cons_self
    obtain ⟨phrases, trees, all, others⟩ :=
      ih fun other mem => each other (List.mem_cons_of_mem arg mem)
    refine ⟨(tokens, arg.2) :: phrases, by simp [trees], List.forall_mem_cons.mpr ⟨derives, all⟩, ?_⟩
    intro rest more read
    cases args with
    | nil =>
      obtain rfl : phrases = [] := by simpa using trees
      have single := reads _ _ rfl (Reads.mark (c := ')') rfl read)
      simpa [separated] using single
    | cons next args =>
      obtain ⟨phrase, phrases, rfl⟩ : ∃ phrase more, phrases = phrase :: more :=
        List.exists_cons_of_ne_nil (by rintro rfl; simp at trees)
      have behind := Reads.mark (c := ',') rfl (others rest more read).space
      have joined := reads _ _ rfl behind
      simpa [separated] using joined

theorem invoke (target : Spells alphabet endsPrimary .primary value tree) {method : String}
    (identifier : isIdentifier alphabet method = true) {args : List (String × Ast)}
    (each : ∀ arg ∈ args, Spells alphabet endsOperand .expression arg.1 arg.2) {follows : Char → Bool} :
    Spells alphabet follows .primary
      (value ++ "." ++ method ++ "(" ++ ", ".intercalate (args.map Prod.fst) ++ ")")
      (.invoke tree method (args.map Prod.snd)) := by
  obtain ⟨tokens, derives, reads⟩ := target
  obtain ⟨phrases, trees, all, inside⟩ := arguments each
  refine ⟨_, trees ▸ derives.invoke method all, fun rest more _ read => ?_⟩
  have opened := Reads.mark (c := '(') rfl (inside rest more read)
  have member := opened.member identifier (stop_mark '(' (by decide) _)
  simpa using reads _ _ rfl member

theorem create {type : JavaType} (spelled : isSpelled alphabet type = true)
    (named : (written type).isNamed = true) {args : List (String × Ast)}
    (each : ∀ arg ∈ args, Spells alphabet endsOperand .expression arg.1 arg.2) {follows : Char → Bool} :
    Spells alphabet follows .primary
      ("new " ++ type.source ++ "(" ++ ", ".intercalate (args.map Prod.fst) ++ ")")
      (.create (written type) (args.map Prod.snd)) := by
  obtain ⟨phrases, trees, all, inside⟩ := arguments each
  refine ⟨_, trees ▸ Derives.create named all, fun rest more _ read => ?_⟩
  have opened := Reads.mark (c := '(') rfl (inside rest more read)
  have typed := opened.type spelled (stop_mark '(' (by decide) _)
  have created : Reads alphabet ("new".toList ++ ' ' :: _) (.new :: _) :=
    typed.space.word rfl (stop_mark ' ' (by decide) _)
  simpa using created

theorem createArray {component : JavaType} (spelled : isSpelled alphabet component = true)
    (size : Spells alphabet endsOperand .expression text tree) {follows : Char → Bool} :
    Spells alphabet follows .primary
      ("new " ++ component.dimensions.1.source ++ "[" ++ text ++ "]" ++
        String.join (List.replicate component.dimensions.2 "[]"))
      (.createArray (written component) tree) := by
  obtain ⟨tokens, derives, reads⟩ := size
  refine ⟨_, Derives.createArray (written component) derives, fun rest more _ read => ?_⟩
  have closed : Reads alphabet (']' :: _) (.closeBracket :: _) := .mark rfl (read.brackets component)
  have opened : Reads alphabet ('[' :: _) (.openBracket :: _) := .mark rfl (reads _ _ rfl closed)
  have typed := opened.type ((isSpelled_dimensions component).trans spelled)
    (stop_mark '[' (by decide) _)
  have created : Reads alphabet ("new".toList ++ ' ' :: _) (.new :: _) :=
    typed.space.word rfl (stop_mark ' ' (by decide) _)
  rw [written_dimensions] at created
  simpa using created

theorem classOf {type : JavaType} (spelled : isSpelled alphabet type = true) :
    Spells alphabet endsPrimary .primary (type.source ++ ".class") (.classOf (written type)) := by
  refine ⟨_, Derives.classOf (written type), fun rest more ends read => ?_⟩
  have word : Reads alphabet ("class".toList ++ rest) (.classWord :: more) :=
    read.word rfl (stop_of_endsPrimary ends)
  have dot : Reads alphabet ('.' :: ("class".toList ++ rest)) (.dot :: .classWord :: more) :=
    .dot rfl word
  have typed := dot.type spelled (stop_mark '.' (by decide) _)
  simpa using typed

/-! ### Literals -/

theorem str (content : String) :
    Spells alphabet endsPrimary .primary (Literal.ofString content) (.str content) := by
  refine ⟨[.str content], .leaf rfl rfl, fun rest more ends read => ?_⟩
  have quoted : Reads alphabet (Text.quoted '"' content.toList ++ rest) _ :=
    read.str (head?_ne_of_endsPrimary ends)
  rw [String.ofList_toList] at quoted
  simpa [Literal.ofString] using quoted

theorem char {c : Char} (small : c.toNat ≤ 0xffff) :
    Spells alphabet endsPrimary .primary (String.ofList (Text.quoted '\'' [c])) (.char c) := by
  refine ⟨[.char c], .leaf rfl rfl, fun rest more ends read => ?_⟩
  simpa using Reads.char small read

/-- A whole number of one of the two widths, down to the one that stands behind a minus only. -/
theorem whole (token : Nat → Token) (leaf : Nat → Ast) (suffix : String) (limit : Nat)
    (found : ∀ n, leaf? (token n) = some (leaf n)) (inside : ∀ n < limit, inRange (token n) = true)
    (beyond : isBeyond (token limit) = true)
    (reads : ∀ n rest more, rest.head?.all endsOperand = true → Reads alphabet rest more →
      Reads alphabet ((toString n).toList ++ (suffix.toList ++ rest)) (token n :: more))
    (value : Int) (range : -limit ≤ value ∧ value < limit) :
    Spells alphabet endsOperand .unary (toString value ++ suffix) (signed leaf value) := by
  by_cases negative : value < 0
  · obtain ⟨n, rfl⟩ := Int.eq_negSucc_of_lt_zero negative
    refine ⟨[.op .sub, token (n + 1)], ?_, fun rest more ends read => ?_⟩
    · rw [signed, if_pos negative]
      by_cases small : n + 1 < limit
      · exact Derives.sign (rfl : isSign .neg = true)
          (.unary (.unsigned (.leaf (found _) (inside _ small))))
      · obtain rfl : n + 1 = limit := by omega
        exact .least beyond (found _)
    · obtain ⟨first, others, digits⟩ := List.exists_cons_of_ne_nil (toString_ne_nil (n + 1))
      have digit : first.isDigit = true := all_digits (n + 1) first (digits ▸ List.mem_cons_self)
      have text : (toString (Int.negSucc n) ++ suffix).toList ++ rest =
          '-' :: ((toString (n + 1)).toList ++ (suffix.toList ++ rest)) := by
        show ("-" ++ toString (n + 1) ++ suffix).toList ++ rest = _
        rw [String.toList_append, String.toList_append, List.append_assoc, List.append_assoc]
        rfl
      have magnitude := reads (n + 1) rest more ends read
      rw [text]
      rw [digits] at magnitude ⊢
      exact .minus digit magnitude
  · obtain ⟨n, rfl⟩ := Int.eq_ofNat_of_zero_le (Int.not_lt.mp negative)
    refine ⟨[token n], ?_, fun rest more ends read => ?_⟩
    · rw [signed, if_neg negative]
      exact .unary (.unsigned (.leaf (found n) (inside n (by omega))))
    · have magnitude := reads n rest more ends read
      rw [String.toList_append, List.append_assoc]
      exact magnitude

/-! ### Operations -/

/-- An operator in front of parentheses. -/
theorem unary (op : UnaryOp) (inner : Spells alphabet endsOperand .expression text tree)
    {follows : Char → Bool} :
    Spells alphabet follows .unary (op.symbol ++ "(" ++ text ++ ")") (.unary op tree) := by
  obtain ⟨tokens, derives, reads⟩ := inner
  refine ⟨_, Derives.unaryOperator op (.unary (.unsigned (.parens derives))),
    fun rest more _ read => ?_⟩
  have closed : Reads alphabet (')' :: rest) (.closing :: more) := .mark rfl read
  have opened : Reads alphabet ('(' :: _) (.opening :: _) := .mark rfl (reads _ _ rfl closed)
  simpa using opened.unaryOperator op

theorem cast {type : JavaType} (spelled : isSpelled alphabet type = true) {operand : Category}
    (wider : ∀ tokens, Derives operand tokens tree → Derives (castOperand (written type)) tokens tree)
    (value : Spells alphabet endsOperand operand text tree) :
    Spells alphabet endsOperand .unary ("(" ++ type.source ++ ")" ++ text)
      (.cast (written type) tree) := by
  obtain ⟨tokens, derives, reads⟩ := value
  refine ⟨_, .unary (.cast (written type) (wider tokens derives)), fun rest more ends read => ?_⟩
  have closed : Reads alphabet (')' :: _) (.closing :: _) := .mark rfl (reads rest more ends read)
  have typed := closed.type spelled (stop_mark ')' (by decide) _)
  have opened : Reads alphabet ('(' :: _) (.opening :: _) := .mark rfl typed
  simpa using opened

/-- Two operands with an operator between them. -/
theorem binary (op : BinaryOp)
    (left : Spells alphabet endsOperand (.operation (level op)) first firstTree)
    (right : Spells alphabet endsOperand .unary second secondTree) :
    Spells alphabet endsOperand (.operation (level op)) (first ++ " " ++ op.symbol ++ " " ++ second)
      (.binary op firstTree secondTree) := by
  obtain ⟨leftTokens, leftDerives, leftReads⟩ := left
  obtain ⟨rightTokens, rightDerives, rightReads⟩ := right
  refine ⟨_, .binary op leftDerives (rightDerives.toOperation (level_lt_tightest op)), ?_⟩
  intro rest more ends read
  have behind := (rightReads rest more ends read).operator op
  have joined := leftReads _ _ rfl behind.space
  simpa using joined

theorem instanceOf (value : Spells alphabet endsOperand .unary text tree) {type : JavaType}
    (spelled : isSpelled alphabet type = true) :
    Spells alphabet endsOperand .expression (text ++ " instanceof " ++ type.source)
      (.instanceOf tree (written type)) := by
  obtain ⟨tokens, derives, reads⟩ := value
  refine ⟨_, (Derives.instanceOf (derives.toOperation (by decide)) (written type)).toExpression, ?_⟩
  intro rest more ends read
  have typed := read.type spelled (head?_any_of_endsNumber (endsNumber_of_endsOperand ends)).1
  have word : Reads alphabet ("instanceof".toList ++ ' ' :: _) (.instanceOf :: _) :=
    typed.space.word rfl (stop_mark ' ' (by decide) _)
  have joined := reads _ _ rfl word.space
  simpa using joined

theorem cond {third : String} {thirdTree : Ast}
    (test : Spells alphabet endsOperand .unary first firstTree)
    (yes : Spells alphabet endsOperand .unary second secondTree)
    (no : Spells alphabet endsOperand .unary third thirdTree) :
    Spells alphabet endsOperand .expression (first ++ " ? " ++ second ++ " : " ++ third)
      (.cond firstTree secondTree thirdTree) := by
  obtain ⟨testTokens, testDerives, testReads⟩ := test
  obtain ⟨yesTokens, yesDerives, yesReads⟩ := yes
  obtain ⟨noTokens, noDerives, noReads⟩ := no
  refine ⟨_, .expression (.cond (testDerives.toOperation (Nat.zero_le _))
    (yesDerives.toOperation (Nat.zero_le _)).toExpression
    (.conditional (noDerives.toOperation (Nat.zero_le _)))), ?_⟩
  intro rest more ends read
  have colon : Reads alphabet (':' :: ' ' :: _) (.colon :: _) :=
    .spacedMark rfl (noReads rest more ends read)
  have question : Reads alphabet ('?' :: ' ' :: _) (.question :: _) :=
    .spacedMark rfl (yesReads _ _ rfl colon.space)
  have joined := testReads _ _ rfl question.space
  simpa using joined

theorem assign {name : String} (identifier : isIdentifier alphabet name = true)
    (value : Spells alphabet endsOperand .expression text tree) :
    Spells alphabet endsOperand .expression (name ++ " = " ++ text) (.assign (.name name) tree) := by
  obtain ⟨tokens, derives, reads⟩ := value
  refine ⟨_, .assign name derives, fun rest more ends read => ?_⟩
  have behind : Reads alphabet ('=' :: ' ' :: _) (.assign :: _) :=
    .spacedMark rfl (reads rest more ends read)
  have named := behind.space.name identifier (stop_mark ' ' (by decide) _)
  simpa using named

end Spells

end JavaBackend.Java
