import JavaBackend.Proofs.Grammar.Tokens

/-!
# The grammar of Java expressions

`Derives category tokens tree` says that the tokens are a phrase of the category and that the tree is
what they mean. The categories and the rules are those of the Java language, for the expressions
without array access, lambdas, increments, compound assignments and type arguments. The trees have no
parentheses: those have done their work once a phrase is read.
-/

namespace JavaBackend.Java

/-! ## Trees -/

/-- A type as it is written. -/
inductive WrittenType where
  | primitive (type : JavaType)
  /-- A class or interface: identifiers between which dots stand. -/
  | named (first : String) (more : List String)
  | array (component : WrittenType)
  deriving DecidableEq, Repr

/-- Identifiers with a dot in front of each. -/
def members (parts : List String) : List Token := parts.flatMap fun part => [.dot, .name part]

namespace WrittenType

def isPrimitive : WrittenType → Bool
  | .primitive _ => true
  | _ => false

def isNamed : WrittenType → Bool
  | .named _ _ => true
  | _ => false

/-- The type under all dimensions of an array. -/
def element : WrittenType → WrittenType
  | .array component => component.element
  | type => type

/-- The brackets of all dimensions of an array. -/
def brackets : WrittenType → List Token
  | .array component => component.brackets ++ [.openBracket, .closeBracket]
  | _ => []

def tokens : WrittenType → List Token
  | .primitive type => [.primitive type]
  | .named first more => .name first :: members more
  | .array component => component.tokens ++ [.openBracket, .closeBracket]

end WrittenType

/-- An expression as it is read. -/
inductive Ast where
  | int (value : Nat)
  | long (value : Nat)
  | double (value : Rat)
  | char (value : Char)
  | str (value : String)
  | bool (value : Bool)
  | null
  | this
  | name (text : String)
  | select (target : Ast) (name : String)
  | classOf (type : WrittenType)
  | invoke (target : Ast) (method : String) (args : List Ast)
  | create (type : WrittenType) (args : List Ast)
  /-- A new array, given the type and the number of its elements. -/
  | createArray (component : WrittenType) (size : Ast)
  | unary (op : UnaryOp) (operand : Ast)
  | binary (op : BinaryOp) (left right : Ast)
  | instanceOf (value : Ast) (type : WrittenType)
  | cast (type : WrittenType) (value : Ast)
  | assign (target value : Ast)
  | cond (test yes no : Ast)

/-! ## Rules -/

/-- How tightly an operator binds. Operators of one level associate to the left. -/
def level : BinaryOp → Nat
  | .or => 0
  | .and => 1
  | .bitOr => 2
  | .bitXor => 3
  | .bitAnd => 4
  | .eq | .ne => 5
  | .lt | .le | .ge | .gt => 6
  | .shl | .shr | .ushr => 7
  | .add | .sub => 8
  | .mul | .div | .rem => 9

/-- The level of `instanceof`, which is that of the comparisons. -/
def relational : Nat := 6

/-- The level of the operands of all operators. -/
def tightest : Nat := 10

/-- The signs. They do not stand right behind a cast to a reference type. -/
def isSign : UnaryOp → Bool
  | .neg | .plus => true
  | .not | .bitNot => false

/-- The tokens that stand for a value alone. -/
def leaf? : Token → Option Ast
  | .int value => some (.int value)
  | .long value => some (.long value)
  | .double value => some (.double value)
  | .char value => some (.char value)
  | .str value => some (.str value)
  | .bool value => some (.bool value)
  | .null => some .null
  | .this => some .this
  | .name text => some (.name text)
  | _ => none

/-- The numbers one beyond the largest ones of their types: they stand behind a minus only. -/
def isBeyond : Token → Bool
  | .int value => value == 2147483648
  | .long value => value == 9223372036854775808
  | _ => false

/-- The literals that are in range without a minus. -/
def inRange : Token → Bool
  | .int value => value < 2147483648
  | .long value => value < 9223372036854775808
  | _ => true

/-- The kinds of phrases. -/
inductive Category where
  /-- What a member can be selected from. -/
  | primary
  /-- An operand without a sign in front. -/
  | unsigned
  | unary
  /-- Operations at least as tight as the level. -/
  | operation (level : Nat)
  | conditional
  | expression
  deriving DecidableEq, Repr

/-- What a cast to the type can stand in front of. -/
def castOperand (type : WrittenType) : Category := if type.isPrimitive then .unary else .unsigned

/-- Phrases with commas between them. -/
def separated : List (List Token) → List Token
  | [] => []
  | [phrase] => phrase
  | phrase :: next :: more => phrase ++ .comma :: separated (next :: more)

inductive Derives : Category → List Token → Ast → Prop where
  | leaf {token : Token} {tree : Ast} (found : leaf? token = some tree)
      (inRange : inRange token = true) :
    Derives .primary [token] tree
  | parens {tokens : List Token} {tree : Ast} (inner : Derives .expression tokens tree) :
    Derives .primary (.opening :: tokens ++ [.closing]) tree
  | select {tokens : List Token} {tree : Ast} (target : Derives .primary tokens tree) (name : String) :
    Derives .primary (tokens ++ [.dot, .name name]) (.select tree name)
  | invoke {tokens : List Token} {tree : Ast} (target : Derives .primary tokens tree) (method : String)
      {args : List (List Token × Ast)} (each : ∀ arg ∈ args, Derives .expression arg.1 arg.2) :
    Derives .primary
      (tokens ++ [.dot, .name method, .opening] ++ separated (args.map Prod.fst) ++ [.closing])
      (.invoke tree method (args.map Prod.snd))
  | classOf (type : WrittenType) : Derives .primary (type.tokens ++ [.dot, .classWord]) (.classOf type)
  | create {type : WrittenType} (named : type.isNamed = true) {args : List (List Token × Ast)}
      (each : ∀ arg ∈ args, Derives .expression arg.1 arg.2) :
    Derives .primary
      (.new :: type.tokens ++ [.opening] ++ separated (args.map Prod.fst) ++ [.closing])
      (.create type (args.map Prod.snd))
  | createArray (component : WrittenType) {tokens : List Token} {tree : Ast}
      (size : Derives .expression tokens tree) :
    Derives .primary
      (.new :: component.element.tokens ++ [.openBracket] ++ tokens ++ [.closeBracket] ++
        component.brackets)
      (.createArray component tree)
  | unsigned {tokens : List Token} {tree : Ast} (primary : Derives .primary tokens tree) :
    Derives .unsigned tokens tree
  | negation {op : UnaryOp} (unsigned : isSign op = false) {tokens : List Token} {tree : Ast}
      (operand : Derives .unary tokens tree) :
    Derives .unsigned (unaryToken op :: tokens) (.unary op tree)
  | cast (type : WrittenType) {tokens : List Token} {tree : Ast}
      (operand : Derives (castOperand type) tokens tree) :
    Derives .unsigned (.opening :: type.tokens ++ [.closing] ++ tokens) (.cast type tree)
  | unary {tokens : List Token} {tree : Ast} (operand : Derives .unsigned tokens tree) :
    Derives .unary tokens tree
  | sign {op : UnaryOp} (sign : isSign op = true) {tokens : List Token} {tree : Ast}
      (operand : Derives .unary tokens tree) :
    Derives .unary (unaryToken op :: tokens) (.unary op tree)
  | least {token : Token} {tree : Ast} (beyond : isBeyond token = true)
      (found : leaf? token = some tree) :
    Derives .unary [.op .sub, token] (.unary .neg tree)
  | operand {tokens : List Token} {tree : Ast} (operand : Derives .unary tokens tree) :
    Derives (.operation tightest) tokens tree
  | tighter {least : Nat} {tokens : List Token} {tree : Ast}
      (operand : Derives (.operation (least + 1)) tokens tree) :
    Derives (.operation least) tokens tree
  | binary (op : BinaryOp) {left right : List Token} {leftTree rightTree : Ast}
      (first : Derives (.operation (level op)) left leftTree)
      (second : Derives (.operation (level op + 1)) right rightTree) :
    Derives (.operation (level op)) (left ++ .op op :: right) (.binary op leftTree rightTree)
  /-- Any type may be written here, a primitive one, too, of which no value can be asked that. -/
  | instanceOf {tokens : List Token} {tree : Ast} (value : Derives (.operation relational) tokens tree)
      (type : WrittenType) :
    Derives (.operation relational) (tokens ++ .instanceOf :: type.tokens) (.instanceOf tree type)
  | conditional {tokens : List Token} {tree : Ast} (operation : Derives (.operation 0) tokens tree) :
    Derives .conditional tokens tree
  | cond {test yes no : List Token} {testTree yesTree noTree : Ast}
      (first : Derives (.operation 0) test testTree) (second : Derives .expression yes yesTree)
      (third : Derives .conditional no noTree) :
    Derives .conditional (test ++ .question :: yes ++ .colon :: no) (.cond testTree yesTree noTree)
  | expression {tokens : List Token} {tree : Ast} (conditional : Derives .conditional tokens tree) :
    Derives .expression tokens tree
  | assign (name : String) {tokens : List Token} {tree : Ast}
      (value : Derives .expression tokens tree) :
    Derives .expression (.name name :: .assign :: tokens) (.assign (.name name) tree)
  | assignField {target tokens : List Token} {targetTree tree : Ast}
      (primary : Derives .primary target targetTree) (name : String)
      (value : Derives .expression tokens tree) :
    Derives .expression (target ++ [.dot, .name name] ++ .assign :: tokens)
      (.assign (.select targetTree name) tree)

end JavaBackend.Java
