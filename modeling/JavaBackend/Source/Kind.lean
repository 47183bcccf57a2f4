import JavaBackend.Literal
import JavaBackend.Operator

/-!
# Kinds of nodes

What a node of the source program is, over any type `α` of children. With `α` the positions in an
arena a kind is stored flat; with `α` the trees themselves it is a node of a tree; with `α` a result
type it is what an analysis sees of a node once its children are done. `Kind.map` goes from one to
the next, and `Kind.children` lists the children in evaluation order.
-/

namespace JavaBackend

/-- Who a call is sent to. -/
inductive Receiver (α : Type) where
  /-- The current object, or the current class in static code. -/
  | implicit
  /-- A named type. -/
  | named (type : JavaType)
  /-- The value of a node. -/
  | value (target : α)
  deriving DecidableEq, Repr

/-- A loop with a condition. `init` runs once before the loop, `pre` at the start of each pass and
    `post` after the body, before the condition is tested again. -/
structure Loop (α : Type) where
  cond : α
  /-- The condition is tested before the first pass, too. -/
  checkFirst : Bool
  /-- The loop goes on while the condition is false. -/
  negative : Bool
  body : Option α
  /-- The body may ask to be run again. -/
  redo : Bool
  init : Option α
  pre : Option α
  post : Option α
  deriving DecidableEq, Repr

/-- A loop over the elements of an array or a collection. -/
structure ForEach (α : Type) where
  /-- The name that each element is bound to. -/
  var : String
  iterable : α
  body : Option α
  redo : Bool
  deriving DecidableEq, Repr

/-- The handling of some types of exceptions. -/
structure RescueClause (α : Type) where
  /-- The types that are caught. None at all means every exception. -/
  types : List JavaType
  /-- The name that the exception is bound to. -/
  name : Option String
  body : Option α
  deriving DecidableEq, Repr

/-- A jump inside a loop. -/
inductive Jump where
  /-- Leave the loop. -/
  | break
  /-- Go on with the next pass. -/
  | next
  /-- Run the body again, without testing the condition. -/
  | redo
  deriving DecidableEq, Repr

def Jump.keyword : Jump → String
  | .break => "break"
  | .next => "next"
  | .redo => "redo"

/-- What a node is. -/
inductive Kind (α : Type) where
  | literal (value : Literal)
  | self
  | var (name : String)
  | assign (name : String) (value : α)
  | field (name : String) (isStatic : Bool)
  | setField (name : String) (value : α) (isStatic : Bool)
  /-- A call. The value of a call that returns nothing is its receiver. -/
  | call (receiver : Receiver α) (method : String) (args : List α) (returns : JavaType)
  | new (type : JavaType) (args : List α)
  | binary (op : BinaryOp) (left right : α)
  | unary (op : UnaryOp) (operand : α)
  | isNull (value : α)
  | instanceOf (value : α) (type : JavaType)
  | cast (type : JavaType) (value : α)
  | concat (parts : List α)
  | newArray (component : JavaType) (size : α)
  | cond (test : α) (yes no : Option α)
  | seq (nodes : List α)
  | loop (spec : Loop α)
  | forEach (spec : ForEach α)
  | jump (action : Jump)
  | ret (value : Option α)
  | raise (value : α)
  | rescue (body : Option α) (clauses : List (RescueClause α)) (otherwise : Option α)
  | ensure (body cleanup : α)
  | print (value : Option α) (newline : Bool)
  deriving DecidableEq, Repr

variable {α β : Type}

def Receiver.map (f : α → β) : Receiver α → Receiver β
  | .implicit => .implicit
  | .named type => .named type
  | .value target => .value (f target)

/-- The receiver's node, if it has one. -/
def Receiver.toList : Receiver α → List α
  | .value target => [target]
  | _ => []

def Loop.map (f : α → β) (spec : Loop α) : Loop β where
  cond := f spec.cond
  checkFirst := spec.checkFirst
  negative := spec.negative
  body := spec.body.map f
  redo := spec.redo
  init := spec.init.map f
  pre := spec.pre.map f
  post := spec.post.map f

def ForEach.map (f : α → β) (spec : ForEach α) : ForEach β where
  var := spec.var
  iterable := f spec.iterable
  body := spec.body.map f
  redo := spec.redo

def RescueClause.map (f : α → β) (clause : RescueClause α) : RescueClause β where
  types := clause.types
  name := clause.name
  body := clause.body.map f

namespace Kind

/-- The same kind of node over other children. -/
def map (f : α → β) : Kind α → Kind β
  | .literal value => .literal value
  | .self => .self
  | .var name => .var name
  | .assign name value => .assign name (f value)
  | .field name isStatic => .field name isStatic
  | .setField name value isStatic => .setField name (f value) isStatic
  | .call receiver method args returns => .call (receiver.map f) method (args.map f) returns
  | .new type args => .new type (args.map f)
  | .binary op left right => .binary op (f left) (f right)
  | .unary op operand => .unary op (f operand)
  | .isNull value => .isNull (f value)
  | .instanceOf value type => .instanceOf (f value) type
  | .cast type value => .cast type (f value)
  | .concat parts => .concat (parts.map f)
  | .newArray component size => .newArray component (f size)
  | .cond test yes no => .cond (f test) (yes.map f) (no.map f)
  | .seq nodes => .seq (nodes.map f)
  | .loop spec => .loop (spec.map f)
  | .forEach spec => .forEach (spec.map f)
  | .jump action => .jump action
  | .ret value => .ret (value.map f)
  | .raise value => .raise (f value)
  | .rescue body clauses otherwise =>
    .rescue (body.map f) (clauses.map (RescueClause.map f)) (otherwise.map f)
  | .ensure body cleanup => .ensure (f body) (f cleanup)
  | .print value newline => .print (value.map f) newline

theorem map_map {γ : Type} (g : β → γ) (f : α → β) (kind : Kind α) :
    (kind.map f).map g = kind.map (g ∘ f) := by
  cases kind with
  | call receiver _ _ _ => cases receiver <;> simp [map, Receiver.map]
  | rescue _ clauses _ => simp [map, RescueClause.map, Function.comp_def]
  | _ => simp [map, Loop.map, ForEach.map]

/-- The children, in evaluation order. -/
def children : Kind α → List α
  | .literal _ | .self | .var _ | .field _ _ | .jump _ => []
  | .assign _ value | .setField _ value _ | .instanceOf value _ | .cast _ value => [value]
  | .unary _ operand => [operand]
  | .isNull value | .raise value => [value]
  | .newArray _ size => [size]
  | .call receiver _ args _ => receiver.toList ++ args
  | .new _ args => args
  | .binary _ left right => [left, right]
  | .concat nodes | .seq nodes => nodes
  | .cond test yes no => test :: (yes.toList ++ no.toList)
  | .loop spec =>
    spec.init.toList ++ spec.cond :: (spec.pre.toList ++ spec.body.toList ++ spec.post.toList)
  | .forEach spec => spec.iterable :: spec.body.toList
  | .ret value | .print value _ => value.toList
  | .rescue body clauses otherwise =>
    body.toList ++ clauses.filterMap RescueClause.body ++ otherwise.toList
  | .ensure body cleanup => [body, cleanup]

theorem children_map (f : α → β) (kind : Kind α) :
    (kind.map f).children = kind.children.map f := by
  cases kind with
  | call receiver _ _ _ => cases receiver <;> simp [map, children, Receiver.map, Receiver.toList]
  | cond _ yes no => cases yes <;> cases no <;> simp [map, children]
  | loop spec =>
    obtain ⟨_, _, _, body, _, init, pre, post⟩ := spec
    cases body <;> cases init <;> cases pre <;> cases post <;> simp [map, children, Loop.map]
  | forEach spec =>
    obtain ⟨_, _, body, _⟩ := spec
    cases body <;> simp [map, children, ForEach.map]
  | ret value => cases value <;> simp [map, children]
  | print value _ => cases value <;> simp [map, children]
  | rescue body clauses otherwise =>
    have bodies : (clauses.map (RescueClause.map f)).filterMap RescueClause.body =
        (clauses.filterMap RescueClause.body).map f := by
      rw [List.filterMap_map, List.map_filterMap]
      rfl
    cases body <;> cases otherwise <;> simp [map, children, bodies]
  | _ => rfl

/-- The kind's name in messages. -/
def name : Kind α → String
  | .literal .null => "null"
  | .literal (.bool _) => "bool"
  | .literal (.int _) => "int"
  | .literal (.long _) => "long"
  | .literal (.float _) => "float"
  | .literal (.double _) => "double"
  | .literal (.char _) => "char"
  | .literal (.str _) => "string"
  | .literal (.type _) => "class literal"
  | .self => "self"
  | .var _ => "local"
  | .assign _ _ => "local assignment"
  | .field _ _ => "field access"
  | .setField _ _ _ => "field assignment"
  | .call _ _ _ _ => "call"
  | .new _ _ => "new"
  | .binary _ _ _ => "binary"
  | .unary _ _ => "unary"
  | .isNull _ => "nil?"
  | .instanceOf _ _ => "instanceof"
  | .cast _ _ => "cast"
  | .concat _ => "string concat"
  | .newArray _ _ => "empty array"
  | .cond _ _ _ => "if"
  | .seq _ => "body"
  | .loop _ => "loop"
  | .forEach _ => "for-each"
  | .jump action => action.keyword
  | .ret _ => "return"
  | .raise _ => "raise"
  | .rescue _ _ _ => "rescue"
  | .ensure _ _ => "ensure"
  | .print _ _ => "print"

def isLiteral : Kind α → Bool
  | .literal _ => true
  | _ => false

end Kind

end JavaBackend
