import JavaBackend.Source.Tree

/-!
# Which trees are expressions

Java takes only some constructs in the place of an expression. `Tree.isExpression` says which trees
can be written as a single expression, given the names that are variables already: an assignment
to any other name declares it, and that takes a statement. The subtrees are looked at in order, up
to the first that is no expression.
-/

namespace JavaBackend

mutual

/-- Whether the tree can be written as a single Java expression. -/
def Tree.isExpression (isLocal : String → Bool) : Tree → Bool
  | .node kind _ => kind.isExpression isLocal

/-- Whether a node over these subtrees can be written as a single Java expression. -/
def Kind.isExpression (isLocal : String → Bool) : Kind Tree → Bool
  | .literal _ | .self | .var _ | .field _ _ => true
  | .assign name value => isLocal name && value.isExpression isLocal
  | .call receiver _ args returns =>
    !returns.isVoid && receiver.isExpression isLocal && areExpressions isLocal args
  | .new _ args => areExpressions isLocal args
  | .binary _ left right => left.isExpression isLocal && right.isExpression isLocal
  | .unary _ operand => operand.isExpression isLocal
  | .isNull value => value.isExpression isLocal
  | .instanceOf value _ => value.isExpression isLocal
  | .cast _ value => value.isExpression isLocal
  | .concat parts => areExpressions isLocal parts
  | .newArray _ size => size.isExpression isLocal
  | .cond test yes no =>
    test.isExpression isLocal && isExpressionIfAny isLocal yes && isExpressionIfAny isLocal no
  | .setField _ _ _ | .seq _ | .loop _ | .forEach _ | .jump _ | .ret _ | .raise _ | .rescue _ _ _
  | .ensure _ _ | .print _ _ => false

def Receiver.isExpression (isLocal : String → Bool) : Receiver Tree → Bool
  | .implicit | .named _ => true
  | .value target => target.isExpression isLocal

/-- Whether all of the trees are expressions. -/
def areExpressions (isLocal : String → Bool) : List Tree → Bool
  | [] => true
  | tree :: rest => tree.isExpression isLocal && areExpressions isLocal rest

/-- Whether a tree is an expression or missing. -/
def isExpressionIfAny (isLocal : String → Bool) : Option Tree → Bool
  | none => true
  | some tree => tree.isExpression isLocal

end

theorem areExpressions_eq (isLocal : String → Bool) (trees : List Tree) :
    areExpressions isLocal trees = trees.all (·.isExpression isLocal) := by
  induction trees with
  | nil => rfl
  | cons tree rest ih => rw [areExpressions, ih, List.all_cons]

theorem isExpressionIfAny_eq (isLocal : String → Bool) (tree : Option Tree) :
    isExpressionIfAny isLocal tree = tree.all (·.isExpression isLocal) := by
  cases tree <;> rfl

namespace Kind

variable {α β : Type}

/-- Whether a node asks the loop around it to run the body again, given which of its children do. A
    loop answers for its own body. -/
def hasRedo (childHas : α → Bool) : Kind α → Bool
  | .jump .redo => true
  | .loop _ | .forEach _ => false
  | kind => kind.children.any childHas

theorem hasRedo_map (f : α → β) (childHas : β → Bool) (kind : Kind α) :
    (kind.map f).hasRedo childHas = kind.hasRedo (childHas ∘ f) := by
  cases kind with
  | jump action => cases action <;> rfl
  | loop _ | forEach _ => rfl
  | _ => exact (congrArg (List.any · childHas) (children_map f _)).trans List.any_map

/-- Whether a node combines the values of its operands. Such a node stays an expression even if its
    operands need statements: those run first, into variables. -/
def combinesOperands : Kind α → Bool
  | .binary op _ _ => !op.isLogical
  | .call _ _ _ returns => !returns.isVoid
  | .unary _ _ | .isNull _ | .instanceOf _ _ | .cast _ _ | .concat _ | .newArray _ _
  | .new _ _ => true
  | _ => false

end Kind

namespace Tree

/-- Whether the tree has a `redo` of the loop around it. -/
def hasRedo : Tree → Bool :=
  para fun kind _ => kind.hasRedo (·.result.get)

theorem hasRedo_node (kind : Kind Tree) (type : JavaType) :
    (Tree.node kind type).hasRedo = kind.hasRedo hasRedo := by
  rw [hasRedo, para_node, Kind.hasRedo_map]
  rfl

end Tree

end JavaBackend
