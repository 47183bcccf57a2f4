import JavaBackend.Source.Kind

/-!
# Trees

A source program as a tree: each node has a kind over its subtrees and the type of its value. The
general recursion over trees is `Tree.para`: the result of a node from the results of its children.
Its equation `Tree.para_node` says so, and `Tree.induction` is the matching proof principle: what
holds of a node once it holds of its children holds of every tree.

A subtree can hang from many nodes, so that a small store of nodes stands for a very large tree. The
result of a child is therefore computed only when it is asked for: the work is that for the nodes
whose results are used.
-/

namespace JavaBackend

/-- A typed program tree. -/
inductive Tree where
  | node (kind : Kind Tree) (type : JavaType)

/-- A subtree with the result that recursion gives for it. -/
structure Tree.Child (β : Type) where
  tree : Tree
  result : Thunk β

namespace Tree

variable {β : Type}

/-- What the root of the tree is. -/
def kind : Tree → Kind Tree
  | .node kind _ => kind

/-- The type of the tree's value. -/
def type : Tree → JavaType
  | .node _ type => type

mutual

/-- Recursion over a tree: `step` gives the result of a node from its children, each with its own
    result, and the node's type. -/
def para (step : Kind (Child β) → JavaType → β) : Tree → β
  | .node kind type => step (paraKind step kind) type

def paraKind (step : Kind (Child β) → JavaType → β) : Kind Tree → Kind (Child β)
  | .literal value => .literal value
  | .self => .self
  | .var name => .var name
  | .assign name value => .assign name ⟨value, para step value⟩
  | .field name isStatic => .field name isStatic
  | .setField name value isStatic => .setField name ⟨value, para step value⟩ isStatic
  | .call receiver method args returns =>
    .call (paraReceiver step receiver) method (paraList step args) returns
  | .new type args => .new type (paraList step args)
  | .binary op left right => .binary op ⟨left, para step left⟩ ⟨right, para step right⟩
  | .unary op operand => .unary op ⟨operand, para step operand⟩
  | .isNull value => .isNull ⟨value, para step value⟩
  | .instanceOf value type => .instanceOf ⟨value, para step value⟩ type
  | .cast type value => .cast type ⟨value, para step value⟩
  | .concat parts => .concat (paraList step parts)
  | .newArray component size => .newArray component ⟨size, para step size⟩
  | .cond test yes no =>
    .cond ⟨test, para step test⟩ (paraOption step yes) (paraOption step no)
  | .seq nodes => .seq (paraList step nodes)
  | .loop spec => .loop (paraLoop step spec)
  | .forEach spec => .forEach (paraForEach step spec)
  | .jump action => .jump action
  | .ret value => .ret (paraOption step value)
  | .raise value => .raise ⟨value, para step value⟩
  | .rescue body clauses otherwise =>
    .rescue (paraOption step body) (paraClauses step clauses) (paraOption step otherwise)
  | .ensure body cleanup => .ensure ⟨body, para step body⟩ ⟨cleanup, para step cleanup⟩
  | .print value newline => .print (paraOption step value) newline

def paraReceiver (step : Kind (Child β) → JavaType → β) : Receiver Tree → Receiver (Child β)
  | .implicit => .implicit
  | .named type => .named type
  | .value target => .value ⟨target, para step target⟩

def paraLoop (step : Kind (Child β) → JavaType → β) : Loop Tree → Loop (Child β)
  | ⟨cond, checkFirst, negative, body, redo, init, pre, post⟩ =>
    ⟨⟨cond, para step cond⟩, checkFirst, negative, paraOption step body, redo,
      paraOption step init, paraOption step pre, paraOption step post⟩

def paraForEach (step : Kind (Child β) → JavaType → β) : ForEach Tree → ForEach (Child β)
  | ⟨var, iterable, body, redo⟩ =>
    ⟨var, ⟨iterable, para step iterable⟩, paraOption step body, redo⟩

def paraClause (step : Kind (Child β) → JavaType → β) : RescueClause Tree → RescueClause (Child β)
  | ⟨types, name, body⟩ => ⟨types, name, paraOption step body⟩

def paraOption (step : Kind (Child β) → JavaType → β) : Option Tree → Option (Child β)
  | none => none
  | some tree => some ⟨tree, para step tree⟩

def paraList (step : Kind (Child β) → JavaType → β) : List Tree → List (Child β)
  | [] => []
  | tree :: rest => ⟨tree, para step tree⟩ :: paraList step rest

def paraClauses (step : Kind (Child β) → JavaType → β) :
    List (RescueClause Tree) → List (RescueClause (Child β))
  | [] => []
  | clause :: rest => paraClause step clause :: paraClauses step rest

end

/-- A tree with its result. -/
def child (step : Kind (Child β) → JavaType → β) (tree : Tree) : Child β :=
  ⟨tree, Thunk.mk fun _ => para step tree⟩

theorem paraOption_eq (step : Kind (Child β) → JavaType → β) (tree : Option Tree) :
    paraOption step tree = tree.map (child step) := by
  cases tree <;> rfl

theorem paraList_eq (step : Kind (Child β) → JavaType → β) (trees : List Tree) :
    paraList step trees = trees.map (child step) := by
  induction trees with
  | nil => rfl
  | cons tree rest ih => rw [paraList, ih, List.map_cons]; rfl

theorem paraClauses_eq (step : Kind (Child β) → JavaType → β)
    (clauses : List (RescueClause Tree)) :
    paraClauses step clauses = clauses.map (RescueClause.map (child step)) := by
  induction clauses with
  | nil => rfl
  | cons clause rest ih =>
    cases clause
    simp only [paraClauses, paraClause, paraOption_eq, ih, List.map_cons, RescueClause.map]

theorem paraKind_eq (step : Kind (Child β) → JavaType → β) (kind : Kind Tree) :
    paraKind step kind = kind.map (child step) := by
  cases kind with
  | call receiver method args returns =>
    cases receiver <;>
      simp only [paraKind, Kind.map, paraReceiver, Receiver.map, paraList_eq, child]
  | loop spec =>
    cases spec
    simp only [paraKind, Kind.map, paraLoop, Loop.map, paraOption_eq, child]
  | forEach spec =>
    cases spec
    simp only [paraKind, Kind.map, paraForEach, ForEach.map, paraOption_eq, child]
  | _ =>
    simp only [paraKind, Kind.map, paraOption_eq, paraList_eq, paraClauses_eq, child]

/-- The result of a node is one step from the results of its children. -/
theorem para_node (step : Kind (Child β) → JavaType → β) (kind : Kind Tree) (type : JavaType) :
    para step (.node kind type) = step (kind.map (child step)) type := by
  rw [para, paraKind_eq]

/-! ## Induction -/

theorem sizeOf_lt_of_mem_toList {tree : Tree} {maybe : Option Tree} (mem : tree ∈ maybe.toList) :
    sizeOf tree < sizeOf maybe := by
  rw [Option.mem_toList] at mem
  rw [Option.mem_def.mp mem, Option.some.sizeOf_spec]
  omega

theorem sizeOf_lt_of_mem_bodies {tree : Tree} {clauses : List (RescueClause Tree)}
    (mem : tree ∈ clauses.filterMap RescueClause.body) : sizeOf tree < sizeOf clauses := by
  obtain ⟨clause, clauseMem, bodyEq⟩ := List.mem_filterMap.mp mem
  have clauseLt := List.sizeOf_lt_of_mem clauseMem
  have treeLt : sizeOf tree < sizeOf clause := by
    cases clause with
    | mk types name body =>
      cases bodyEq
      simp only [RescueClause.mk.sizeOf_spec, Option.some.sizeOf_spec]
      omega
  omega

/-- A child is smaller than its node. -/
theorem sizeOf_lt_of_mem_children {kind : Kind Tree} {tree : Tree}
    (mem : tree ∈ kind.children) : sizeOf tree < sizeOf kind := by
  cases kind with
  | literal _ | self | var _ | field _ _ | jump _ => simp [Kind.children] at mem
  | assign _ _ | setField _ _ _ | unary _ _ | isNull _ | instanceOf _ _ | cast _ _ | newArray _ _
  | raise _ =>
    cases List.mem_singleton.mp mem
    simp only [Kind.assign.sizeOf_spec, Kind.setField.sizeOf_spec, Kind.unary.sizeOf_spec,
      Kind.isNull.sizeOf_spec, Kind.instanceOf.sizeOf_spec, Kind.cast.sizeOf_spec,
      Kind.newArray.sizeOf_spec, Kind.raise.sizeOf_spec]
    omega
  | binary _ left right =>
    simp only [Kind.children, List.mem_cons, List.not_mem_nil, or_false] at mem
    rw [Kind.binary.sizeOf_spec]
    rcases mem with rfl | rfl <;> omega
  | ensure body cleanup =>
    simp only [Kind.children, List.mem_cons, List.not_mem_nil, or_false] at mem
    rw [Kind.ensure.sizeOf_spec]
    rcases mem with rfl | rfl <;> omega
  | call receiver method args returns =>
    simp only [Kind.children, List.mem_append] at mem
    rw [Kind.call.sizeOf_spec]
    rcases mem with mem | mem
    · cases receiver with
      | value target =>
        cases List.mem_singleton.mp mem
        rw [Receiver.value.sizeOf_spec]
        omega
      | implicit | named _ => simp [Receiver.toList] at mem
    · have := List.sizeOf_lt_of_mem mem
      omega
  | new _ args =>
    have : sizeOf tree < sizeOf args := List.sizeOf_lt_of_mem mem
    rw [Kind.new.sizeOf_spec]
    omega
  | concat parts =>
    have : sizeOf tree < sizeOf parts := List.sizeOf_lt_of_mem mem
    rw [Kind.concat.sizeOf_spec]
    omega
  | seq nodes =>
    have : sizeOf tree < sizeOf nodes := List.sizeOf_lt_of_mem mem
    rw [Kind.seq.sizeOf_spec]
    omega
  | cond test yes no =>
    simp only [Kind.children, List.mem_cons, List.mem_append] at mem
    rw [Kind.cond.sizeOf_spec]
    rcases mem with rfl | mem | mem
    · omega
    · have := sizeOf_lt_of_mem_toList mem
      omega
    · have := sizeOf_lt_of_mem_toList mem
      omega
  | loop spec =>
    cases spec
    simp only [Kind.children, List.mem_append, List.mem_cons] at mem
    rw [Kind.loop.sizeOf_spec, Loop.mk.sizeOf_spec]
    rcases mem with mem | rfl | (mem | mem) | mem
    · have := sizeOf_lt_of_mem_toList mem
      omega
    · omega
    · have := sizeOf_lt_of_mem_toList mem
      omega
    · have := sizeOf_lt_of_mem_toList mem
      omega
    · have := sizeOf_lt_of_mem_toList mem
      omega
  | forEach spec =>
    cases spec
    simp only [Kind.children, List.mem_cons] at mem
    rw [Kind.forEach.sizeOf_spec, ForEach.mk.sizeOf_spec]
    rcases mem with rfl | mem
    · omega
    · have := sizeOf_lt_of_mem_toList mem
      omega
  | ret value =>
    have : sizeOf tree < sizeOf value := sizeOf_lt_of_mem_toList mem
    rw [Kind.ret.sizeOf_spec]
    omega
  | print value _ =>
    have : sizeOf tree < sizeOf value := sizeOf_lt_of_mem_toList mem
    rw [Kind.print.sizeOf_spec]
    omega
  | rescue body clauses otherwise =>
    simp only [Kind.children, List.mem_append] at mem
    rw [Kind.rescue.sizeOf_spec]
    rcases mem with (mem | mem) | mem
    · have := sizeOf_lt_of_mem_toList mem
      omega
    · have := sizeOf_lt_of_mem_bodies mem
      omega
    · have := sizeOf_lt_of_mem_toList mem
      omega

/-- What holds of a node once it holds of its children holds of every tree. -/
theorem induction {motive : Tree → Prop}
    (step : ∀ kind type, (∀ tree ∈ kind.children, motive tree) → motive (.node kind type)) :
    ∀ tree, motive tree
  | .node kind type =>
    step kind type fun tree mem =>
      have := sizeOf_lt_of_mem_children mem
      induction step tree
termination_by tree => sizeOf tree
decreasing_by rw [Tree.node.sizeOf_spec]; omega

end Tree

end JavaBackend
