import JavaBackend.Proofs.Meaning.Loops

/-!
# Trees whose code does what they mean

`Vocabulary.Covers` singles out the trees that have a meaning, by where in a program they stand: trees
that are there for their values have no loops and jumps outside of what runs for its effects, and a
jump stands in the body of the innermost loop around it. By induction over these trees, from the rules
of the nodes, the code of each does what the tree means.
-/

namespace JavaBackend

/-- What a tree is there for. -/
inductive Position where
  | value
  /-- The effects, in the body of a loop or elsewhere. -/
  | effects (inBody : Bool)
  deriving DecidableEq, Repr

/-- Where the nodes of a sequence before the last one stand. -/
def Position.before : Position → Position
  | .value => .effects false
  | .effects inBody => .effects inBody

/-- What trees are made of. -/
structure Vocabulary where
  /-- The variables. -/
  names : List String
  /-- Whether others may change the variable at any time. -/
  isVolatile : String → Bool
  /-- Whether there are loops. -/
  hasLoops : Bool

namespace Vocabulary

/-- The tree is made of the vocabulary and has a meaning. -/
inductive Covers (V : Vocabulary) : Position → Tree → Prop
  | literal {position : Position} {type : JavaType} (value : Literal) :
    Covers V position (.node (.literal value) type)
  | self {position : Position} {type : JavaType} : Covers V position (.node .self type)
  | var {position : Position} {type : JavaType} {name : String} (known : name ∈ V.names)
    (stable : position = .value ∨ V.isVolatile name = false) :
    Covers V position (.node (.var name) type)
  | call {position : Position} {type : JavaType} {receiver : Receiver Tree} {args : List Tree}
    (method : String) (returns : JavaType)
    (operands : ∀ tree ∈ receiver.toList ++ args, Covers V .value tree)
    (stable : position = .value → returns.isVoid = true → ∀ name type,
      receiver = .value (.node (.var name) type) → V.isVolatile name = false) :
    Covers V position (.node (.call receiver method args returns) type)
  | binary {position : Position} {type : JavaType} {op : BinaryOp} {left right : Tree}
    (plain : op.isLogical = false) (covered : ∀ tree ∈ [left, right], Covers V position tree) :
    Covers V position (.node (.binary op left right) type)
  | logical {position : Position} {type : JavaType} {op : BinaryOp} {left right : Tree}
    (decides : op.isLogical = true) (first : Covers V .value left)
    (second : Covers V position right) : Covers V position (.node (.binary op left right) type)
  | unary {position : Position} {type : JavaType} {operand : Tree} (op : UnaryOp)
    (covered : Covers V position operand) : Covers V position (.node (.unary op operand) type)
  | isNull {position : Position} {type : JavaType} {value : Tree}
    (covered : Covers V position value) : Covers V position (.node (.isNull value) type)
  | cast {position : Position} {type : JavaType} {value : Tree} (target : JavaType)
    (covered : Covers V position value) : Covers V position (.node (.cast target value) type)
  | concat {position : Position} {type : JavaType} {parts : List Tree}
    (covered : ∀ tree ∈ parts, Covers V position tree) :
    Covers V position (.node (.concat parts) type)
  | cond {position : Position} {type : JavaType} {test : Tree} {yes no : Option Tree}
    (tested : Covers V .value test) (yesCovered : ∀ tree ∈ yes, Covers V position tree)
    (noCovered : ∀ tree ∈ no, Covers V position tree) :
    Covers V position (.node (.cond test yes no) type)
  | empty {position : Position} {type : JavaType} : Covers V position (.node (.seq []) type)
  | last {position : Position} {type : JavaType} {tree : Tree} (covered : Covers V position tree) :
    Covers V position (.node (.seq [tree]) type)
  | seq {position : Position} {type : JavaType} {first second : Tree} {rest : List Tree}
    (start : Covers V position.before first)
    (covered : Covers V position (.node (.seq (second :: rest)) type)) :
    Covers V position (.node (.seq (first :: second :: rest)) type)
  | loop {inBody : Bool} {type : JavaType} {spec : Loop Tree} (allowed : V.hasLoops = true)
    (cond : Covers V .value spec.cond)
    (init : ∀ tree ∈ spec.init, Covers V (.effects false) tree)
    (pre : ∀ tree ∈ spec.pre, Covers V (.effects false) tree)
    (post : ∀ tree ∈ spec.post, Covers V (.effects false) tree)
    (body : ∀ tree ∈ spec.body, Covers V (.effects true) tree) :
    Covers V (.effects inBody) (.node (.loop spec) type)
  | forEach {inBody : Bool} {type : JavaType} {spec : ForEach Tree} (allowed : V.hasLoops = true)
    (changes : V.isVolatile spec.var = true) (iterable : Covers V .value spec.iterable)
    (body : ∀ tree ∈ spec.body, Covers V (.effects true) tree) :
    Covers V (.effects inBody) (.node (.forEach spec) type)
  | jump {type : JavaType} (allowed : V.hasLoops = true) (action : Jump) :
    Covers V (.effects true) (.node (.jump action) type)

theorem areExpressions_congr {known known' : String → Bool} {trees : List Tree}
    (same : ∀ tree ∈ trees, tree.isExpression known = tree.isExpression known') :
    areExpressions known trees = areExpressions known' trees := by
  induction trees with
  | nil => rfl
  | cons tree rest ih =>
    rw [areExpressions, areExpressions, same tree List.mem_cons_self,
      ih fun tree mem => same tree (List.mem_cons_of_mem _ mem)]

theorem isExpressionIfAny_congr {known known' : String → Bool} {tree : Option Tree}
    (same : ∀ part ∈ tree, part.isExpression known = part.isExpression known') :
    isExpressionIfAny known tree = isExpressionIfAny known' tree := by
  cases tree with
  | none => rfl
  | some tree => exact same tree rfl

variable {V : Vocabulary} {position : Position} {tree : Tree}

namespace Covers

theorem known_of_var {name : String} {type : JavaType}
    (covers : V.Covers position (.node (.var name) type)) : name ∈ V.names := by
  cases covers with
  | var known _ => exact known

/-- If no variable changes, a value may be left unused. -/
theorem unused (stable : ∀ name, V.isVolatile name = false) (covers : V.Covers .value tree) :
    V.Covers (.effects false) tree := by
  generalize wanted : Position.value = position at covers
  induction covers with
  | literal value => exact .literal value
  | self => exact .self
  | var known _ => exact .var known (.inr (stable _))
  | call method returns operands _ => exact .call method returns operands fun other => nomatch other
  | binary plain _ ih => exact .binary plain fun tree mem => ih tree mem wanted
  | logical decides first _ _ ih => exact .logical decides first (ih wanted)
  | unary op _ ih => exact .unary op (ih wanted)
  | isNull _ ih => exact .isNull (ih wanted)
  | cast target _ ih => exact .cast target (ih wanted)
  | concat _ ih => exact .concat fun tree mem => ih tree mem wanted
  | cond tested _ _ _ yesIh noIh =>
    exact .cond tested (fun tree mem => yesIh tree mem wanted) fun tree mem => noIh tree mem wanted
  | empty => exact .empty
  | last _ ih => exact .last (ih wanted)
  | seq start _ _ ih =>
    subst wanted
    exact .seq start (ih rfl)
  | loop | forEach | jump => cases wanted

/-- Without assignments, what is an expression does not depend on the variables that are known. -/
theorem isExpression_eq (covers : V.Covers position tree) (known known' : String → Bool) :
    tree.isExpression known = tree.isExpression known' := by
  induction covers with
  | literal | self | var | empty | last | seq | loop | forEach | jump => rfl
  | @call _ _ receiver args _ _ _ _ ih =>
    have receiverSame : receiver.isExpression known = receiver.isExpression known' := by
      cases receiver with
      | implicit | named _ => rfl
      | value target => exact ih target List.mem_cons_self
    have argsSame : areExpressions known args = areExpressions known' args :=
      areExpressions_congr fun tree mem => ih tree (List.mem_append_right _ mem)
    simp only [Tree.isExpression, Kind.isExpression, receiverSame, argsSame]
  | @binary _ _ _ left right _ _ ih =>
    have leftSame := ih left List.mem_cons_self
    have rightSame := ih right (List.mem_cons_of_mem _ List.mem_cons_self)
    simp only [Tree.isExpression, Kind.isExpression, leftSame, rightSame]
  | logical _ _ _ leftSame rightSame =>
    simp only [Tree.isExpression, Kind.isExpression, leftSame, rightSame]
  | unary _ _ ih | isNull _ ih | cast _ _ ih => exact ih
  | concat _ ih => exact areExpressions_congr ih
  | cond _ _ _ testSame yesIh noIh =>
    simp only [Tree.isExpression, Kind.isExpression, testSame, isExpressionIfAny_congr yesIh,
      isExpressionIfAny_congr noIh]

/-- Without loops there are no jumps, so the tree can stand anywhere. -/
theorem wellPlaced (noLoops : V.hasLoops = false) (covers : V.Covers position tree)
    (inside : Option Bool) : tree.wellPlaced inside = true := by
  induction covers with
  | literal | self | var | empty =>
    rw [Tree.wellPlaced_node]
    rfl
  | call _ _ _ _ ih | binary _ _ ih | concat _ ih =>
    rw [Tree.wellPlaced_node]
    exact List.all_eq_true.mpr ih
  | logical _ _ _ left right =>
    rw [Tree.wellPlaced_node]
    simp only [Kind.wellPlaced, Kind.children, List.all_cons, List.all_nil, left, right, Bool.and_self]
  | unary _ _ ih | cast _ _ ih | isNull _ ih | last _ ih =>
    rw [Tree.wellPlaced_node]
    simp only [Kind.wellPlaced, Kind.children, List.all_cons, List.all_nil, ih, Bool.and_self]
  | cond _ _ _ test yes no =>
    rw [Tree.wellPlaced_node]
    refine List.all_eq_true.mpr ?_
    simp only [Kind.children, List.forall_mem_cons, List.forall_mem_append, Option.mem_toList]
    exact ⟨test, yes, no⟩
  | seq _ _ first rest =>
    rw [Tree.wellPlaced_node] at rest ⊢
    exact List.all_eq_true.mpr (List.forall_mem_cons.mpr ⟨first, List.all_eq_true.mp rest⟩)
  | loop allowed | forEach allowed | jump allowed =>
    rw [noLoops] at allowed
    cases allowed

end Covers

end Vocabulary

/-! ## The code of the trees -/

namespace Setting

variable {S : Setting} {position : Position} {tree : Tree}

/-- The tree's code does what is asked of the tree where it stands. -/
def Sound (S : Setting) : Position → Tree → Prop
  | .value, tree => S.Evaluates tree
  | .effects inBody, tree => S.Acts inBody tree

/-- The vocabulary of trees that mean something in the setting. -/
def vocabulary (S : Setting) (hasLoops : Bool) : Vocabulary :=
  ⟨S.names, S.world.isVolatile, hasLoops⟩

theorem sound_of_covers {hasLoops : Bool} (covers : (S.vocabulary hasLoops).Covers position tree) :
    S.Sound position tree := by
  induction covers with
  | @literal position _ value =>
    cases position with
    | value => exact evaluates_literal value
    | effects => exact acts_literal value
  | @self position =>
    cases position with
    | value => exact evaluates_self
    | effects => exact acts_self
  | @var position _ _ known stable =>
    cases position with
    | value => exact evaluates_var known
    | effects => exact acts_var (stable.resolve_left nofun)
  | @call position _ receiver args method returns operands stable ih =>
    cases position with
    | value =>
      refine evaluates_call method returns ih fun void name type same => ⟨?_, stable rfl void name type same⟩
      subst same
      exact (operands _ List.mem_cons_self).known_of_var
    | effects => exact acts_call method returns ih
  | @binary position _ _ _ _ plain _ ih =>
    have left := ih _ List.mem_cons_self
    have right := ih _ (List.mem_cons_of_mem _ List.mem_cons_self)
    cases position with
    | value => exact evaluates_binary plain left right
    | effects => exact acts_binary plain left right
  | @logical position _ _ _ _ decides _ _ left right =>
    cases position with
    | value => exact evaluates_logical decides left right
    | effects => exact acts_logical decides left right
  | @unary position _ _ op _ operand =>
    cases position with
    | value => exact evaluates_unary op operand
    | effects => exact acts_unary op operand
  | @isNull position _ _ _ value =>
    cases position with
    | value => exact evaluates_isNull value
    | effects => exact acts_isNull value
  | @cast position _ _ target _ value =>
    cases position with
    | value => exact evaluates_cast target value
    | effects => exact acts_cast target value
  | @concat position _ _ _ parts =>
    cases position with
    | value => exact evaluates_concat parts
    | effects => exact acts_concat parts
  | @cond position _ _ _ _ _ _ _ test yes no =>
    cases position with
    | value => exact evaluates_cond test yes no
    | effects => exact acts_cond test yes no
  | @empty position =>
    cases position with
    | value => exact evaluates_seq_nil
    | effects => exact acts_seq_nil
  | @last position _ _ _ last =>
    cases position with
    | value => exact evaluates_seq_singleton last
    | effects => exact acts_seq_singleton last
  | @seq position _ _ _ _ _ _ first rest =>
    cases position with
    | value => exact evaluates_seq_cons first rest
    | effects => exact acts_seq_cons first rest
  | loop _ covered _ _ _ _ cond init pre post body =>
    exact acts_loop ⟨init, pre, post, body, cond, covered.isExpression_eq⟩
  | forEach _ changes _ _ iterable body => exact acts_forEach ⟨iterable, body, changes⟩
  | jump _ action => exact acts_jump action

end Setting

/-! ## Trees without loops -/

namespace Meaning

variable {α β : Type}

/-- The run is done, whatever the history. -/
def Total (code : Meaning α) : Prop := ∀ h, ∃ value h', code h = .done value h'

theorem total_pure (value : α) : Total (pure value) := fun h => ⟨value, h, rfl⟩

theorem Total.bind {first : Meaning α} {next : α → Meaning β} (total : Total first)
    (after : ∀ value, Total (next value)) : Total (first >>= next) := by
  intro h
  obtain ⟨value, h', done⟩ := total h
  rw [bind_apply, done]
  exact after value h'

theorem total_ask (w : World) (event : Event) : Total (w.ask event) :=
  fun h => ⟨w.answer (h ++ [event]), h ++ [event], rfl⟩

theorem total_read (w : World) (name : String) : Total (w.read name) := by
  unfold World.read
  split
  · exact total_ask w _
  · exact total_pure _

end Meaning

namespace Setting

open Meaning

variable {S : Setting} {position : Position} {tree : Tree}

theorem total_meanings {trees : List Tree} (total : ∀ tree ∈ trees, Total (S.meaning tree)) :
    Total (S.meanings trees) := by
  induction trees with
  | nil => exact total_pure []
  | cons tree rest ih =>
    rw [S.meanings_cons]
    refine (total tree List.mem_cons_self).bind fun value => ?_
    have others := ih fun tree mem => total tree (List.mem_cons_of_mem _ mem)
    exact others.bind fun values => total_pure (value :: values)

theorem total_armMeaning {arm : Option Tree} (total : ∀ tree ∈ arm, Total (S.meaning tree))
    (type : JavaType) : Total (S.armMeaning type arm) := by
  cases arm with
  | none => exact total_pure _
  | some tree => exact total tree rfl

/-- Without loops there is nothing that could go on forever. -/
theorem total_of_covers (covers : (S.vocabulary false).Covers position tree) :
    Total (S.meaning tree) := by
  induction covers with
  | literal | self | empty =>
    rw [S.meaning_node]
    exact total_pure _
  | var =>
    rw [S.meaning_node]
    exact total_read _ _
  | @call _ _ receiver args _ _ _ _ ih =>
    have receiverTotal : Total ((receiver.map S.meaning).meaning S.world) := by
      cases receiver with
      | implicit | named _ => exact total_pure _
      | value target => exact (ih target List.mem_cons_self).bind fun _ => total_pure _
    have argsTotal := total_meanings fun tree mem => ih tree (List.mem_append_right _ mem)
    rw [meaning_call]
    refine receiverTotal.bind fun pair => argsTotal.bind fun values => ?_
    exact (total_ask _ _).bind fun _ => total_pure _
  | binary plain _ ih =>
    rw [meaning_binary plain]
    refine (ih _ List.mem_cons_self).bind fun _ => ?_
    exact (ih _ (List.mem_cons_of_mem _ List.mem_cons_self)).bind fun _ => total_pure _
  | logical decides _ _ left right =>
    rw [meaning_logical decides]
    refine left.bind fun value => ?_
    split
    · exact right
    · exact total_pure _
  | unary _ _ ih | isNull _ ih | cast _ _ ih =>
    rw [S.meaning_node]
    exact ih.bind fun _ => total_pure _
  | concat _ ih =>
    rw [S.meaning_node]
    exact (total_meanings ih).bind fun _ => total_pure _
  | cond _ _ _ test yes no =>
    rw [meaning_cond]
    refine test.bind fun value => ?_
    split
    · exact total_armMeaning yes _
    · exact total_armMeaning no _
  | last _ ih =>
    rw [S.meaning_node]
    exact ih
  | seq _ _ first rest =>
    rw [meaning_seq_cons]
    exact first.bind fun _ => rest
  | loop allowed | forEach allowed | jump allowed => cases allowed

end Setting

end JavaBackend
