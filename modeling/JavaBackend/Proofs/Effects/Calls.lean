import JavaBackend.Proofs.Effects.Known
import JavaBackend.Proofs.Effects.Paths
import JavaBackend.Proofs.Words.Lowering

/-!
# Calls in generated code

No call is lost and none is written too often: what the code of a tree has in calls, and the
expression for its value, is what `Tree.written` says. The weight of a method is any number, so the
statement is about each method on its own, and about how often a character occurs in their names.
-/

namespace JavaBackend

open Java (Stmt Code Expr Test Handler Sink)

/-- What a word weighs if calls are all that counts. -/
def Word.weight (weight : String → Nat) : Word → Nat
  | .method name => weight name
  | .var _ | .field _ | .owner _ | .type _ | .literal _ | .label _ | .lead _ => 0

/-- The weight of the calls among the words. -/
def weigh (weight : String → Nat) (words : List Word) : Nat := (words.map (Word.weight weight)).sum

variable {weight : String → Nat}

@[simp]
theorem weigh_nil : weigh weight [] = 0 := rfl

@[simp]
theorem weigh_cons {word : Word} {words : List Word} :
    weigh weight (word :: words) = word.weight weight + weigh weight words := rfl

@[simp]
theorem weigh_append {first second : List Word} :
    weigh weight (first ++ second) = weigh weight first + weigh weight second := by
  unfold weigh
  rw [List.map_append, List.sum_append]

@[simp]
theorem weight_method (name : String) : (Word.method name).weight weight = weight name := rfl

@[simp]
theorem weight_var (name : String) : (Word.var name).weight weight = 0 := rfl

@[simp]
theorem weight_field (name : String) : (Word.field name).weight weight = 0 := rfl

@[simp]
theorem weight_owner (name : String) : (Word.owner name).weight weight = 0 := rfl

@[simp]
theorem weight_type (type : JavaType) : (Word.type type).weight weight = 0 := rfl

@[simp]
theorem weight_literal (value : Literal) : (Word.literal value).weight weight = 0 := rfl

@[simp]
theorem weight_label (name : String) : (Word.label name).weight weight = 0 := rfl

@[simp]
theorem weigh_sink (sink : Sink) : weigh weight sink.words = 0 := by
  cases sink <;> rfl

@[simp]
theorem weigh_loopStmt {checkFirst : Bool} {test : Test} {body : Code} :
    weigh weight (loopStmt checkFirst test body).words =
      weigh weight test.expr.words + weigh weight (Stmt.codeWords body) := by
  cases checkFirst with
  | true => exact weigh_append
  | false => exact weigh_append.trans (Nat.add_comm _ _)

@[simp]
theorem weigh_labeledStmt {inner : String} {body : Code} {flag : Option String} :
    weigh weight (labeledStmt inner body flag).words = weigh weight (Stmt.codeWords body) := by
  cases flag <;> simp [labeledStmt]

theorem weigh_put {dest : Destination} {value : Expr} (free : weigh weight value.words = 0) :
    weigh weight (Stmt.codeWords (dest.put value)) = 0 := by
  cases dest <;> simp [Destination.put, free]

@[simp]
theorem weigh_put_var {dest : Destination} {name : String} :
    weigh weight (Stmt.codeWords (dest.put (.var name))) = 0 := weigh_put rfl

@[simp]
theorem weigh_put_literal {dest : Destination} {value : Literal} :
    weigh weight (Stmt.codeWords (dest.put (.literal value))) = 0 := weigh_put rfl

@[simp]
theorem weigh_putEffect {dest : Destination} {value : Expr} :
    weigh weight (dest.putEffect value).words = weigh weight value.words := by
  cases dest <;> simp [Destination.putEffect]

@[simp]
theorem weigh_copyCode {copied : String} {name : Option String} :
    weigh weight (Stmt.codeWords (copyCode copied name)) = 0 := by
  cases name <;> simp [copyCode]

@[simp]
theorem weigh_declareTemp {p : Progress} {type : JavaType} {init : Expr} :
    weigh weight (p.declareTemp type init).words = weigh weight init.words := by
  simp [Progress.declareTemp]

@[simp]
theorem weigh_declareFlag {p : Progress} : weigh weight p.declareFlag.words = 0 := by
  simp [Progress.declareFlag]

@[simp]
theorem weigh_flagCode {p : Progress} {redo : Bool} :
    weigh weight (Stmt.codeWords (p.flagCode redo)) = 0 := by
  cases redo <;> simp [Progress.flagCode]

@[simp]
theorem weigh_field {ctx : Context} {name : String} {isStatic : Bool} :
    weigh weight (ctx.field name isStatic).words = 0 := by
  cases isStatic <;> simp [Context.field]

@[simp]
theorem weigh_put_field {dest : Destination} {ctx : Context} {name : String} {isStatic : Bool} :
    weigh weight (Stmt.codeWords (dest.put (ctx.field name isStatic))) = 0 := weigh_put weigh_field

@[simp]
theorem weigh_ownReceiver {ctx : Context} : weigh weight ctx.ownReceiver.words = 0 := by
  unfold Context.ownReceiver
  split <;> simp

theorem EnclosingLoop.Jumps.weigh_code {loop : EnclosingLoop} {action : Jump} {code : Code}
    (jumps : loop.Jumps action code) : weigh weight (Stmt.codeWords code) = 0 := by
  obtain ⟨form, labels, flag⟩ := loop
  cases jumps with
  | «break» => cases labels <;> simp
  | nextPlain _ | nextLabeled _ | redo _ _ => simp

/-! ## Nodes -/

/-- The own expression of a node has the calls of its operands, and that of the node. -/
theorem Kind.weigh_build? {ctx : Context} {type : JavaType} {kind : Kind Tree} {exprs : List Expr}
    {expr : Expr} (built : kind.build? ctx type exprs = some expr) :
    weigh weight expr.words =
      kind.called?.elim 0 weight + weigh weight (Expr.wordsAll exprs) := by
  unfold Kind.build? at built
  split at built <;> cases built <;> simp [Kind.called?, Nat.add_left_comm]

/-- The operands of a node that has an own expression are written once. -/
theorem Kind.edges_of_build? {ctx : Context} {type : JavaType} {kind : Kind Tree}
    {exprs : List Expr} {expr : Expr} (built : kind.build? ctx type exprs = some expr)
    (isExpression : Tree → Bool) : kind.edges isExpression = once kind.children := by
  unfold Kind.build? at built
  split at built <;> first | rfl | cases built

theorem Kind.edges_of_isValue {kind : Kind Tree} (value : kind.isValue = true)
    (isExpression : Tree → Bool) :
    kind.edges isExpression = once kind.children ∧ kind.called? = none := by
  cases kind <;> first | exact ⟨rfl, rfl⟩ | cases value

/-! ## Tasks -/

/-- The trees that a task is about, each with the number of times that the task writes it. -/
def Task.edges (isExpression : Tree → Bool) : Task → List (Nat × Tree)
  | .own kind type => [(1, .node kind type)]
  | .operand _ tree | .temp tree | .freshTemp tree | .kept tree | .statement tree _ => [(1, tree)]
  | .operands _ trees | .effects trees | .seq trees _ _ => once trees
  | .maybe tree _ | .arm tree _ _ | .labeledBody tree _ _ => once tree.toList
  | .receiver target => once target.toList
  | .guarded body otherwise _ _ => once body.toList ++ once otherwise.toList
  | .clauses handled _ _ => handled.filterMap RescueClause.edge?
  | .handlers types _ _ body _ _ => body.toList.map (types.length, ·)
  | .loop spec => (Kind.loop spec).edges isExpression
  | .forEach spec => (Kind.forEach spec).edges isExpression
  | .pass spec _ _ held =>
    once (spec.pre.toList ++ spec.body.toList ++ spec.post.toList ++
      (held.map fun _ => spec.cond).toList)
  | .within _ task => task.edges isExpression

variable {ctx : Context} {p p' : Progress} {task : Task} {tree : Tree} {code : Code} {yield : Yield}
  {known : String → Bool}

/-- A value that is left in a variable is read from it. -/
theorem Lowers.temp_var (lowers : Lowers ctx p (.temp tree) code yield p') :
    ∃ name, yield = .value (.var name) := by
  cases lowers <;> exact ⟨_, rfl⟩

theorem Lowers.freshTemp_var (lowers : Lowers ctx p (.freshTemp tree) code yield p') :
    ∃ name, yield = .value (.var name) := by
  cases lowers with
  | freshInline _ _ => exact ⟨_, rfl⟩
  | freshTemp temp => exact temp.temp_var

/-- A value that is used twice has no calls in it. -/
theorem Lowers.weigh_kept {expr : Expr} (lowers : Lowers ctx p (.kept tree) code (.value expr) p') :
    weigh weight expr.words = 0 := by
  cases lowers with
  | keptTemp temp =>
    obtain ⟨name, held⟩ := temp.freshTemp_var
    cases held
    rfl
  | keptInline constant inline =>
    cases inline with
    | inlineTemp temp =>
      obtain ⟨name, held⟩ := temp.temp_var
      cases held
      rfl
    | inlineOwn placed own =>
      cases own with
      | own operands built =>
        have weighed : weigh weight expr.words = _ := Kind.weigh_build? built
        rcases constant with same | ⟨name, same⟩ <;> cases same <;> cases operands <;>
          simpa [Kind.called?] using weighed

/-- What is printed is all that the operands of `print` give. -/
theorem Lowers.weigh_printed {value : Option Tree} {exprs : List Expr}
    (lowers : Lowers ctx p (.operands .value value.toList) code (.values exprs) p') :
    weigh weight (exprs.head?.elim [] Expr.words) = weigh weight (Expr.wordsAll exprs) := by
  cases value with
  | none =>
    cases lowers
    rfl
  | some tree =>
    cases lowers with
    | operandsCons _ others =>
      cases others
      simp

/-- Every assignment in the trees of the task is to a known name. -/
def Task.AssignsTo (known : String → Bool) (task : Task) : Prop :=
  ∀ edge ∈ task.edges (·.isExpression known), edge.2.AssignsTo known

theorem forall_mem_once {trees : List Tree} {P : Tree → Prop} :
    (∀ edge ∈ once trees, P edge.2) ↔ ∀ tree ∈ trees, P tree :=
  List.forall_mem_map

theorem Task.assignsTo_one {times : Nat} (assigns : tree.AssignsTo known) :
    ∀ edge ∈ [(times, tree)], edge.2.AssignsTo known :=
  List.forall_mem_singleton.mpr assigns

theorem Tree.AssignsTo.children {kind : Kind Tree} {type : JavaType}
    (assigns : (Tree.node kind type).AssignsTo known) :
    ∀ tree ∈ kind.children, tree.AssignsTo known :=
  (Tree.every_node.mp assigns).2

/-- The calls of the code and of the result are those of the task. -/
theorem Lowers.written (lowers : Lowers ctx p task code yield p') (knows : p.Knows known)
    (assigns : task.AssignsTo known) :
    weigh weight (Stmt.codeWords code) + weigh weight yield.words =
      Tree.writtenAll weight known (task.edges (·.isExpression known)) := by
  induction lowers with
  | @own _ _ kind type _ _ _ q _ built ih =>
    have total := ih knows (forall_mem_once.mpr (assigns _ List.mem_cons_self).children)
    simp [Task.edges, Tree.written_node, Kind.edges_of_build? built, Kind.weigh_build? built]
      at total ⊢
    omega
  | inlineOwn _ _ ih | inlineTemp _ ih | valueInline _ _ ih | valueTemp _ _ ih | fixedInline _ _ ih
  | fixedTemp _ ih | keptInline _ _ ih | keptTemp _ ih | freshTemp _ ih => exact ih knows assigns
  | operandsNil | effectsNil | maybeNone | clausesNil | retNone => rfl
  | operandsCons first _ ih₁ ih₂ | seqCons first _ ih₁ ih₂ | effectsCons first _ ih₁ ih₂ =>
    obtain ⟨one, rest⟩ := List.forall_mem_cons.mp (forall_mem_once.mp assigns)
    have front := ih₁ knows (Task.assignsTo_one one)
    have behind := ih₂ (first.knows knows) (forall_mem_once.mpr rest)
    simp [Task.edges] at front behind ⊢
    omega
  | freshInline _ _ ih | tempLoop _ _ ih | tempAssign _ ih | storeValue _ _ ih | putEffect _ _ ih =>
    simpa [Task.edges] using ih knows assigns
  | tempStore _ ih =>
    simpa [Task.edges] using ih (knows.takeTemp _) assigns
  | @discardValue _ _ kind _ _ _ value _ ih =>
    have total := ih knows (forall_mem_once.mpr (assigns _ List.mem_cons_self).children)
    obtain ⟨once, called⟩ := Kind.edges_of_isValue value (·.isExpression known)
    simpa [Task.edges, Tree.written_node, once, called] using total
  | assignKnown _ _ ih | assignNew _ _ ih | retVoid _ _ ih | retInline _ _ _ ih | retStore _ _ ih
  | raiseInline _ _ ih | raiseStore _ ih =>
    have value := (assigns _ List.mem_cons_self).children _ List.mem_cons_self
    have total := ih knows (Task.assignsTo_one value)
    simpa [Task.edges, Tree.written_node, Kind.edges, Kind.children, Kind.called?] using total
  | setField _ ih =>
    have value := (assigns _ List.mem_cons_self).children _ List.mem_cons_self
    have total := ih (knows.useField _) (Task.assignsTo_one value)
    simpa [Task.edges, Tree.written_node, Kind.edges, Kind.children, Kind.called?] using total
  | @voidCall _ _ _ _ _ _ _ _ _ _ target value _ _ _ _ received _ ih₁ ih₂ =>
    obtain ⟨receiver, args⟩ :=
      List.forall_mem_append.mp (assigns _ List.mem_cons_self).children
    have front := ih₁ knows (forall_mem_once.mpr receiver)
    have behind := ih₂ (received.knows knows) (forall_mem_once.mpr args)
    -- the receiver's value is at hand, and may be used twice
    have free : weigh weight target.words = 0 ∧ weigh weight value.words = 0 := by
      cases received with
      | receiverOwn => exact ⟨weigh_ownReceiver, by split <;> rfl⟩
      | receiverNamed => exact ⟨rfl, rfl⟩
      | receiverValue kept => exact ⟨kept.weigh_kept, kept.weigh_kept⟩
    simp [Task.edges, Tree.written_node, Kind.edges, Kind.children, Kind.called?, free]
      at front behind ⊢
    omega
  | receiverOwn => 
    simp [Task.edges, Receiver.toList]
    split <;> rfl
  | receiverNamed => rfl
  | receiverValue kept ih =>
    have total := ih knows assigns
    have free : weigh weight _ = 0 := kept.weigh_kept
    simpa [Task.edges, Receiver.toList, free] using total
  | condElse tested yesArm _ ih₁ ih₂ ih₃ =>
    have children := (assigns _ List.mem_cons_self).children
    obtain ⟨test, arms⟩ := List.forall_mem_cons.mp children
    obtain ⟨yes, no⟩ := List.forall_mem_append.mp arms
    have front := ih₁ knows (Task.assignsTo_one test)
    have first := ih₂ (tested.knows knows) (forall_mem_once.mpr yes)
    have second := ih₃ (yesArm.knows (tested.knows knows)) (forall_mem_once.mpr no)
    simp [Task.edges, Tree.written_node, Kind.edges, Kind.children, Kind.called?]
      at front first second ⊢
    omega
  | condThen tested _ ih₁ ih₂ =>
    have children := (assigns _ List.mem_cons_self).children
    obtain ⟨test, arms⟩ := List.forall_mem_cons.mp children
    obtain ⟨yes, -⟩ := List.forall_mem_append.mp arms
    have front := ih₁ knows (Task.assignsTo_one test)
    have first := ih₂ (tested.knows knows) (forall_mem_once.mpr yes)
    simp [Task.edges, Tree.written_node, Kind.edges, Kind.children, Kind.called?] at front first ⊢
    omega
  | andStore tested _ ih₁ ih₂ | orStore tested _ ih₁ ih₂ | logicalDiscard _ tested _ ih₁ ih₂
  | ensure tested _ ih₁ ih₂ =>
    obtain ⟨left, right⟩ := List.forall_mem_cons.mp (assigns _ List.mem_cons_self).children
    have front := ih₁ knows (Task.assignsTo_one left)
    have behind := ih₂ (tested.knows knows) (forall_mem_once.mpr right)
    simp [Task.edges, Tree.written_node, Kind.edges, Kind.children, Kind.called?] at front behind ⊢
    omega
  | seq _ ih =>
    have total := ih knows (forall_mem_once.mpr (assigns _ List.mem_cons_self).children)
    simpa [Task.edges, Tree.written_node, Kind.edges, Kind.children, Kind.called?] using total
  | seqNil | armNone => 
    simp [Task.edges]
  | seqLast _ ih | maybeSome _ ih | armSome _ ih => exact ih knows assigns
  | guardedPlain _ ih | labeledBody _ ih =>
    have total := ih knows (by simpa [Task.AssignsTo, Task.edges] using assigns)
    simpa [Task.edges] using total
  | jump _ jumps =>
    simp [Task.edges, Tree.written_node, Kind.edges, Kind.children, Kind.called?, jumps.weigh_code]
  | print operand ih =>
    have total := ih knows (forall_mem_once.mpr (assigns _ List.mem_cons_self).children)
    simp [Task.edges, Tree.written_node, Kind.edges, Kind.children, Kind.called?] at total ⊢
    rw [operand.weigh_printed]
    exact total
  | guardedElse arm _ ih₁ ih₂ =>
    obtain ⟨body, otherwise⟩ := List.forall_mem_append.mp assigns
    have front := ih₁ knows body
    have behind := ih₂ (arm.knows knows) otherwise
    simp [Task.edges] at front behind ⊢
    omega
  | rescueNone _ ih =>
    have children := (assigns _ List.mem_cons_self).children
    simp only [Kind.children, List.filterMap_nil, List.append_nil] at children
    obtain ⟨body, otherwise⟩ := List.forall_mem_append.mp children
    have total := ih knows (List.forall_mem_append.mpr
      ⟨forall_mem_once.mpr body, forall_mem_once.mpr otherwise⟩)
    simpa [Task.edges, Tree.written_node, Kind.edges, Kind.called?] using total
  | rescue _ guarded _ ih₁ ih₂ =>
    have children := (assigns _ List.mem_cons_self).children
    rw [← Kind.map_snd_edges (·.isExpression known), List.forall_mem_map] at children
    obtain ⟨front, otherwise⟩ := List.forall_mem_append.mp children
    obtain ⟨body, bodies⟩ := List.forall_mem_append.mp front
    have inner := ih₁ knows (List.forall_mem_append.mpr ⟨body, otherwise⟩)
    have handled := ih₂ (guarded.knows knows) bodies
    simp [Task.edges, Tree.written_node, Kind.edges, Kind.called?] at inner handled ⊢
    omega
  | @clausesCons _ _ clause _ _ _ _ _ _ _ first _ ih₁ ih₂ =>
    have count : (if clause.types.isEmpty then [anyException] else clause.types).length =
        clause.copies := by
      obtain ⟨types, name, body⟩ := clause
      cases types <;> simp [RescueClause.copies]
    obtain ⟨types, name, body⟩ := clause
    cases body with
    | none =>
      have inner := ih₁ knows (by simp [Task.AssignsTo, Task.edges])
      have others := ih₂ (first.knows knows) assigns
      simp [Task.edges, RescueClause.edge?, List.filterMap_cons] at inner others ⊢
      omega
    | some tree =>
      obtain ⟨body, rest⟩ := List.forall_mem_cons.mp assigns
      have inner := ih₁ knows (Task.assignsTo_one body)
      have others := ih₂ (first.knows knows) rest
      simp only [Task.edges, count] at inner
      simp [Task.edges, RescueClause.edge?] at inner others ⊢
      omega
  | @handlersNil _ _ _ _ body _ _ =>
    cases body <;> simp [Task.edges]
  | @handlersNamed _ _ _ _ _ body _ _ _ _ _ _ handled _ ih₁ ih₂
  | @handlersFresh _ _ _ _ _ _ body _ _ _ _ _ _ _ handled _ ih₁ ih₂ =>
    cases body with
    | none =>
      have inner := ih₁ knows (by simp [Task.AssignsTo, Task.edges])
      have others := ih₂ (handled.knows knows) (by simp [Task.AssignsTo, Task.edges])
      simp [Task.edges] at inner others ⊢
      omega
    | some tree =>
      have body : tree.AssignsTo known := assigns _ List.mem_cons_self
      have inner := ih₁ knows (Task.assignsTo_one body)
      have others := ih₂ (handled.knows knows) (Task.assignsTo_one body)
      simp [Task.edges, Nat.add_mul] at inner others ⊢
      omega
  | loop _ ih | forEach _ ih =>
    have children := (assigns _ List.mem_cons_self).children
    rw [← Kind.map_snd_edges (·.isExpression known), List.forall_mem_map] at children
    have total := ih knows children
    simpa [Task.edges, Tree.written_node, Kind.called?] using total
  | plainLoop _ post placed init tested opened _ ih₁ ih₂ ih₃ ih₄ =>
    obtain ⟨first, rest⟩ := List.forall_mem_append.mp assigns
    obtain ⟨cond, rest⟩ := List.forall_mem_cons.mp rest
    obtain ⟨⟨pre, body⟩, -⟩ : (_ ∧ _) ∧ _ := by
      simpa only [once_append, List.forall_mem_append] using rest
    rw [cond.isExpression_eq knows] at placed
    have front := ih₁ knows first
    have test := ih₂ (init.knows knows) (Task.assignsTo_one cond)
    have start := ih₃ (tested.knows (init.knows knows)) pre
    have inner := ih₄ (opened.knows (tested.knows (init.knows knows))) body
    simp [Task.edges, Kind.edges, post, placed] at front test start inner ⊢
    omega
  | testedLoop _ init tested placed _ ih₁ ih₂ ih₃ =>
    obtain ⟨first, rest⟩ := List.forall_mem_append.mp assigns
    obtain ⟨cond, rest⟩ := List.forall_mem_cons.mp rest
    rw [cond.isExpression_eq (init.knows knows)] at placed
    have front := ih₁ knows first
    have test := ih₂ (init.knows knows) (Task.assignsTo_one cond)
    have inner := ih₃ ((tested.knows (init.knows knows)).takeLabels.takeFlag _)
      (by simpa [Task.AssignsTo, Task.edges] using rest)
    simp [Task.edges, Kind.edges, placed] at front test inner ⊢
    omega
  | @heldLoop _ _ spec _ _ _ _ _ _ init unplaced tested _ ih₁ ih₂ ih₃ =>
    obtain ⟨first, rest⟩ := List.forall_mem_append.mp assigns
    obtain ⟨cond, rest⟩ := List.forall_mem_cons.mp rest
    rw [cond.isExpression_eq (init.knows knows)] at unplaced
    have front := ih₁ knows first
    have before : ∀ edge ∈ once (if spec.checkFirst then some spec.cond else none).toList,
        edge.2.AssignsTo known := by
      refine forall_mem_once.mpr fun tree mem => ?_
      split at mem <;> cases mem
      · exact cond
      · contradiction
    have test := ih₂ ((init.knows knows).takeTemp _) before
    have knows := tested.knows ((init.knows knows).takeTemp _)
    have inner := ih₃ (knows.takeLabels.takeFlag _) (by
      refine forall_mem_once.mpr fun tree mem => ?_
      rcases List.mem_append.mp mem with mem | mem
      · exact forall_mem_once.mp rest tree mem
      · cases List.mem_singleton.mp mem
        exact cond)
    simp only [Task.edges, Kind.edges, unplaced] at front test inner ⊢
    cases checkFirst : spec.checkFirst <;> simp [checkFirst] at front test inner ⊢ <;> omega
  | @pass _ _ _ _ _ held _ _ _ _ _ _ _ _ opened passed ended _ ih₁ ih₂ ih₃ ih₄ =>
    simp only [Task.AssignsTo, Task.edges, once_append, List.forall_mem_append] at assigns
    obtain ⟨⟨⟨pre, body⟩, post⟩, cond⟩ := assigns
    have start := ih₁ knows pre
    have inner := ih₂ (opened.knows knows) body
    have last := ih₃ (passed.knows (opened.knows knows)) post
    have test := ih₄ (ended.knows (passed.knows (opened.knows knows))) cond
    simp [Task.edges] at start inner last test ⊢
    omega
  | plainElements _ iterated _ _ ih₁ ih₂ | copiedElements _ iterated _ _ ih₁ ih₂
  | labeledElements _ iterated _ _ ih₁ ih₂ | labeledCopies _ iterated _ _ ih₁ ih₂ =>
    obtain ⟨iterable, body⟩ := List.forall_mem_cons.mp assigns
    have front := ih₁ knows (Task.assignsTo_one iterable)
    have behind := ih₂ (by apply_rules [Progress.Knows.takeTemp, iterated.knows knows]) body
    simp [Task.edges, Kind.edges, Kind.children] at front behind ⊢
    omega
  | @within _ _ binding _ _ _ _ _ ih => exact ih (knows.enter binding) assigns

end JavaBackend
