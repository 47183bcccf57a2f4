import JavaBackend.Proofs.Jumps.Laid
import JavaBackend.Proofs.Lowering.Derived

/-!
# The skeletons of lowered trees

The code of a tree has a skeleton that is `Laid`, and the loops and jumps that it stands for are those
that come out of the tree. `Lowers.laid` says so of every task, by induction over the rules of lowering;
the passes and the labeled bodies of loops are followed part by part.
-/

namespace JavaBackend

open Java (Stmt Code Expr Test Skeleton)
open Java.Stmt

variable {ctx : Context} {p p' : Progress} {code more : Code}

/-- A skeleton that is laid out for trees: the loops and jumps that it stands for come out of them. -/
def LaidFor (trees : List Tree) (loops : List EnclosingLoop) (s : Supply)
    (skeleton : List Skeleton) (s' : Supply) : Prop :=
  ∃ nest, Tree.AllNest trees nest ∧ Laid loops s skeleton s' nest

namespace LaidFor

variable {trees others : List Tree} {loops : List EnclosingLoop} {s s₁ s₂ : Supply}
  {one two : List Skeleton}

theorem nil : LaidFor [] loops s [] s := ⟨[], .nil, .nil⟩

theorem append (first : LaidFor trees loops s one s₁) (second : LaidFor others loops s₁ two s₂) :
    LaidFor (trees ++ others) loops s (one ++ two) s₂ := by
  obtain ⟨nest, comes, laid⟩ := first
  obtain ⟨nest', comes', laid'⟩ := second
  exact ⟨nest ++ nest', comes.append comes', laid.append laid'⟩

/-- Nothing need be laid out for an expression. -/
theorem of_isExpression {tree : Tree} {known : String → Bool}
    (expression : tree.isExpression known = true) : LaidFor [tree] loops s [] s :=
  ⟨[], .cons (Tree.nests_nil_of_isExpression known tree expression) .nil, .nil⟩

/-- A node that is neither a loop nor a jump is laid out as its children are. -/
theorem simple {kind : Kind Tree} (isSimple : kind.isSimple = true) (type : JavaType)
    (children : LaidFor kind.children loops s one s₁) : LaidFor [.node kind type] loops s one s₁ := by
  obtain ⟨nest, comes, laid⟩ := children
  exact ⟨nest, (Tree.Nests.simple isSimple comes).single, laid⟩

theorem declared (name : String) : LaidFor [] loops s [.node (.declares name) []] s :=
  ⟨[], .nil, .declared name⟩

theorem temp :
    LaidFor [] loops s [.node (.declares (tempName (s.temps + 1))) []] ⟨s.temps + 1, s.labels⟩ :=
  ⟨[], .nil, .temp⟩

/-- A tree is added for which nothing need be laid out. -/
theorem add_expression {tree : Tree} {known : String → Bool} (laid : LaidFor trees loops s one s₁)
    (expression : tree.isExpression known = true) : LaidFor (trees ++ [tree]) loops s one s₁ := by
  have all := laid.append (of_isExpression expression)
  rwa [List.append_nil] at all

/-- Nothing comes out of an expression. -/
theorem laid_of_isExpression {tree : Tree} {known : String → Bool} (laid : LaidFor [tree] loops s one s₁)
    (expression : tree.isExpression known = true) : Laid loops s one s₁ [] := by
  obtain ⟨_, comes, front⟩ := laid
  cases comes with
  | cons head tail =>
    cases tail
    cases Tree.eq_nil_of_isExpression known _ expression _ head
    exact front

/-! Code -/

theorem both (first : LaidFor trees loops s (codeSkeleton code) s₁)
    (second : LaidFor others loops s₁ (codeSkeleton more) s₂) :
    LaidFor (trees ++ others) loops s (codeSkeleton (code ++ more)) s₂ := by
  rw [codeSkeleton_append]
  exact first.append second

/-- Behind the code nothing is laid out for trees. -/
theorem andThen (first : LaidFor trees loops s (codeSkeleton code) s₁)
    (second : LaidFor [] loops s₁ (codeSkeleton more) s₂) :
    LaidFor trees loops s (codeSkeleton (code ++ more)) s₂ := by
  have all := first.both second
  rwa [List.append_nil] at all

theorem bare (none : codeSkeleton code = []) : LaidFor [] loops s (codeSkeleton code) s := by
  rw [none]
  exact nil

theorem stmt {stmt : Stmt} (inside : LaidFor trees loops s one s₁) (whole : stmt.skeleton none = one) :
    LaidFor trees loops s (codeSkeleton [stmt]) s₁ := by
  rw [codeSkeleton_singleton, whole]
  exact inside

end LaidFor

/-! ## Progress -/

theorem Progress.supply_useField (p : Progress) (use : FieldUse) :
    (p.useField use).scope.supply = p.scope.supply := by
  unfold Progress.useField
  split <;> rfl

theorem Kind.supply_noteUse (kind : Kind Tree) (type : JavaType) (p : Progress) :
    (kind.noteUse type p).scope.supply = p.scope.supply := by
  cases kind with
  | field => exact p.supply_useField _
  | _ => rfl

theorem Progress.supply_enter (p : Progress) (binding : Option Param) :
    (p.enter binding).scope.supply = p.scope.supply := by
  unfold Progress.enter
  split
  · rfl
  · split
    · rfl
    · next reserved => exact Scope.supply_of_reserve? reserved

theorem Progress.supply_leave (p q : Progress) (binding : Option Param) :
    (p.leave binding q).scope.supply = q.scope.supply := by
  unfold Progress.leave
  split
  · rfl
  · split <;> rfl

/-- A flag is a temporary. -/
theorem laid_flagCode (q : Progress) (redo : Bool) (loops : List EnclosingLoop) :
    Laid loops q.takeLabels.scope.supply (codeSkeleton (q.flagCode redo))
      (q.takeLabels.takeFlag redo).scope.supply [] := by
  cases redo with
  | false => exact .nil
  | true => exact .temp

/-! ## Code -/

theorem skeleton_put (dest : Destination) (value : Expr) : codeSkeleton (dest.put value) = [] := by
  cases dest <;> rfl

theorem skeleton_copyCode (copied : String) (name : Option String) :
    codeSkeleton (copyCode copied name) = [] := by
  cases name <;> rfl

theorem skeleton_loopStmt (checkFirst : Bool) (test : Test) (body : Code) (label : Option String) :
    (loopStmt checkFirst test body).skeleton label = [.node (.loop label) (codeSkeleton body)] := by
  cases checkFirst <;> rfl

theorem Kind.isSimple_of_build? {kind : Kind Tree} {type : JavaType} {exprs : List Expr} {expr : Expr}
    (built : kind.build? ctx type exprs = some expr) : kind.isSimple = true := by
  cases kind with
  | loop | forEach | jump | rescue => cases built
  | _ => rfl

/-- A clause handles exceptions of each of its types, and of one at least. -/
theorem RescueClause.flatMap_types (clause : RescueClause Tree) :
    (if clause.types.isEmpty then [anyException] else clause.types).flatMap
      (fun _ => clause.body.toList) = clause.handling := by
  unfold RescueClause.handling
  cases clause.types with
  | nil => rfl
  | cons first rest =>
    have many : max 1 (first :: rest).length = (first :: rest).length :=
      Nat.max_eq_right (Nat.succ_le_succ (Nat.zero_le _))
    rw [many, ← List.map_const', List.flatMap_def]
    rfl

/-! ## Tasks -/

/-- The skeleton of handlers. -/
def Yield.skeleton : Yield → List Skeleton
  | .handlers added => handlersSkeleton added
  | _ => []

/-- What a task lays out. A pass evaluates the condition of its loop again, which is an expression or held
    in a variable. -/
def Task.Lays (loops : List EnclosingLoop) (s : Supply) (code : Code) (yield : Yield) (s' : Supply) :
    Task → Prop
  | .own kind type => LaidFor [.node kind type] loops s (codeSkeleton code) s'
  | .operand _ tree | .temp tree | .freshTemp tree | .kept tree | .statement tree _ =>
    LaidFor [tree] loops s (codeSkeleton code) s'
  | .operands _ trees | .effects trees | .seq trees _ _ => LaidFor trees loops s (codeSkeleton code) s'
  | .maybe tree _ | .arm tree _ _ => LaidFor tree.toList loops s (codeSkeleton code) s'
  | .receiver target => LaidFor target.toList loops s (codeSkeleton code) s'
  | .guarded body otherwise _ _ =>
    LaidFor (body.toList ++ otherwise.toList) loops s (codeSkeleton code) s'
  | .clauses handled _ _ => LaidFor (handled.flatMap RescueClause.handling) loops s yield.skeleton s'
  | .handlers types _ _ body _ _ => LaidFor (types.flatMap fun _ => body.toList) loops s yield.skeleton s'
  | .loop spec => ∀ type, LaidFor [.node (.loop spec) type] loops s (codeSkeleton code) s'
  | .forEach spec => ∀ type, LaidFor [.node (.forEach spec) type] loops s (codeSkeleton code) s'
  | .pass spec inner flag held => (held = none → ∃ known, spec.cond.isExpression known = true) →
    ∀ loop : EnclosingLoop, loop.redoFlag = flag → ∃ front inside back s₁ s₂,
      codeSkeleton code = front ++ .node (loop.bodyMark inner) inside :: back ∧
      LaidFor spec.pre.toList loops s front s₁ ∧ LaidFor spec.body.toList loops s₁ inside s₂ ∧
      LaidFor (spec.post.toList ++ [spec.cond]) loops s₂ back s'
  | .labeledBody body inner flag => ∀ loop : EnclosingLoop, loop.redoFlag = flag → ∃ inside,
      codeSkeleton code = [.node (loop.bodyMark inner) inside] ∧ LaidFor body.toList loops s inside s'
  | .within _ task => task.Lays loops s code yield s'

/-- A labeled loop, from its passes. -/
theorem laid_labeledLoop {spec : Loop Tree} {q : Progress} {test : Test} {pass : Code} {held : Option String}
    (lays : (Task.pass spec q.nextLabels.inner (q.flag spec.redo) held).Lays
      (⟨.labeledWhile, some q.nextLabels, q.flag spec.redo⟩ :: ctx.loops)
      (q.takeLabels.takeFlag spec.redo).scope.supply pass .done p'.scope.supply)
    (tested : held = none → ∃ known, spec.cond.isExpression known = true) :
    ∃ before body after, Tree.AllNest spec.pre.toList before ∧ Tree.AllNest spec.body.toList body ∧
      Tree.AllNest (spec.post.toList ++ [spec.cond]) after ∧
      Laid ctx.loops q.scope.supply (codeSkeleton [.labeled q.nextLabels.outer
        (loopStmt spec.checkFirst test (q.flagCode spec.redo ++ pass))]) p'.scope.supply
        [.labeled before body after] := by
  let loop : EnclosingLoop := ⟨.labeledWhile, some q.nextLabels, q.flag spec.redo⟩
  obtain ⟨front, inside, back, s₁, s₂, shape, pre, body, post⟩ := lays tested loop rfl
  obtain ⟨before, comesBefore, pre⟩ := pre
  obtain ⟨nest, comes, body⟩ := body
  obtain ⟨after, comesAfter, post⟩ := post
  have started := (laid_flagCode q spec.redo (loop :: ctx.loops)).append pre
  refine ⟨before, nest, after, comesBefore, comes, comesAfter, ?_⟩
  rw [codeSkeleton_singleton, Stmt.skeleton, tagged, skeleton_loopStmt, codeSkeleton_append, shape,
    ← List.append_assoc]
  exact .labeled (s := q.scope.supply) rfl started body post

/-- The skeleton of a task's code is laid out for its trees. -/
theorem Lowers.laid {task : Task} {yield : Yield} (lowers : Lowers ctx p task code yield p') :
    task.Lays ctx.loops p.scope.supply code yield p'.scope.supply := by
  induction lowers with
  | own _ built ih =>
    rw [Kind.supply_noteUse]
    exact ih.simple (Kind.isSimple_of_build? built) _
  | inlineOwn _ _ ih | inlineTemp _ ih | valueInline _ _ ih | valueTemp _ _ ih | fixedInline _ _ ih
  | fixedTemp _ ih | keptInline _ _ ih | keptTemp _ ih | freshTemp _ ih | tempAssign _ ih
  | receiverValue _ ih | seqLast _ ih | maybeSome _ ih | armSome _ ih => exact ih
  | operandsNil | effectsNil | maybeNone | clausesNil | handlersNil | receiverOwn | receiverNamed =>
    exact .nil
  | operandsCons _ _ ih₁ ih₂ | effectsCons _ _ ih₁ ih₂ | seqCons _ _ ih₁ ih₂ | guardedElse _ _ ih₁ ih₂ =>
    exact ih₁.both ih₂
  | freshInline _ _ ih | tempLoop _ _ ih => exact ih.andThen (LaidFor.temp.stmt rfl)
  | tempStore _ ih => exact LaidFor.temp.append ih
  | @discardValue _ _ kind _ _ _ value _ ih =>
    refine LaidFor.simple ?_ _ ih
    cases kind with
    | loop | forEach | jump | rescue => cases value
    | _ => rfl
  | storeValue _ _ ih => exact ih.andThen (.bare rfl)
  | @putEffect _ _ _ _ dest _ _ _ _ _ ih => exact ih.andThen (.bare (by cases dest <;> rfl))
  | @assignKnown _ _ _ _ _ dest _ _ _ _ _ ih =>
    exact .simple rfl _ (ih.andThen (.bare (skeleton_put dest _)))
  | @assignNew _ _ name _ _ dest _ _ q _ _ reserved ih =>
    rw [show Scope.supply _ = _ from Scope.supply_of_reserve? reserved]
    exact .simple rfl _ (ih.andThen ((LaidFor.declared name).append (.bare (skeleton_put dest _))))
  | @setField _ p _ _ _ _ dest _ _ _ _ ih =>
    rw [Progress.supply_useField] at ih
    exact .simple rfl _ (ih.andThen (.bare (skeleton_put dest _)))
  | voidCall _ _ _ ih₁ ih₂ => exact .simple rfl _ (ih₁.both (ih₂.andThen (.bare rfl)))
  | condElse _ _ _ ih₁ ih₂ ih₃ => exact .simple rfl _ (ih₁.both ((ih₂.append ih₃).stmt rfl))
  | condThen _ _ ih₁ ih₂ =>
    refine .simple rfl _ ?_
    rw [Kind.children, Option.toList_none, List.append_nil]
    exact ih₁.both (ih₂.stmt rfl)
  | andStore _ _ ih₁ ih₂ => exact .simple rfl _ (ih₁.both (ih₂.stmt (List.append_nil _)))
  | orStore _ _ ih₁ ih₂ | logicalDiscard _ _ _ ih₁ ih₂ =>
    exact .simple rfl _ (ih₁.both (ih₂.stmt rfl))
  | seq _ ih | retStore _ _ ih | raiseStore _ ih => exact .simple rfl _ ih
  | @seqNil _ _ _ dest | @armNone _ _ dest _ => exact .bare (skeleton_put dest _)
  | jump around jumps =>
    refine ⟨_, Tree.Nests.jump.single, ?_⟩
    rw [around]
    cases jumps with
    | «break» => exact .jump .break
    | nextPlain plain => exact .jump (.nextPlain plain)
    | nextLabeled labeled => exact .jump (.nextLabeled labeled)
    | redo labeled flagged => exact .jump (.redo labeled (by rw [flagged]; rfl))
  | retNone => exact .simple rfl _ .nil
  | retVoid _ _ ih | retInline _ _ _ ih | raiseInline _ _ ih => exact .simple rfl _ (ih.andThen (.bare rfl))
  | @print _ _ _ _ _ dest _ _ _ _ ih => exact .simple rfl _ (ih.andThen (.bare (skeleton_put dest _)))
  | guardedPlain _ ih =>
    show LaidFor (_ ++ []) _ _ _ _
    rw [List.append_nil]
    exact ih
  | rescueNone _ ih =>
    obtain ⟨nest, comes, laid⟩ := ih
    exact ⟨nest, (Tree.Nests.rescue (by simpa using comes)).single, laid⟩
  | rescue _ _ _ ih₁ ih₂ =>
    obtain ⟨nest, comes, laid⟩ := LaidFor.append ih₁ ih₂
    exact LaidFor.stmt ⟨nest, (Tree.Nests.rescue comes).single, laid⟩ rfl
  | @clausesCons _ _ clause _ _ _ _ _ _ _ _ _ ih₁ ih₂ =>
    have all := LaidFor.append ih₁ ih₂
    rw [clause.flatMap_types] at all
    show LaidFor _ _ _ (handlersSkeleton _) _
    rw [handlersSkeleton_append]
    exact all
  | @handlersNamed _ _ _ _ name _ _ _ _ _ _ _ _ _ ih₁ ih₂ =>
    exact (LaidFor.declared name).append (LaidFor.append ih₁ ih₂)
  | @handlersFresh _ p _ _ name _ _ _ _ _ _ _ _ _ _ _ ih₁ ih₂ =>
    refine LaidFor.temp.append (LaidFor.append ?_ ih₂)
    exact (LaidFor.bare (skeleton_copyCode p.nextTemp name)).both ih₁
  | ensure _ _ ih₁ ih₂ => exact .simple rfl _ (LaidFor.stmt (ih₁.append ih₂) rfl)
  | @loop _ _ _ _ dest _ _ _ ih | @forEach _ _ _ _ dest _ _ _ ih =>
    exact (ih _).andThen (.bare (skeleton_put dest _))
  | plainLoop redo post placed _ _ _ _ ih₁ ih₂ ih₃ ih₄ =>
    intro type
    obtain ⟨start, comes, init⟩ := ih₁
    obtain ⟨inside, comes', pass⟩ := LaidFor.both ih₃ ih₄
    have test := LaidFor.laid_of_isExpression ih₂ placed
    refine ⟨_, (Tree.Nests.plainLoop redo post ⟨_, placed⟩ comes comes').single, ?_⟩
    rw [codeSkeleton_append, codeSkeleton_append, codeSkeleton_singleton, skeleton_loopStmt]
    exact init.append (test.append (.plain rfl pass))
  | @testedLoop _ _ spec _ _ _ _ _ _ _ labeled _ _ placed _ ih₁ ih₂ ih₃ =>
    intro type
    obtain ⟨start, comes, init⟩ := ih₁
    have test := LaidFor.laid_of_isExpression ih₂ placed
    have none : Tree.AllNest (if spec.checkFirst then [spec.cond] else []) [] := by
      split
      · exact (Tree.nests_nil_of_isExpression _ _ placed).single
      · exact .nil
    obtain ⟨before, body, after, pre, pass, post, loop⟩ := laid_labeledLoop ih₃ fun _ => ⟨_, placed⟩
    have needed : _ ∨ _ ∨ ∃ known, spec.cond.isExpression known = false :=
      labeled.imp_right (.imp_right (⟨_, ·⟩))
    refine ⟨_, (Tree.Nests.labeledLoop needed (comes.append none) pre pass post).single, ?_⟩
    rw [codeSkeleton_append, codeSkeleton_append, List.append_nil]
    exact init.append (test.append loop)
  | heldLoop _ unplaced _ _ ih₁ ih₂ ih₃ =>
    intro type
    obtain ⟨start, comes, init⟩ := ih₁
    obtain ⟨front, comes', first⟩ := ih₂
    obtain ⟨before, body, after, pre, pass, post, loop⟩ := laid_labeledLoop ih₃
      fun unheld => absurd unheld (Option.some_ne_none _)
    rw [apply_ite Option.toList] at comes'
    refine ⟨_, (Tree.Nests.labeledLoop (.inr (.inr ⟨_, unplaced⟩)) (comes.append comes') pre pass post).single,
      ?_⟩
    rw [codeSkeleton_append, List.append_assoc]
    refine init.append (Laid.temp.append ?_)
    rw [codeSkeleton_append]
    exact first.append loop
  | @pass ctx _ spec _ _ held _ _ _ test _ _ p₃ p' _ _ _ _ ih₁ ih₂ ih₃ ih₄ =>
    intro tested loop flagged
    obtain ⟨inside, shape, body⟩ := ih₂ loop flagged
    have cond : LaidFor [spec.cond] ctx.loops p₃.scope.supply (codeSkeleton test) p'.scope.supply := by
      cases held with
      | none =>
        obtain ⟨known, expression⟩ := tested rfl
        exact LaidFor.add_expression ih₄ expression
      | some name => exact ih₄
    refine ⟨_, inside, _, _, _, ?_, ih₁, body, LaidFor.append ih₃ cond⟩
    rw [codeSkeleton_append, codeSkeleton_append, shape, codeSkeleton_append]
    rfl
  | @labeledBody _ _ _ _ flag code _ _ ih =>
    intro loop flagged
    refine ⟨codeSkeleton code, ?_, ih⟩
    unfold EnclosingLoop.bodyMark
    rw [flagged, codeSkeleton_singleton]
    cases flag <;> rfl
  | @plainElements _ _ spec _ _ _ _ _ redo _ _ _ ih₁ ih₂ =>
    intro type
    obtain ⟨start, comes, iterated⟩ := ih₁
    obtain ⟨inside, comes', pass⟩ := ih₂
    refine ⟨_, (Tree.Nests.plainForEach redo comes comes').single, ?_⟩
    rw [codeSkeleton_append, codeSkeleton_singleton]
    exact iterated.append (.plain rfl ((Laid.declared spec.var).append pass))
  | copiedElements redo _ _ _ ih₁ ih₂ =>
    intro type
    obtain ⟨start, comes, iterated⟩ := ih₁
    obtain ⟨inside, comes', pass⟩ := ih₂
    refine ⟨_, (Tree.Nests.plainForEach redo comes comes').single, ?_⟩
    rw [codeSkeleton_append, codeSkeleton_singleton]
    exact iterated.append (.plain rfl (Laid.temp.append pass))
  | @labeledElements _ _ spec _ _ _ q _ redo _ _ _ ih₁ ih₂ =>
    intro type
    obtain ⟨start, comes, iterated⟩ := ih₁
    obtain ⟨inside, shape, nest, comes', pass⟩ := ih₂ ⟨.labeledForEach, q.nextLabels, q.nextTemp⟩ rfl
    refine ⟨_, (Tree.Nests.labeledForEach redo comes comes').single, ?_⟩
    rw [codeSkeleton_append]
    refine iterated.append ?_
    show Laid _ _ [.node (.loop _) ([.node (.declares spec.var) [], _] ++ codeSkeleton _)] _ _
    rw [shape]
    exact .labeled rfl ((Laid.declared spec.var).append .temp) pass .nil
  | @labeledCopies _ _ spec _ _ _ q _ redo _ _ _ ih₁ ih₂ =>
    intro type
    obtain ⟨start, comes, iterated⟩ := ih₁
    obtain ⟨inside, shape, nest, comes', pass⟩ := ih₂ ⟨.labeledForEach, q.nextLabels, q.takeName.nextTemp⟩ rfl
    refine ⟨_, (Tree.Nests.labeledForEach redo comes comes').single, ?_⟩
    rw [codeSkeleton_append]
    refine iterated.append ?_
    show Laid _ _ [.node (.loop _) ([.node (.declares q.nextTemp) [], _] ++ codeSkeleton _)] _ _
    rw [shape]
    exact .labeled rfl (Laid.temp.append .temp) pass .nil
  | within _ ih =>
    rw [Progress.supply_enter] at ih
    rw [Progress.supply_leave]
    exact ih

/-! ## Runs -/

/-- All that the computation lays out is laid out for the trees. -/
def Lower.Lays {α : Type} (m : Lower α) (trees : List Tree) : Prop :=
  ∀ ⦃ctx p code a p'⦄, Ends m ctx p code a p' →
    LaidFor trees ctx.loops p.scope.supply (codeSkeleton code) p'.scope.supply

structure Tree.Lays (tree : Tree) : Prop where
  toExpr : Lower.Lays tree.part.toExpr [tree]
  statement : ∀ dest, Lower.Lays (tree.part.toStatement dest) [tree]

theorem Tree.lays (tree : Tree) : tree.Lays where
  toExpr _ _ _ _ _ ends := (tree.derives.toExpr ends).laid
  statement dest _ _ _ _ _ ends := (tree.derives.statement dest ends).laid

end JavaBackend
