import JavaBackend.Proofs.Locals.InStep

/-!
# The scope of variables in lowered code

The code of a tree assigns only to visible variables if and only if the walk through the tree says so
(`Lowers.inStep`). The induction is over the rules of lowering.
-/

namespace JavaBackend

open Java (Stmt Code Expr Sink Handler Test)
open Java.Stmt

/-! ## The own expression of a node -/

@[simp]
theorem Context.assigned_field (ctx : Context) (name : String) (isStatic : Bool) :
    (ctx.field name isStatic).assigned = [] := by
  cases isStatic <;> rfl

@[simp]
theorem Context.assigned_ownReceiver (ctx : Context) : ctx.ownReceiver.assigned = [] := by
  unfold ownReceiver
  split <;> rfl

theorem Kind.assigned_build? {ctx : Context} {type : JavaType} {kind : Kind Tree} {exprs : List Expr}
    {expr : Expr} (built : kind.build? ctx type exprs = some expr) :
    expr.assigned = kind.assigned?.toList ++ Expr.assignedAll exprs := by
  unfold Kind.build? at built
  split at built <;> cases built <;> simp [Expr.assigned, Expr.assignedAll, Kind.assigned?]

/-- A node that stands in place is gone through operand by operand, and then the variable that it
    assigns to has to be visible. -/
theorem Kind.walk_own {ctx : Context} {type : JavaType} {kind : Kind Tree} {exprs : List Expr}
    {expr : Expr} {names : Names} (built : kind.build? ctx type exprs = some expr)
    (inline : (Tree.node kind type).isInline names.isKnown = true)
    (own : OverAll Word.Own kind.words)
    (known : ∀ name ∈ kind.assigned?, (Walk.each Tree.walk kind.children names).1.isKnown name = true) :
    kind.walk Tree.walk id names =
      ((Walk.each Tree.walk kind.children names).1, (Walk.each Tree.walk kind.children names).2 &&
        seen (Walk.each Tree.walk kind.children names).1.visible kind.assigned?.toList) := by
  have unassigned {walk : Walk} (same : kind.walk Tree.walk id = walk)
      (unassigned : kind.assigned? = none) :
      kind.walk Tree.walk id names =
        ((walk names).1, (walk names).2 && seen (walk names).1.visible kind.assigned?.toList) := by
    rw [same, unassigned, Option.toList_none, seen_nil, Bool.and_true]
  have unchanged (expression : kind.isExpression names.isKnown = true) :
      ∀ tree ∈ kind.children, (tree.walk names).1 = names := fun tree mem =>
    Tree.walk_unchanged (Kind.isExpression_of_mem_children expression tree mem)
  cases kind with
  | assign name value =>
    have named : isOwn name = true := own _ List.mem_cons_self
    simp only [children, Walk.each_singleton] at known ⊢
    simp [walk, Walk.andThen, Walk.assign, known name rfl, assigned?, seen_cons, named]
  | binary op left right =>
    cases logical : op.isLogical with
    | false => exact unassigned (Kind.walk_of_isValue (by simp [isValue, logical])) rfl
    | true =>
      have parts := unchanged (by simpa [Tree.isInline, Tree.kind, logical, Tree.isExpression] using inline)
      have right := parts right (List.mem_cons_of_mem _ List.mem_cons_self)
      have left := parts left List.mem_cons_self
      simp [walk, children, Walk.each, Walk.andThen, Walk.skip, logical, left,
        Walk.block_apply_eq right, assigned?]
  | cond test yes no =>
    have parts := unchanged inline
    simp only [children, List.forall_mem_cons, List.forall_mem_append] at parts
    obtain ⟨test, yes, no⟩ := parts
    have first := Walk.each_unchanged yes
    have second := Walk.each_unchanged no
    simp [walk, children, Walk.each, Walk.each_append, Walk.andThen, test,
      Walk.block_apply_eq first, first, Walk.block_apply_eq second, assigned?]
  | loop | forEach | rescue | ensure => cases built
  | _ => exact unassigned rfl rfl

theorem Names.Stands.isInline_eq {names : Names} {p : Progress} {visible : List String}
    (stands : names.Stands p visible) {tree : Tree} (own : tree.Over Word.Own) :
    tree.isInline names.isKnown = tree.isInline p.scope.isLocal := by
  have same := stands.isExpression_eq own
  obtain ⟨kind, type⟩ := tree
  cases kind with
  | assign name value =>
    have named := (Tree.over_node.mp own).2.1
    exact stands.known name (named _ List.mem_cons_self)
  | binary => simp only [Tree.isInline, Tree.kind, same]
  | cond => exact same
  | _ => rfl

/-- The own expression of a node, from its operands. -/
theorem InStep.own {ctx : Context} {p q : Progress} {visible : List String} {code : Code}
    {kind : Kind Tree} {type : JavaType} {exprs : List Expr} {expr : Expr} {names : Names}
    (operands : InStep p visible code (.values exprs) q (Walk.each Tree.walk kind.children names))
    (built : kind.build? ctx type exprs = some expr)
    (inline : (Tree.node kind type).isInline p.scope.isLocal = true)
    (ofWords : (Tree.node kind type).Over Word.Own) (stands : names.Stands p visible) :
    InStep p visible code (.value expr) (kind.noteUse type q) ((Tree.node kind type).walk names) := by
  have own := (Tree.over_node.mp ofWords).2.1
  have noted : ∀ name, (kind.noteUse type q).scope.isLocal name = q.scope.isLocal name := by
    intro name
    cases kind with
    | field => unfold Kind.noteUse Progress.useField; dsimp only; split <;> rfl
    | _ => rfl
  have known : ∀ name ∈ kind.assigned?, isOwn name = true ∧ q.scope.isLocal name = true := by
    intro name found
    cases kind with
    | assign => cases found; exact ⟨own _ List.mem_cons_self, operands.grows _ inline⟩
    | _ => cases found
  have assigned := Kind.assigned_build? built
  have behind := operands.behind
  rw [Tree.walk_node, Kind.walk_own built (stands.isInline_eq ofWords ▸ inline) own fun name found =>
    (behind.known name (known name found).1).trans (known name found).2]
  exact {
    behind := ⟨fun name own => (behind.known name own).trans (noted name).symm, behind.visible⟩
    checked := by
      have visibly : seen _ kind.assigned?.toList = seen _ kind.assigned?.toList :=
        seen_congr fun name _ own => behind.visible name own
      rw [Yield.inScope_value, assigned, seen_append, visibly, ← operands.checked,
        Yield.inScope_values]
      ac_rfl
    fresh := operands.fresh
    assigned := fun name mem own => by
      rw [Yield.assigned, assigned, List.mem_append, Option.mem_toList] at mem
      rw [noted]
      rcases mem with mem | mem
      · exact (known name mem).2
      · exact operands.assigned name mem own
    grows := fun name found => (noted name).trans (operands.grows name found) }

/-! ## The rules -/

theorem hidden_flag (p : Progress) (redo : Bool) :
    ∀ name ∈ p.flag redo, (Word.var name).Hidden := by
  intro name found
  cases redo <;> cases found
  exact hidden_nextTemp p

section

variable {ctx : Context} {p q p' : Progress} {task : Task} {code : Code} {yield : Yield}
  {visible : List String} {out : Names × Bool} {expr : Expr}

theorem InStep.single (inStep : InStep p visible code (.value expr) p' out) :
    InStep p visible code (.values [expr]) p' out :=
  inStep.give (by simp [Expr.assignedAll]) (by simp [Yield.assigned, Expr.assignedAll])

theorem InStep.twice (inStep : InStep p visible code (.value expr) p' out) :
    InStep p visible code (.values [expr, expr]) p' out :=
  inStep.give (by simp [Expr.assignedAll]) (by simp [Yield.assigned, Expr.assignedAll])

theorem InStep.assignKnown {name : String} {dest : Destination}
    (front : InStep p visible code (.value expr) q out) (own : isOwn name = true)
    (known : q.scope.isLocal name = true) (hidden : OverAll Word.Hidden dest.words) :
    InStep p visible (code ++ .store (.into name) expr :: dest.put (.var name)) .done q
      ((Walk.assign name out.1).1, out.2 && (Walk.assign name out.1).2) := by
  have found : out.1.isKnown name = true := (front.behind.known name own).trans known
  rw [Walk.assign, if_pos found]
  refine front.append (.plain front.behind (by simp) ?_)
  have same : (visible ++ codeDeclares code).contains name = out.1.visible.contains name := by
    rw [Bool.eq_iff_iff, List.contains_iff_mem, List.contains_iff_mem, front.behind.visible name own]
  have kept : codeInScope (visible ++ codeDeclares code) (dest.put (.var name)) = true :=
    codeInScope_put hidden rfl
  simp only [codeInScope, inScope, declares, Sink.assigned, List.singleton_append, List.append_nil,
    kept, seen_cons, own, same, Yield.inScope_value]
  simp [Bool.and_comm]

/-- A variable that exists already gets the value that a heading binds. -/
theorem InStep.copy {name : String} {names : Names} (copied : String) (stands : names.Stands p visible)
    (own : isOwn name = true) (known : p.scope.isLocal name = true) :
    InStep p visible [.store (.into name) (.var copied)] .done p (Walk.assign name names) := by
  have value : InStep p visible [] (.value (.var copied)) p (names, true) := .nil stands rfl rfl
  have stored : InStep p visible
      ([] ++ .store (.into name) (.var copied) :: Destination.discard.put (.var name)) _ _ _ :=
    value.assignKnown own known .nil
  exact stored

theorem InStep.assignNew {name : String} {type stored : JavaType} {scope : Scope} {dest : Destination}
    (front : InStep p visible code (.value expr) q out) (own : isOwn name = true)
    (reserved : q.scope.reserve? name stored = some scope) (hidden : OverAll Word.Hidden dest.words) :
    InStep p visible (code ++ .declare type name expr :: dest.put (.var name)) .done
      { q with scope := scope } ((Walk.assign name out.1).1, out.2 && (Walk.assign name out.1).2) := by
  have unknown : out.1.isKnown name = false :=
    (front.behind.known name own).trans (Scope.unknown_of_reserve? reserved)
  rw [Walk.assign, unknown, if_neg Bool.false_ne_true]
  have declared : InStep _ _ [.declare type name expr] _ _ _ := .declare front.behind reserved expr
  have stored := declared.use (codeDeclares_put dest (.var name)) (codeInScope_put hidden rfl)
  rw [Bool.and_true]
  exact front.appendUse stored

/-- The code of a task assigns only to visible variables if and only if the walk through its trees
    says so. -/
theorem Lowers.inStep (lowers : Lowers ctx p task code yield p')
    (around : OverAll Word.Hidden ctx.words) (ofWords : task.Spans Word.Own Word.Hidden)
    (ready : task.Ready p.scope.isLocal) {names : Names} {visible : List String}
    (stands : names.Stands p visible) :
    InStep p (task.around visible) code yield p' (task.walk names) := by
  induction lowers generalizing names visible with
  | own _ built ih =>
    exact (ih around ofWords.children trivial stands).own built ready ofWords stands
  | inlineOwn placed _ ih => exact ih around ofWords placed stands
  | inlineTemp _ ih | valueInline _ _ ih | valueTemp _ _ ih | fixedInline _ _ ih
  | fixedTemp _ ih | keptInline _ _ ih | keptTemp _ ih | freshTemp _ ih =>
    exact ih around ofWords trivial stands
  | operandsNil | effectsNil | maybeNone | handlersNil | clausesNil => exact .nil stands rfl rfl
  | operandsCons _ _ ih₁ ih₂ =>
    obtain ⟨first, rest⟩ := List.forall_mem_cons.mp ofWords
    have front := ih₁ around first trivial stands
    exact front.single.both (ih₂ around rest trivial front.behind)
  | freshInline _ _ ih =>
    have front := ih around ofWords trivial stands
    exact (front.appendUse (.declareTemp front.behind _ _)).giveVar _
  | tempLoop _ _ ih =>
    have front := ih around ⟨ofWords, .nil⟩ trivial stands
    exact (front.appendUse (.declareTemp front.behind _ _)).giveVar _
  | tempAssign _ ih => exact (ih around ⟨ofWords, .nil⟩ trivial stands).giveVar _
  | @tempStore _ p tree _ _ _ ih =>
    have declared := InStep.declareTemp stands tree.type.held (.literal tree.type.held.defaultValue)
    have sink : OverAll Word.Hidden (Destination.store (.into p.nextTemp)).words :=
      OverAll.cons_iff.mpr ⟨hidden_nextTemp p, .nil⟩
    have stored := ih around ⟨ofWords, sink⟩ trivial declared.behind
    exact (declared.andThen stored).giveVar _
  | discardValue value _ ih =>
    have front := ih around ofWords.1.children trivial stands
    rwa [Task.walk, Tree.walk_node, Kind.walk_of_isValue value]
  | storeValue value _ ih =>
    have front := ih around ofWords.1 (Kind.isInline_of_isValue value _ _) stands
    refine front.use rfl ?_
    have sunk := seen_sink ofWords.2
    simp [sunk]
  | putEffect effect _ ih =>
    have front := ih around ofWords.1 (Kind.isInline_of_isEffect effect _ _) stands
    refine front.use (by simp) ?_
    simp [codeInScope, inScope_putEffect ofWords.2]
  | assignKnown _ known ih =>
    obtain ⟨-, own, children⟩ := Tree.over_node.mp ofWords.1
    have front := ih around (children _ List.mem_cons_self) trivial stands
    rw [Task.walk, Tree.walk_node]
    exact front.assignKnown (own _ List.mem_cons_self) known ofWords.2
  | assignNew _ reserved ih =>
    obtain ⟨-, own, children⟩ := Tree.over_node.mp ofWords.1
    have front := ih around (children _ List.mem_cons_self) trivial stands
    rw [Task.walk, Tree.walk_node]
    exact front.assignNew (own _ List.mem_cons_self) reserved ofWords.2
  | setField _ ih =>
    have front := ih around (ofWords.1.children _ List.mem_cons_self) trivial (stands.useField _)
    rw [Task.walk, Tree.walk_node]
    show InStep _ _ _ _ _ (Walk.each Tree.walk [_] _)
    rw [Walk.each_singleton]
    exact (front.usePut rfl (by simp) ofWords.2 (by simp)).startAt _ (by simp)
  | @voidCall _ _ receiver _ args _ _ _ _ _ _ _ _ _ _ _ _ _ ih₁ ih₂ =>
    obtain ⟨target, args⟩ := List.forall_mem_append.mp ofWords.1.children
    have front := ih₁ around ⟨target, fun _ _ => trivial⟩ trivial stands
    have behind := ih₂ around args trivial front.behind
    rw [Task.walk, Tree.walk_node]
    show InStep _ _ _ _ _ (Walk.each Tree.walk (_ ++ _) _)
    rw [Walk.each_append, ← List.append_assoc]
    have sunk := seen_sink ofWords.2
    refine (front.both behind).use rfl ?_
    simp [sunk]
    ac_rfl
  | @receiverOwn ctx _ =>
    have none : (if ctx.isStatic then Expr.literal .null else .this).assigned = [] := by
      split <;> rfl
    exact .nil stands (by simp [Expr.assignedAll, none]) (by simp [Yield.assigned, Expr.assignedAll, none])
  | receiverNamed => exact .nil stands rfl rfl
  | receiverValue _ ih =>
    have front := ih around (ofWords.1 _ List.mem_cons_self) trivial stands
    rw [Task.walk, Receiver.toList, Walk.each_singleton]
    exact front.twice
  | @condElse _ _ _ _ _ _ _ _ _ _ expr _ _ _ _ _ _ ih₁ ih₂ ih₃ =>
    obtain ⟨test, yes, no⟩ := Tree.over_cond ofWords.1
    have front := ih₁ around test trivial stands
    have first := ih₂ around ⟨yes, ofWords.2⟩ trivial front.behind
    have second := ih₃ around ⟨no, ofWords.2⟩ trivial (front.behind.close first.behind)
    rw [Task.walk, Tree.walk_node]
    have branch := InStep.ifElse ⟨expr, false⟩ front.behind first second
    exact front.append branch
  | @condThen _ _ _ _ _ _ _ expr _ _ _ _ ih₁ ih₂ =>
    obtain ⟨test, yes, -⟩ := Tree.over_cond ofWords.1
    have front := ih₁ around test trivial stands
    have arm := ih₂ around ⟨yes, .nil⟩ trivial front.behind
    rw [Task.walk, Tree.walk_node, Kind.walk, Option.toList_none, Walk.each, Walk.block_skip,
      Walk.andThen_skip]
    exact front.append (InStep.ifThen ⟨expr, false⟩ front.behind arm)
  | @andStore _ _ _ _ _ _ _ _ expr _ _ _ _ ih₁ ih₂ =>
    obtain ⟨left, right⟩ := ofWords.1.both rfl
    have front := ih₁ around left trivial stands
    have run := ih₂ around ⟨right, ofWords.2⟩ trivial front.behind
    have left := InStep.storeLiteral (front.behind.close run.behind) ofWords.2 (.bool false)
    have branch := InStep.ifElse ⟨expr, false⟩ front.behind run left
    rw [Bool.and_true] at branch
    rw [Task.walk, Tree.walk_node]
    exact front.append branch
  | @orStore _ _ _ _ _ _ _ _ expr _ _ _ _ ih₁ ih₂ =>
    obtain ⟨left, right⟩ := ofWords.1.both rfl
    have front := ih₁ around left trivial stands
    have run := ih₂ around ⟨right, ofWords.2⟩ trivial front.behind
    have left := InStep.storeLiteral front.behind ofWords.2 (.bool true)
    rw [Task.walk, Tree.walk_node]
    exact front.append (InStep.ifElse ⟨expr, false⟩ front.behind left run)
  | @logicalDiscard _ _ op _ _ _ _ _ expr _ _ logical _ _ ih₁ ih₂ =>
    obtain ⟨left, right⟩ := ofWords.1.both rfl
    have front := ih₁ around left trivial stands
    have run := ih₂ around ⟨right, .nil⟩ trivial front.behind
    rw [Task.walk, Tree.walk_node, Kind.walk, if_pos logical]
    exact front.append (InStep.ifThen ⟨expr, op == .or⟩ front.behind run)
  | seq _ ih =>
    have front := ih around ⟨ofWords.1.children, ofWords.2⟩ trivial stands
    rwa [Task.walk, Tree.walk_node]
  | seqNil | armNone => exact (InStep.done stands).put ofWords.2 rfl
  | seqLast _ ih =>
    have front := ih around ⟨ofWords.1 _ List.mem_cons_self, ofWords.2⟩ trivial stands
    rwa [Task.walk, Walk.each_singleton]
  | seqCons _ _ ih₁ ih₂ =>
    obtain ⟨first, rest⟩ := List.forall_mem_cons.mp ofWords.1
    have front := ih₁ around ⟨first, .nil⟩ trivial stands
    exact front.andThen (ih₂ around ⟨rest, ofWords.2⟩ trivial front.behind)
  | effectsCons _ _ ih₁ ih₂ =>
    obtain ⟨first, rest⟩ := List.forall_mem_cons.mp ofWords
    have front := ih₁ around ⟨first, .nil⟩ trivial stands
    exact front.andThen (ih₂ around rest trivial front.behind)
  | maybeSome _ ih | armSome _ ih =>
    have front := ih around ⟨ofWords.1 _ rfl, ofWords.2⟩ trivial stands
    rwa [Task.walk, Option.toList_some, Walk.each_singleton]
  | @jump ctx _ action _ _ code loop others inside jumps =>
    have innermost := Context.over_innermost around inside
    rw [Task.walk, Tree.walk_node]
    cases jumps with
    | «break» | nextPlain _ | nextLabeled _ => exact .plain stands rfl rfl
    | redo labeled flagged =>
      obtain ⟨form, labels, flag⟩ := loop
      cases flagged
      have hidden : OverAll Word.Hidden (Sink.into _).words := (OverAll.append_iff.mp innermost).2
      exact (InStep.storeLiteral stands hidden (.bool true)).useStmt rfl rfl
  | retNone =>
    rw [Task.walk, Tree.walk_node]
    exact .plain stands rfl rfl
  | retVoid _ _ ih =>
    have front := ih around ⟨ofWords.1.children _ List.mem_cons_self, .nil⟩ trivial stands
    rw [Task.walk, Tree.walk_node]
    show InStep _ _ _ _ _ (Walk.each Tree.walk [_] _)
    rw [Walk.each_singleton]
    exact front.useStmt rfl rfl
  | retInline _ _ _ ih | raiseInline _ _ ih =>
    have front := ih around (ofWords.1.children _ List.mem_cons_self) trivial stands
    rw [Task.walk, Tree.walk_node]
    show InStep _ _ _ _ _ (Walk.each Tree.walk [_] _)
    rw [Walk.each_singleton]
    exact front.useStmt rfl rfl
  | retStore _ _ ih | raiseStore _ ih =>
    have front := ih around ⟨ofWords.1.children _ List.mem_cons_self, .nil⟩ trivial stands
    rw [Task.walk, Tree.walk_node]
    show InStep _ _ _ _ _ (Walk.each Tree.walk [_] _)
    rwa [Walk.each_singleton]
  | @print _ _ value _ _ _ _ exprs _ operand ih =>
    have front := ih around ofWords.1.children trivial stands
    rw [Task.walk, Tree.walk_node]
    refine front.usePut rfl ?_ ofWords.2 rfl
    -- there is one operand at most
    cases value with
    | none => cases operand; rfl
    | some value =>
      cases operand with
      | operandsCons _ others => cases others; rfl
  | guardedPlain _ ih =>
    have front := ih around ⟨ofWords.1, ofWords.2.2⟩ trivial stands
    rwa [Task.walk, Option.toList_none, Walk.each, Walk.andThen_skip]
  | guardedElse _ _ ih₁ ih₂ =>
    have front := ih₁ around ⟨ofWords.1, .nil⟩ trivial stands
    have behind := ih₂ around ⟨ofWords.2.1 _ rfl, ofWords.2.2⟩ trivial front.behind
    rw [Task.walk, Option.toList_some, Walk.each_singleton]
    exact front.andThen behind
  | rescueNone _ ih =>
    obtain ⟨body, -, otherwise⟩ := Tree.over_rescue ofWords.1
    rw [Task.walk, Tree.walk_node]
    exact ih around ⟨body, otherwise, ofWords.2⟩ trivial stands
  | @rescue _ _ _ clauses _ _ _ _ _ _ _ some _ _ ih₁ ih₂ =>
    obtain ⟨body, handled, otherwise⟩ := Tree.over_rescue ofWords.1
    have front := ih₁ around ⟨body, otherwise, ofWords.2⟩ trivial stands
    have caught := ih₂ around ⟨handled, ofWords.2⟩ trivial (stands.close front.behind)
    rw [Task.walk, Tree.walk_node, Kind.walk, if_neg (by simpa using some)]
    exact front.tryCatch caught
  | @clausesCons _ p clause _ _ _ _ _ _ _ _ _ ih₁ ih₂ =>
    obtain ⟨first, rest⟩ := List.forall_mem_cons.mp ofWords.1
    have ready : ∀ bound ∈ clause.name, p.scope.isLocal bound = clause.name.any p.scope.isLocal := by
      intro bound found
      rw [Option.mem_def.mp found]
      rfl
    have handled := ih₁ around ⟨⟨fun _ _ => trivial, first.2⟩, ofWords.2⟩ ready stands
    have closed := handled.behind
    rw [codeDeclares_nil, List.append_nil] at closed
    exact handled.handlers (ih₂ around ⟨rest, ofWords.2⟩ trivial closed)
  | @handlersNamed _ p caught rest name body _ _ _ _ q _ _ _ ih₁ ih₂ =>
    obtain ⟨⟨-, named, tree⟩, dest⟩ := ofWords
    have own : isOwn name = true := named name rfl
    have handled := ih₁ around ⟨tree, dest⟩ ⟨ready name rfl, rfl⟩ stands
    have forgotten : q.scope.isLocal name = false := by
      rw [← handled.behind.known name own]
      simp [Task.walk, Walk.within, Names.isKnown]
    have others := ih₂ around ⟨⟨fun _ _ => trivial, named, tree⟩, dest⟩
      (fun _ found => Option.some.inj found ▸ forgotten) (stands.close handled.behind)
    have all := InStep.handler caught name handled others
    have walked := Walk.binding_unknown ((stands.known name own).trans (ready name rfl))
      (Walk.each Tree.walk body.toList)
    rw [Task.walk, Walk.each, Walk.andThen, Walk.handler, Option.elim_some, walked]
    exact all
  | @handlersFresh _ p caught _ name known body _ _ _ _ _ _ taken _ _ ih₁ ih₂ =>
    obtain ⟨⟨-, named, tree⟩, dest⟩ := ofWords
    have inside : names.Stands p.takeName (p.nextTemp :: visible) :=
      stands.takeName.hide (hidden_nextTemp p) (by simp)
    cases name with
    | none =>
      have handled := (ih₁ around ⟨tree, dest⟩ trivial inside).startAt p rfl
      have others := ih₂ around ⟨⟨fun _ _ => trivial, named, tree⟩, dest⟩ (fun _ mem => by cases mem)
        (stands.close handled.behind)
      have all := InStep.handler caught p.nextTemp handled others
      exact all
    | some name =>
      have own : isOwn name = true := named name rfl
      obtain rfl : known = true := by simpa using taken
      have found : p.scope.isLocal name = true := ready name rfl
      have copied := InStep.copy p.nextTemp inside own found
      have handled := (copied.andThen (ih₁ around ⟨tree, dest⟩ trivial copied.behind)).startAt p rfl
      have others := ih₂ around ⟨⟨fun _ _ => trivial, named, tree⟩, dest⟩
        (fun _ same => Option.some.inj same ▸ handled.grows name found) (stands.close handled.behind)
      have all := InStep.handler caught p.nextTemp handled others
      have walked := Walk.binding_known ((stands.known name own).trans found)
        (Walk.each Tree.walk body.toList)
      rw [Task.walk, Walk.each, Walk.andThen, Walk.handler, Option.elim_some, walked]
      exact all
  | @ensure _ _ _ _ _ _ _ _ _ _ _ _ ih₁ ih₂ =>
    obtain ⟨body, cleanup⟩ := ofWords.1.both rfl
    have first := ih₁ around ⟨body, ofWords.2⟩ trivial stands
    have second := ih₂ around ⟨cleanup, .nil⟩ trivial (stands.close first.behind)
    have run := InStep.tryFinally stands first second
    rw [Task.walk, Tree.walk_node]
    exact run
  | loop _ ih =>
    rw [Task.walk, Tree.walk_node]
    exact (ih around ofWords.1.children trivial stands).put ofWords.2 rfl
  | forEach _ ih =>
    obtain ⟨-, own, children⟩ := Tree.over_node.mp ofWords.1
    rw [Task.walk, Tree.walk_node]
    exact (ih around ⟨(OverAll.cons_iff.mp own).1, children⟩ trivial stands).put ofWords.2 rfl
  | @plainLoop _ p spec _ _ _ _ expr p₁ _ _ _ _ post placed init _ _ _ ih₁ ih₂ ih₃ ih₄ =>
    obtain ⟨start, cond, pre, body, -⟩ := Loop.each_of_children ofWords
    have front := ih₁ around ⟨start, .nil⟩ trivial stands
    have tested := ih₂ around cond trivial front.behind
    have entered : OverAll _ (Context.enter _ ⟨.plainWhile, none, none⟩).words :=
      Context.over_enter around .nil
    have opened := ih₃ entered ⟨pre, .nil⟩ trivial tested.behind
    have passed := ih₄ entered ⟨body, .nil⟩ trivial opened.behind
    have run := InStep.loop spec.checkFirst ⟨expr, spec.negative⟩ tested.behind (opened.andThen passed)
    have all := front.andThen (tested.append run)
    have expression := Tree.isExpression_mono front.grows placed
    rw [Task.walk, spec.walk_apply names
      (congrArg not ((front.behind.isExpression_eq cond).trans expression)), Loop.walkRounds,
      Loop.walkPass, post]
    show InStep _ _ _ _ _ ((Walk.each Tree.walk spec.init.toList).andThen
      ((Walk.each Tree.walk [spec.cond]).andThen ((Walk.each Tree.walk spec.pre.toList).andThen
        ((Walk.each Tree.walk spec.body.toList).block.andThen (Walk.skip.andThen Walk.skip))).block) names)
    rw [Walk.each_singleton, Walk.andThen_skip, Walk.andThen_skip, Walk.block_andThen_block]
    exact all
  | @testedLoop _ _ spec code test _ expr p₁ q _ _ _ _ placed _ ih₁ ih₂ ih₃ =>
    obtain ⟨init, cond, -⟩ := Loop.each_of_children ofWords
    have front := ih₁ around ⟨init, .nil⟩ trivial stands
    have tested := ih₂ around cond trivial front.behind
    have flagged := InStep.flagCode tested.behind spec.redo
    have hidden : ∀ name ∈ q.flag spec.redo, (Word.var name).Hidden := hidden_flag q spec.redo
    have entered := over_enter_labeled (fun _ => trivial) around q .labeledWhile hidden
    have passed := ih₃ entered ⟨ofWords, trivial, hidden, by simp⟩ trivial flagged.behind
    have run := InStep.loop spec.checkFirst ⟨expr, spec.negative⟩ tested.behind (flagged.andThen passed)
    have all := front.andThen (tested.append (run.labeled q.nextLabels.outer))
    rw [Task.walk, spec.walk_apply names
      (congrArg not ((front.behind.isExpression_eq cond).trans placed)), Loop.walkRounds]
    show InStep _ _ _ _ _ ((Walk.each Tree.walk spec.init.toList).andThen
      ((Walk.each Tree.walk [spec.cond]).andThen _) names)
    rw [Walk.each_singleton]
    exact all
  | @heldLoop _ _ spec code first _ p₁ q _ _ unplaced _ _ ih₁ ih₂ ih₃ =>
    obtain ⟨init, cond, -⟩ := Loop.each_of_children ofWords
    have front := ih₁ around ⟨init, .nil⟩ trivial stands
    have declared := InStep.declareFlag front.behind
    have hidden : (Word.var p₁.nextTemp).Hidden := hidden_nextTemp p₁
    have sink : OverAll Word.Hidden (Destination.store (.into p₁.nextTemp)).words :=
      OverAll.cons_iff.mpr ⟨hidden, .nil⟩
    have tested := ih₂ around ⟨Loop.over_first cond, sink⟩ trivial declared.behind
    have flagged := InStep.flagCode tested.behind spec.redo
    have flag : ∀ name ∈ q.flag spec.redo, (Word.var name).Hidden := hidden_flag q spec.redo
    have entered := over_enter_labeled (fun _ => trivial) around q .labeledWhile flag
    have passed := ih₃ entered ⟨ofWords, trivial, flag, by simpa using hidden⟩ trivial
      flagged.behind
    have run := InStep.loop spec.checkFirst ⟨.var p₁.nextTemp, spec.negative⟩ tested.behind
      (flagged.andThen passed)
    have all := front.andThen (declared.andThen (tested.andThen (run.labeled q.nextLabels.outer)))
    have conds : (if true && !spec.checkFirst then [] else [spec.cond]) =
        (if spec.checkFirst then some spec.cond else none).toList := by
      cases spec.checkFirst <;> rfl
    rw [Task.walk, spec.walk_apply names
      (congrArg not ((front.behind.isExpression_eq cond).trans unplaced)), Loop.walkRounds,
      Bool.not_false, conds]
    exact all
  | @pass _ _ spec _ _ held _ _ _ _ _ _ _ _ _ _ _ _ ih₁ ih₂ ih₃ ih₄ =>
    obtain ⟨parts, label, flag, again⟩ := ofWords
    obtain ⟨-, cond, pre, body, post⟩ := Loop.each_of_children parts
    have opened := ih₁ around ⟨pre, .nil⟩ trivial stands
    have passed := ih₂ around ⟨body, label, flag⟩ trivial opened.behind
    have ended := ih₃ around ⟨post, .nil⟩ trivial passed.behind
    have tested := ih₄ around (by
      cases held with
      | none => exact ⟨by simp, .nil⟩
      | some name => exact ⟨by simpa using cond, OverAll.cons_iff.mpr ⟨again name rfl, .nil⟩⟩)
      trivial ended.behind
    have all := opened.andThen (passed.andThen (ended.andThen tested))
    cases held <;> exact all
  | labeledBody _ ih =>
    obtain ⟨body, -, flagged⟩ := ofWords
    exact InStep.labeledStmt _ _ stands flagged (ih around ⟨body, .nil⟩ trivial stands)
  | @plainElements _ _ spec _ _ expr q _ _ _ fresh _ ih₁ ih₂ =>
    obtain ⟨iterable, body⟩ := ForEach.each_of_children ofWords.2
    have front := ih₁ around iterable trivial stands
    have entered : OverAll _ (Context.enter _ ⟨.plainForEach, none, none⟩).words :=
      Context.over_enter around .nil
    have passed := ih₂ entered ⟨body, .nil⟩ ⟨fresh, rfl⟩ front.behind
    have all := front.append (InStep.forEach spec.element spec.var expr front.behind passed)
    rw [Task.walk, spec.walk_unknown names ((front.behind.known spec.var ofWords.1).trans fresh)]
    exact all
  | @copiedElements _ _ spec code _ expr q _ _ _ known _ ih₁ ih₂ =>
    obtain ⟨iterable, body⟩ := ForEach.each_of_children ofWords.2
    have front := ih₁ around iterable trivial stands
    have entered : OverAll _ (Context.enter _ ⟨.plainForEach, none, none⟩).words :=
      Context.over_enter around .nil
    have inside : (spec.iterable.walk names).1.Stands q.takeName
        (q.nextTemp :: (visible ++ codeDeclares code)) :=
      front.behind.takeName.hide (hidden_nextTemp q) (by simp [Task.around])
    have copied := InStep.copy q.nextTemp inside ofWords.1 known
    have passed := ih₂ entered ⟨body, .nil⟩ trivial copied.behind
    have all := front.append (InStep.forEach spec.element q.nextTemp expr front.behind
      ((copied.andThen passed).startAt q rfl))
    rw [Task.walk, spec.walk_known names ((front.behind.known spec.var ofWords.1).trans known)]
    exact all
  | @labeledElements _ _ spec code _ expr q _ _ _ fresh _ ih₁ ih₂ =>
    obtain ⟨iterable, body⟩ := ForEach.each_of_children ofWords.2
    have front := ih₁ around iterable trivial stands
    have entered := over_enter_labeled (fun _ => trivial) around q .labeledForEach (hidden_flag q true)
    have declared := InStep.declareFlag front.behind
    have unknown := (declared.behind.known spec.var ofWords.1).symm.trans
      ((front.behind.known spec.var ofWords.1).trans fresh)
    have passed := ih₂ entered ⟨body, trivial, hidden_flag q true⟩
      ⟨unknown, rfl⟩ declared.behind.takeLabels
    have started : InStep (q.takeTemp .boolean)
        ((spec.var :: (visible ++ codeDeclares code)) ++ [q.nextTemp]) _ .done _ _ :=
      passed.startAt _ rfl
    have flagged := started.behindFlag declared.grows
    have run := InStep.forEach spec.element spec.var expr front.behind flagged
    have all := front.append (run.labeled q.nextLabels.outer)
    rw [Task.walk, spec.walk_unknown names ((front.behind.known spec.var ofWords.1).trans fresh)]
    exact all
  | @labeledCopies _ _ spec code _ expr q _ _ _ known _ ih₁ ih₂ =>
    obtain ⟨iterable, body⟩ := ForEach.each_of_children ofWords.2
    have front := ih₁ around iterable trivial stands
    have entered := over_enter_labeled (fun _ => trivial) around q .labeledForEach
      (hidden_flag q.takeName true)
    have inside : (spec.iterable.walk names).1.Stands q.takeName
        (q.nextTemp :: (visible ++ codeDeclares code)) :=
      front.behind.takeName.hide (hidden_nextTemp q) (by simp [Task.around])
    have copied := InStep.copy q.nextTemp inside ofWords.1 known
    have declared := InStep.declareFlag copied.behind
    have passed := ih₂ entered ⟨body, trivial, hidden_flag q.takeName true⟩
      trivial declared.behind.takeLabels
    have rest := declared.andThen (passed.startAt (q.takeName.takeTemp .boolean) rfl)
    have run := InStep.forEach spec.element q.nextTemp expr front.behind
      ((copied.andThen rest).startAt q rfl)
    have all := front.append (run.labeled q.nextLabels.outer)
    rw [Task.walk, spec.walk_known names ((front.behind.known spec.var ofWords.1).trans known)]
    exact all
  | @within _ p binding _ _ _ _ inside ih =>
    cases binding with
    | none => exact ih around ofWords ready stands
    | some binding =>
      obtain ⟨unknown, body⟩ := ready
      have entered : (⟨binding.name :: names.known, binding.name :: names.visible⟩ : Names).Stands
          (p.enter (some binding)) (binding.name :: visible) := by
        have reserved := Scope.reserve?_of_unknown unknown binding.type
        simp only [Progress.enter, reserved]
        exact stands.declare reserved (by simp)
      have inner := ih around ofWords (Task.ready_of_isBody body _) entered
      rw [Task.around_of_isBody body] at inner
      obtain rfl := inside.done_of_isBody body
      have before : (p.enter (some binding)).Knows p.scope.isLocal :=
        Progress.Knows.enter (fun _ known => known) _
      exact {
        behind := inner.behind.leave unknown
        checked := inner.checked
        fresh := fun name mem own => by
          have unknown := inner.fresh name mem own
          rw [Bool.eq_false_iff] at unknown ⊢
          exact fun known => unknown (before name known)
        assigned := List.forall_mem_nil _
        grows := Progress.Knows.leave (fun _ known => known) _
          fun name known => inner.grows name (before name known) }

end

end JavaBackend
