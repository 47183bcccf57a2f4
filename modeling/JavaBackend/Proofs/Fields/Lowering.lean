import JavaBackend.Proofs.Fields.Visits

/-!
# The references of a tree

Lowering a tree notes the references of the tree in the order in which it visits its parts, for its value
or for its effects (`Lowers.noted`). The induction is over the rules of lowering; assignments, the own
expressions of nodes and loops have lemmas of their own.
-/

namespace JavaBackend

open Java (Code Expr)

/-! ## Tasks -/

/-- The trees that a task lowers, in order. -/
def Task.visits : Task → List Visit
  | .own kind type => [.of true (.node kind type)]
  | .operand _ tree | .temp tree | .freshTemp tree | .kept tree => [.of true tree]
  | .operands _ trees => trees.map (.of true)
  | .statement tree dest => [.of dest.wantsValue tree]
  | .effects trees => trees.map (.of false)
  | .maybe tree dest | .arm tree dest _ => tree.toList.map (.of dest.wantsValue)
  | .receiver target => target.toList.map (.of true)
  | .seq nodes _ dest => Visit.ofSeq dest.wantsValue nodes
  | .guarded body otherwise _ dest =>
    body.toList.map (.of (dest.wantsValue && otherwise.isNone)) ++
      otherwise.toList.map (.of dest.wantsValue)
  | .clauses handled _ dest => handled.flatMap (·.visits dest.wantsValue)
  | .handlers types name _ body _ dest =>
    (types.flatMap fun _ => body.toList).map (⟨·, dest.wantsValue, name⟩)
  | .loop spec => [.of false (.node (.loop spec) .void)]
  | .forEach spec => .of true spec.iterable :: spec.body.toList.map (⟨·, false, some spec.var⟩)
  | .pass spec _ _ held =>
    (spec.pre.toList ++ spec.body.toList ++ spec.post.toList).map (.of false) ++
      if held.isSome then [.of true spec.cond] else []
  | .labeledBody body _ _ => body.toList.map (.of false)
  | .within none task => task.visits
  | .within (some binding) task => task.visits.map fun visit => { visit with bound := some binding.name }

/-- What a task takes for granted about the names that are known where it starts. -/
def Task.Granted (isLocal : String → Bool) : Task → Prop
  | .own kind type => (Tree.node kind type).isInline isLocal = true
  | .handlers _ name known _ _ _ => known = true → ∀ bound ∈ name, isLocal bound = true
  | .within _ task => task.isBody = true
  | _ => True

theorem Task.granted_of_isBody {task : Task} (body : task.isBody = true) (isLocal : String → Bool) :
    task.Granted isLocal := by
  cases task with
  | maybe | arm | labeledBody => trivial
  | _ => cases body

theorem Task.visits_of_isBody {task : Task} (body : task.isBody = true) :
    ∃ (trees : List Tree) (wanted : Bool), task.visits = trees.map (.of wanted) := by
  cases task with
  | maybe | arm | labeledBody => exact ⟨_, _, rfl⟩
  | _ => cases body

theorem Task.visits_within (tree : Option Tree) (wanted : Bool) (name : String) :
    (tree.toList.map (Visit.of wanted)).map (fun visit => { visit with bound := some name }) =
      tree.toList.map (⟨·, wanted, some name⟩) :=
  List.map_map

/-! ## Nodes -/

/-- A node that only lowers its parts, and always in the same order. -/
def Kind.isPlain : Kind Tree → Bool
  | .assign _ _ | .field _ _ | .setField _ _ _ | .loop _ => false
  | _ => true

section

variable {void wanted : Bool} {known : Set String} {p q r : Progress} {kind : Kind Tree} {type : JavaType}

theorem Noted.plain (noted : Noted void known (kind.visits void false wanted) p q)
    (plain : kind.isPlain = true) : Noted void known [.of wanted (.node kind type)] p q := by
  have alone : kind.Decides known false ∧ kind.ownNames = [] ∧ kind.references type wanted = [] := by
    cases kind <;> first | exact ⟨trivial, rfl, rfl⟩ | cases plain
  obtain ⟨decided, unnamed, silent⟩ := alone
  refine .node_of_parts decided unnamed ?_
  rw [silent]
  exact noted

/-- The statements of an assignment, a loop or a call are the same whether its value is wanted or not. -/
theorem Noted.of_wanted {type' : JavaType} {wanted' : Bool}
    (noted : Noted void known [.of wanted (.node kind type)] p q)
    (visits : ∀ held, kind.visits void held wanted = kind.visits void held wanted')
    (references : kind.references type wanted = kind.references type' wanted') :
    Noted void known [.of wanted' (.node kind type')] p q := by
  obtain ⟨⟨uses, refers, fields⟩, knows⟩ := noted
  have refers' := (refersAll_singleton.mp refers).of_wanted visits references
  refine ⟨⟨uses, refersAll_singleton.mpr refers', fields⟩, ?_⟩
  rwa [learned_node known kind type' void false wanted', ← visits, ← learned_node known kind type void false]

/-- An assignment, once its value is there. -/
theorem Noted.assign {name : String} {value : Tree} (noted : Noted void known [.of true value] p q)
    (fields : r.fields = q.fields) (own : r.KnowsOwn (learned known [.of true value] ∪ {name})) :
    Noted void known [.of wanted (.node (.assign name value) type)] p r := by
  have decided : (Kind.assign name value).Decides known false := trivial
  have same : {other | other ∈ (Kind.assign name value).ownNames} = ({name} : Set String) := by
    ext other
    simp [Kind.ownNames]
  refine .node decided noted fields ?_
  rw [same]
  exact own

/-- What a node that stands in place visits. -/
theorem Kind.visits_of_build? {ctx : Context} {exprs : List Expr} {expr : Expr}
    (built : kind.build? ctx type exprs = some expr) (void : Bool) :
    kind.visits void false true = kind.children.map (.of true) := by
  cases kind with
  | seq | loop | forEach | rescue | ensure | ret => cases built
  | _ => rfl

/-- The own expression of a node, from its operands. -/
theorem Noted.own {ctx : Context} {exprs : List Expr} {expr : Expr}
    (built : kind.build? ctx type exprs = some expr)
    (ready : (Tree.node kind type).isInline p.scope.isLocal = true) (knows : p.KnowsOwn known)
    (noted : Noted void known (kind.children.map (.of true)) p q) :
    Noted void known [.of true (.node kind type)] p (kind.noteUse type q) := by
  rw [← Kind.visits_of_build? built void] at noted
  cases kind with
  | assign name value =>
    refine noted.assign rfl (noted.known.union fun own => ?_)
    exact (noted.known name own).mpr (.inl ((knows name own).mp ready))
  | field name isStatic =>
    have decided : (Kind.field name isStatic).Decides known false := trivial
    refine .node_of_parts decided rfl ⟨⟨[], .nil, ?_⟩, noted.known.congr fun name _ => ?_⟩
    · exact Progress.fields_useFields_congr noted.fields_eq [⟨_, type, isStatic⟩]
    · exact congrArg (Scope.isLocal · name) (Progress.scope_useFields q [_])
  | setField | loop => cases built
  | _ => exact noted.plain rfl

/-- A loop, whose condition is held in a variable or not. -/
theorem Noted.loop {spec : Loop Tree} (held : Bool) (isLocal : String → Bool)
    (init : Noted void known (spec.init.toList.map (.of false)) p q)
    (same : ∀ name, isOwn name = true → isLocal name = q.scope.isLocal name)
    (decides : held = !spec.cond.isExpression isLocal)
    (rounds : Noted void (learned known (spec.init.toList.map (.of false))) (spec.rounds held) q r) :
    Noted void known [.of wanted (.node (.loop spec) type)] p r := by
  have decided : (Kind.loop spec).Decides known held := by
    refine ⟨isLocal, fun name own => ?_, decides⟩
    rw [same name own]
    exact init.known name own
  exact .node_of_parts decided rfl (init.trans rounds)

theorem Noted.ret {value : Tree} {asked : Bool} (noted : Noted void known [.of asked value] p q)
    (same : asked = !void) : Noted void known [.of wanted (.node (.ret (some value)) type)] p q :=
  (same ▸ noted : Noted void known [.of (!void) value] p q).plain rfl

/-- What is returned is lowered as a part of the return. -/
theorem Noted.of_ret {value : Option Tree}
    (noted : Noted void known [.of wanted (.node (.ret value) type)] p q) :
    Noted void known (value.toList.map (.of !void)) p q := by
  obtain ⟨⟨uses, refers, fields⟩, knows⟩ := noted
  cases refersAll_singleton.mp refers with
  | node decided parts =>
    refine ⟨⟨_, parts, fields⟩, ?_⟩
    rw [learned_node known _ _ void false wanted] at knows
    simpa [Kind.ownNames, Kind.visits] using knows

end

/-! ## The rules -/

variable {ctx : Context} {p p' : Progress} {task : Task} {code : Code} {yield : Yield}

/-- Lowering notes the references of the trees of a task in the order in which it visits them. -/
theorem Lowers.noted (lowers : Lowers ctx p task code yield p')
    (ready : task.Granted p.scope.isLocal) {known : Set String} (knows : p.KnowsOwn known) :
    Noted ctx.returns.isVoid known task.visits p p' := by
  induction lowers generalizing known with
  | own _ built ih => exact (ih trivial knows).own built ready knows
  | inlineOwn placed _ ih => exact ih placed knows
  | inlineTemp _ ih | valueInline _ _ ih | valueTemp _ _ ih | fixedInline _ _ ih | fixedTemp _ ih
  | keptInline _ _ ih | keptTemp _ ih | freshTemp _ ih | receiverValue _ ih | seqLast _ ih
  | maybeSome _ ih | armSome _ ih | labeledBody _ ih => exact ih trivial knows
  | operandsNil | effectsNil | maybeNone | handlersNil | clausesNil | receiverOwn | receiverNamed
  | seqNil | armNone => exact .nil knows
  | operandsCons _ _ ih₁ ih₂ | seqCons _ _ ih₁ ih₂ | effectsCons _ _ ih₁ ih₂ =>
    have first := ih₁ trivial knows
    exact first.trans (ih₂ trivial first.known)
  | freshInline _ _ ih => exact (ih trivial knows).takeTemp _
  | @tempLoop _ _ tree _ _ looped _ ih =>
    obtain ⟨kind, type⟩ := tree
    refine Noted.takeTemp (Noted.of_wanted (ih trivial knows) (fun held => ?_) ?_) _
    all_goals rcases looped with ⟨spec, ⟨⟩⟩ | ⟨spec, ⟨⟩⟩ <;> rfl
  | tempAssign _ ih => exact Noted.of_wanted (ih trivial knows) (fun _ => rfl) rfl
  | tempStore _ ih => exact (ih trivial (knows.takeTemp _)).startAt rfl
  | @discardValue _ _ kind type _ _ value _ ih =>
    have parts := ih trivial knows
    cases kind with
    | binary op left right =>
      have plain : op.isLogical = false := by simpa [Kind.isValue] using value
      refine Noted.plain ?_ rfl
      rw [Kind.visits, plain]
      exact parts
    | field name isStatic =>
      have decided : (Kind.field name isStatic).Decides known false := trivial
      exact .node_of_parts decided rfl parts
    | literal | self | var | unary | isNull | instanceOf | cast | concat | newArray => exact parts.plain rfl
    | _ => cases value
  | storeValue value _ ih => exact ih (Kind.isInline_of_isValue value _ _) knows
  | @putEffect _ _ kind _ dest _ _ _ effect _ ih =>
    have value := ih (Kind.isInline_of_isEffect effect _ _) knows
    cases kind with
    | new | call => exact value.of_wanted (fun _ => rfl) rfl
    | _ => cases effect
  | assignKnown _ isKnown ih =>
    have value := ih trivial knows
    exact value.assign rfl (value.known.union fun _ => isKnown)
  | assignNew _ reserved ih =>
    have value := ih trivial knows
    exact value.assign rfl (value.known.declare reserved)
  | @setField _ p name value isStatic type _ _ _ _ _ ih =>
    have decided : (Kind.setField name value isStatic).Decides known false := trivial
    refine .node_of_parts decided rfl (ih trivial (knows.congr fun name _ => ?_))
    exact congrArg (Scope.isLocal · name) (Progress.scope_useFields p [⟨_, type.held, isStatic⟩])
  | voidCall _ _ _ ih₁ ih₂ =>
    have target := ih₁ trivial knows
    refine Noted.plain ?_ rfl
    rw [Kind.visits, List.map_append]
    exact target.trans (ih₂ trivial target.known)
  | condElse _ _ _ ih₁ ih₂ ih₃ =>
    have test := ih₁ trivial knows
    have yes := ih₂ trivial test.known
    refine Noted.plain ?_ rfl
    rw [Kind.visits, List.map_append]
    exact test.trans (yes.trans (ih₃ trivial yes.known))
  | condThen _ _ ih₁ ih₂ =>
    have test := ih₁ trivial knows
    have yes := ih₂ trivial test.known
    refine Noted.plain ?_ rfl
    rw [Kind.visits, Option.toList_none, List.append_nil]
    exact test.trans yes
  | andStore _ _ ih₁ ih₂ | orStore _ _ ih₁ ih₂ =>
    have left := ih₁ trivial knows
    exact (left.trans (ih₂ trivial left.known)).plain rfl
  | logicalDiscard logical _ _ ih₁ ih₂ =>
    have left := ih₁ trivial knows
    refine Noted.plain ?_ rfl
    rw [Kind.visits, logical]
    exact left.trans (ih₂ trivial left.known)
  | seq _ ih => exact (ih trivial knows).plain rfl
  | jump | retNone => exact (Noted.nil knows).plain rfl
  | retVoid void _ ih => exact (ih trivial knows).ret (by rw [void]; rfl)
  | retInline returns _ _ ih | retStore returns _ ih =>
    exact (ih trivial knows).ret (by rw [returns]; rfl)
  | raiseInline _ _ ih | raiseStore _ ih | print _ ih | forEach _ ih =>
    exact (ih trivial knows).plain rfl
  | guardedPlain _ ih =>
    rw [Task.visits, Option.isNone_none, Bool.and_true]
    exact (List.append_nil _).symm ▸ ih trivial knows
  | guardedElse _ _ ih₁ ih₂ =>
    rw [Task.visits, Option.isNone_some, Bool.and_false]
    have body := ih₁ trivial knows
    exact body.trans (ih₂ trivial body.known)
  | rescueNone _ ih =>
    refine Noted.plain ?_ rfl
    rw [Kind.visits, List.flatMap_nil, List.append_nil]
    exact ih trivial knows
  | rescue _ _ _ ih₁ ih₂ | ensure _ _ ih₁ ih₂ =>
    have body := ih₁ trivial knows
    exact (body.trans (ih₂ trivial body.known)).plain rfl
  | @clausesCons _ p clause _ _ _ _ _ _ _ _ _ ih₁ ih₂ =>
    have granted : clause.name.any p.scope.isLocal = true → ∀ bound ∈ clause.name,
        p.scope.isLocal bound = true := by
      intro isKnown bound found
      rwa [Option.mem_def.mp found] at isKnown
    have first := ih₁ granted knows
    exact first.trans (ih₂ trivial first.known)
  | handlersNamed _ _ ih₁ ih₂ =>
    have first := ih₁ rfl knows
    rw [Task.visits, Task.visits, Task.visits_within] at first
    rw [Task.visits, List.flatMap_cons, List.map_append]
    exact first.trans (ih₂ (fun calls => absurd calls Bool.false_ne_true) first.known)
  | @handlersFresh ctx p _ _ name isKnown body _ dest _ _ q _ taken handled _ ih₁ ih₂ =>
    have first : Noted ctx.returns.isVoid known (body.toList.map (⟨·, dest.wantsValue, name⟩)) p q := by
      cases name with
      | none => exact (ih₁ trivial knows).startAt rfl
      | some name =>
        have found := ready (by simpa using taken) name rfl
        have inside := ih₁ trivial (knows.union fun _ => found)
        exact (inside.bind fun own => (knows name own).mp found).startAt rfl
    rw [Task.visits, List.flatMap_cons, List.map_append]
    exact first.trans (ih₂ (fun isKnown bound found =>
      handled.knows (fun _ before => before) bound (ready isKnown bound found)) first.known)
  | loop _ ih => exact (ih trivial knows).of_wanted (fun _ => rfl) rfl
  | @plainLoop _ p spec _ _ _ _ _ p₁ _ _ _ _ post placed _ _ _ _ ih₁ ih₂ ih₃ ih₄ =>
    have init := ih₁ trivial knows
    have test := ih₂ trivial init.known
    have pre := ih₃ trivial test.known
    have rounds : spec.rounds false = [.of true spec.cond] ++
        (spec.pre.toList.map (.of false) ++ spec.body.toList.map (.of false)) := by
      simp [Loop.rounds, post]
    -- A name of a temporary may be forgotten at the start, but the form is chosen in front of that.
    refine .loop false (fun name => if isOwn name then p₁.scope.isLocal name else p.scope.isLocal name) init
      (fun name own => if_pos own) ?_ (rounds ▸ test.trans (pre.trans (ih₄ trivial pre.known)))
    have later : spec.cond.isExpression
        (fun name => if isOwn name then p₁.scope.isLocal name else p.scope.isLocal name) = true := by
      refine Tree.isExpression_mono (fun name isKnown => ?_) placed
      split
      · next own => exact (init.known name own).mpr (.inl ((knows name own).mp isKnown))
      · exact isKnown
    rw [later]
    rfl
  | @testedLoop _ _ spec _ _ _ _ p₁ _ _ _ _ _ placed _ ih₁ ih₂ ih₃ =>
    have init := ih₁ trivial knows
    have test := ih₂ trivial init.known
    have pass := ih₃ trivial (test.known.takeFlag spec.redo)
    refine .loop false p₁.scope.isLocal init (fun _ _ => rfl) (by rw [placed]; rfl) ?_
    rw [Loop.rounds, List.append_assoc]
    exact test.trans (pass.startAt (by cases spec.redo <;> rfl))
  | @heldLoop _ _ spec _ _ _ p₁ _ _ _ unplaced _ _ ih₁ ih₂ ih₃ =>
    have init := ih₁ trivial knows
    have test := ih₂ trivial (init.known.takeTemp .boolean)
    have pass := ih₃ trivial (test.known.takeFlag spec.redo)
    have first : (if true && !spec.checkFirst then [] else [Visit.of true spec.cond]) =
        (if spec.checkFirst then some spec.cond else none).toList.map (.of true) := by
      cases spec.checkFirst <;> rfl
    refine .loop true p₁.scope.isLocal init (fun _ _ => rfl) (by rw [unplaced]; rfl) ?_
    rw [Loop.rounds, first, List.append_assoc]
    exact (test.trans (pass.startAt (by cases spec.redo <;> rfl))).startAt rfl
  | @pass _ _ spec _ _ held _ _ _ _ _ _ _ _ _ _ _ _ ih₁ ih₂ ih₃ ih₄ =>
    have pre := ih₁ trivial knows
    have body := ih₂ trivial pre.known
    have post := ih₃ trivial body.known
    rw [Task.visits, List.map_append, List.map_append, List.append_assoc, List.append_assoc]
    refine pre.trans (body.trans (post.trans ?_))
    cases held <;> exact ih₄ trivial post.known
  | plainElements _ _ _ _ ih₁ ih₂ =>
    have iterated := ih₁ trivial knows
    rw [Task.visits, ← Task.visits_within]
    exact iterated.trans (ih₂ rfl iterated.known)
  | copiedElements _ _ isKnown _ ih₁ ih₂ =>
    have iterated := ih₁ trivial knows
    have inside := ih₂ trivial (iterated.known.union fun _ => isKnown)
    refine iterated.trans (Noted.bind ?_ fun own => (iterated.known _ own).mp isKnown)
    exact inside.startAt rfl
  | labeledElements _ _ _ _ ih₁ ih₂ =>
    have iterated := ih₁ trivial knows
    rw [Task.visits, ← Task.visits_within]
    exact iterated.trans ((ih₂ rfl (iterated.known.takeFlag true)).startAt rfl)
  | @labeledCopies _ _ _ _ _ _ q _ _ _ isKnown _ ih₁ ih₂ =>
    have iterated := ih₁ trivial knows
    have entered : q.takeName.KnowsOwn _ := iterated.known.union fun _ => isKnown
    refine iterated.trans (Noted.bind ?_ fun own => (iterated.known _ own).mp isKnown)
    exact (ih₂ trivial (entered.takeFlag true)).startAt rfl
  | @within _ p binding inside _ _ q _ ih =>
    have granted := Task.granted_of_isBody ready
    obtain ⟨trees, wanted, same⟩ := Task.visits_of_isBody ready
    cases binding with
    | none => exact ih (granted _) knows
    | some binding =>
      obtain ⟨name, bound⟩ := binding
      rw [Task.visits, same, List.map_map]
      rw [same] at ih
      cases reserved : p.scope.reserve? name bound with
      | none =>
        have isKnown : p.scope.isLocal name = true := by
          rw [← Bool.not_eq_false]
          intro unknown
          cases reserved.symm.trans (Scope.reserve?_of_unknown unknown bound)
        simp only [Progress.enter, Progress.leave, reserved] at ih ⊢
        have noted := ih (granted _) (knows.union fun _ => isKnown)
        exact noted.bind fun own => (knows name own).mp isKnown
      | some scope =>
        simp only [Progress.enter, Progress.leave, reserved] at ih ⊢
        have noted := ih (granted _) (knows.declare reserved)
        refine (noted.release fun own mem => ?_).startAt rfl
        cases (Scope.unknown_of_reserve? reserved).symm.trans ((knows name own).mpr mem)

end JavaBackend
