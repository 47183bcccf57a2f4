import JavaBackend.Proofs.Lowering.Misplaced
import JavaBackend.Proofs.Lowering.Accounts

/-!
# Trees that are refused

The first misplaced jump of a tree decides how the tree is lowered: the variables, the supplies of names
and the way in which the value is asked for have no part in it. That is `Tree.judged`: the verdict is an
account of lowering (`judging`), and jumps and the starts of loops have rules of their own.
-/

namespace JavaBackend

open Java (Stmt Code Piece Expr Test Handler)

variable {α : Type} {ctx : Context}

open Lower

/-! ## Verdicts -/

/-- The innermost loop around the code: whether its body may be run again. -/
def Context.inside (ctx : Context) : Option Bool :=
  ctx.loops.head?.map fun loop => loop.labels.isSome && loop.redoFlag.isSome

namespace Part

/-- The first misplaced jump of the part. -/
def misplaced? (part : Part) (ctx : Context) : Option Misplaced := part.tree.misplaced? ctx.inside

/-- The first misplaced jump decides both ways to lower the part. -/
structure Judged (part : Part) (ctx : Context) : Prop where
  inline : Judges part.toInline ctx (part.misplaced? ctx)
  statement : ∀ dest, Judges (part.toStatement dest) ctx (part.misplaced? ctx)

/-- The first misplaced jump of a part inside a loop, or outside of all. -/
def misplacedIn? (inside : Option Bool) (part : Part) : Option Misplaced := part.tree.misplaced? inside

def hasRedo (part : Part) : Bool := part.tree.hasRedo

theorem misplacedIn?_of_isExpression {part : Part} {isLocal : String → Bool}
    (expression : part.tree.isExpression isLocal = true) (inside : Option Bool) :
    part.misplacedIn? inside = none :=
  Tree.misplaced?_of_isExpression isLocal part.tree expression inside

end Part

variable {inside : Option Bool}

/-- The first misplaced jump of a part in its turn. -/
def Turn.misplaced? (inside : Option Bool) (turn : Turn) : Option Misplaced :=
  match turn.within with
  | none => turn.part.misplacedIn? inside
  | some redo => (turn.part.misplacedIn? (some redo)).map .leave

/-- The first misplaced jump of parts that are lowered in order. -/
def firstMisplaced (inside : Option Bool) (turns : List Turn) : Option Misplaced :=
  turns.findSome? (·.misplaced? inside)

@[simp]
theorem firstMisplaced_nil : firstMisplaced inside [] = none := rfl

theorem firstMisplaced_append (turns more : List Turn) :
    firstMisplaced inside (turns ++ more) = (firstMisplaced inside turns).or (firstMisplaced inside more) :=
  List.findSome?_append

theorem firstMisplaced_singleton (turn : Turn) : firstMisplaced inside [turn] = turn.misplaced? inside := by
  rw [firstMisplaced, findSome?_cons_or, List.findSome?_nil, Option.or_none]

theorem firstMisplaced_map {f : α → Turn} (items : List α) :
    firstMisplaced inside (items.map f) = items.findSome? fun item => (f item).misplaced? inside :=
  List.findSome?_map

theorem firstMisplaced_toList (arm : Option Part) :
    firstMisplaced inside (arm.toList.map .of) = arm.bind (Part.misplacedIn? inside) := by
  rw [firstMisplaced_map, ← findSome?_toList]
  rfl

/-- A jump in a pass of a loop is seen from outside of it. -/
theorem firstMisplaced_inLoop (redo : Bool) (turns : List Turn) :
    firstMisplaced inside (turns.map (.inLoop redo)) = (firstMisplaced (some redo) turns).map .leave := by
  have twice : ∀ misplaced : Misplaced, misplaced.leave.leave = misplaced.leave := by
    intro misplaced
    cases misplaced <;> rfl
  rw [firstMisplaced_map, firstMisplaced, List.map_findSome?]
  congr 1
  funext ⟨part, within⟩
  cases within with
  | none => rfl
  | some redo' =>
    show Option.map Misplaced.leave _ = Option.map Misplaced.leave (Option.map Misplaced.leave _)
    rw [Option.map_map]
    exact congrArg (Option.map · _) (funext fun misplaced => (twice misplaced).symm)

theorem judges_isLocal_bind {name : String} {g : Bool → Lower α} {verdict : Option Misplaced}
    (known : Judges (g true) ctx verdict) (unknown : Judges (g false) ctx verdict) :
    Judges (isLocal name >>= g) ctx verdict := by
  refine judges_of_apply fun p => ⟨_, Lower.isLocal_bind name g ctx p, ?_⟩
  cases p.scope.isLocal name with
  | true => exact known
  | false => exact unknown

/-- The first misplaced jump of the parts decides a computation that lowers them. -/
def judging : Account where
  Index := Unit
  Of _ m turns := ∀ ctx, Judges m ctx (firstMisplaced ctx.inside turns)
  Adds _ _ add turns := ∀ handlers ctx, Judges (add handlers) ctx (firstMisplaced ctx.inside turns)
  Types _ _ := True
  bind _ _ := ()
  bind_none _ := rfl
  object _ := trivial
  boolean _ := trivial
  types_bind _ _ := trivial
  of_apply choice ctx := judges_of_apply fun p =>
    (choice ctx p).imp fun _ lowered => ⟨lowered.1, lowered.2 ctx⟩
  of_pure a _ := judges_pure a
  of_bind first next ctx := by
    rw [firstMisplaced_append]
    exact (first ctx).bind fun a => next a ctx
  of_context _ := judges_context
  of_emit _ _ := judges_emit _
  of_newTemp _ _ _ := judges_newTemp _ _
  of_freshName _ := judges_freshName
  of_freshLabel _ := judges_freshLabel
  of_ifThen first _ ctx := ((first ctx).block _).thenNone fun _ => judges_emit _
  of_ifElse first second _ ctx := by
    rw [firstMisplaced_append]
    exact ((first ctx).block _).bind fun _ => ((second ctx).block _).thenNone fun _ => judges_emit _
  of_tryFinally first second ctx := by
    rw [firstMisplaced_append]
    exact ((first ctx).block _).bind fun _ => ((second ctx).block _).thenNone fun _ => judges_emit _
  of_tryCatch first second ctx := by
    rw [firstMisplaced_append]
    exact ((first ctx).block _).bind fun code => (second code [] ctx).thenNone fun _ => judges_emit _
  adds_pure handlers _ := judges_pure handlers
  adds_bind first second handlers ctx := by
    rw [firstMisplaced_append]
    exact (first handlers ctx).bind fun handlers => second handlers ctx
  adds_fresh lowered _ _ ctx :=
    judges_freshName.bindNone fun name => ((lowered name ctx).block _).thenNone fun _ => judges_pure _
  adds_named lowered type _ ctx :=
    (((lowered ctx).withLocal _ type).block _).thenNone fun _ => judges_pure _
  adds_isLocal_bind known unknown handlers ctx :=
    judges_isLocal_bind (known handlers ctx) (unknown handlers ctx)
  of_around _ _ lowered ctx := ((lowered ctx).block _).thenNone fun _ => judges_emit _
  of_inLoop lowered loop ctx := by
    rw [firstMisplaced_inLoop]
    exact (lowered _).inLoop
  of_withLocal lowered type ctx := (lowered ctx).withLocal _ type
  of_isLocal_bind known unknown ctx := judges_isLocal_bind (known ctx) (unknown ctx)
  of_node {_ _ kind m} straight lowered type ctx := by
    have verdict : firstMisplaced ctx.inside (kind.children.map fun child => .of child.part) =
        (Tree.node kind type).misplaced? ctx.inside := by
      rw [firstMisplaced_map, Tree.misplaced?_node]
      cases kind with
      | loop _ | forEach _ | jump _ | rescue _ _ _ => cases straight
      | _ => rfl
    have judged := lowered ctx
    rw [verdict] at judged
    rw [firstMisplaced_singleton]
    exact judged

theorem judging_singleton {m : Lower α} {part : Part} :
    judging.Of () m [.of part] ↔ ∀ ctx, Judges m ctx (part.misplaced? ctx) := by
  show (∀ ctx, _) ↔ _
  simp only [firstMisplaced_singleton]
  rfl

theorem Part.judges_toExpr {part : Part} (covers : judging.Covers () part) :
    Judges part.toExpr ctx (part.misplaced? ctx) :=
  judging_singleton.mp covers.toExpr ctx

theorem judges_putValue (dest : Destination) (value : Expr) : Judges (putValue dest value) ctx none :=
  @Account.of_putValue judging () dest value ctx

theorem judges_lowerEffects {arm : Option Part} (covers : ∀ part ∈ arm, judging.Covers () part) :
    Judges (lowerEffects arm) ctx (arm.bind (·.misplaced? ctx)) :=
  firstMisplaced_toList arm ▸ Account.of_lowerEffects covers ctx

theorem judges_lowerReturn {value : Option Part} (covers : ∀ part ∈ value, judging.Covers () part) :
    Judges (lowerReturn value) ctx (value.bind (·.misplaced? ctx)) :=
  firstMisplaced_toList value ▸ Account.of_lowerReturn covers ctx

/-! ## Exceptions -/

theorem firstMisplaced_flatMap {f : α → List Turn} (items : List α) :
    firstMisplaced inside (items.flatMap f) = items.findSome? fun item => firstMisplaced inside (f item) := by
  induction items with
  | nil => rfl
  | cons item rest ih => rw [List.flatMap_cons, firstMisplaced_append, findSome?_cons_or, ih]

/-- A clause has a handler for each of its types, and one at least, so its body is never left out. -/
theorem firstMisplaced_clause (clause : RescueClause Part) :
    firstMisplaced inside clause.turns = clause.body.bind (Part.misplacedIn? inside) := by
  have some? : (if clause.types.isEmpty then [anyException] else clause.types) ≠ [] := by
    split <;> simp_all
  obtain ⟨first, rest, same⟩ := List.exists_cons_of_ne_nil some?
  unfold RescueClause.turns
  rw [firstMisplaced_flatMap, same, findSome?_cons_or, firstMisplaced_toList]
  cases clause.body.bind _ <;> simp

theorem judges_lowerRescue {body otherwise : Option Part} {clauses : List (RescueClause Part)}
    (covers : ∀ part ∈ (Kind.rescue body clauses otherwise).children, judging.Covers () part)
    (type : JavaType) (dest : Destination) :
    Judges (lowerRescue body clauses otherwise type dest) ctx
      ((Kind.rescue body clauses otherwise).misplaced? Part.misplacedIn? Part.hasRedo ctx.inside) := by
  simp only [Kind.children, List.forall_mem_append, Option.mem_toList, List.mem_filterMap] at covers
  have lowered := Account.of_lowerRescue covers.1.1
    (fun clause mem part found => covers.1.2 part ⟨clause, mem, found⟩) covers.2 type dest ctx
  rw [List.map_append, firstMisplaced_append, firstMisplaced_append, firstMisplaced_toList,
    firstMisplaced_toList, Option.or_assoc, firstMisplaced_flatMap] at lowered
  simp only [firstMisplaced_clause] at lowered
  exact lowered

/-! ## Loops -/

theorem judges_refuseRedo (body : Option Part) (form : LoopForm) :
    Judges (refuseRedo body form) ctx
      (if body.any Part.hasRedo then some .redoWithin else none) := by
  cases body with
  | none => exact judges_pure ()
  | some part =>
    unfold refuseRedo
    dsimp only
    cases redo : part.tree.hasRedo with
    | true =>
      rw [if_pos rfl, if_pos (by exact redo)]
      exact judges_fail ⟨form, rfl⟩
    | false =>
      rw [if_neg Bool.false_ne_true, if_neg (by exact Bool.eq_false_iff.mp redo)]
      exact judges_pure ()

/-- The search in front of a loop whose body may not be run again. -/
theorem judges_redoCheck (redo : Bool) (body : Option Part) (form : LoopForm) :
    Judges (if redo then pure () else refuseRedo body form) ctx
      (if !redo && body.any Part.hasRedo then some .redoWithin else none) := by
  cases redo with
  | true => exact judges_pure ()
  | false => exact judges_refuseRedo body form

section

variable {spec : Loop Part}

theorem firstMisplaced_pass :
    firstMisplaced inside ((spec.pre.toList ++ spec.body.toList ++ spec.post.toList).map .of) =
      spec.untested (Part.misplacedIn? inside) := by
  rw [List.map_append, List.map_append, firstMisplaced_append, firstMisplaced_append, firstMisplaced_toList,
    firstMisplaced_toList, firstMisplaced_toList, Option.or_assoc]
  rfl

/-- A condition that is not held in a variable is an expression, which can stand anywhere. -/
theorem firstMisplaced_turns (isLocal : String → Bool) :
    firstMisplaced inside (spec.turns !spec.cond.tree.isExpression isLocal) =
      (if spec.checkFirst then spec.cond.misplacedIn? inside else none).or
        (((spec.untested (Part.misplacedIn? (some spec.redo))).or
          (spec.cond.misplacedIn? (some spec.redo))).map .leave) := by
  have cond : ∀ inside, firstMisplaced inside [.of spec.cond] = spec.cond.misplacedIn? inside :=
    fun _ => firstMisplaced_singleton _
  unfold Loop.turns
  rw [firstMisplaced_append, firstMisplaced_inLoop, firstMisplaced_append, firstMisplaced_pass]
  cases expression : spec.cond.tree.isExpression isLocal with
  | true =>
    have clear := Part.misplacedIn?_of_isExpression expression
    simp [cond, clear]
  | false => cases spec.checkFirst <;> simp [cond]

theorem judges_lowerLoop (covers : spec.Each (judging.Covers ())) :
    Judges (lowerLoop spec) ctx
      (spec.check Part.misplacedIn? Part.hasRedo ctx.inside).misplaced? := by
  refine judges_of_apply fun p => ⟨_, lowerLoop_apply spec ctx p, ?_⟩
  have loop : Judges (if spec.isLabeled p.scope.isLocal then lowerLabeledLoop spec
      else lowerPlainLoop spec) ctx
      ((if spec.checkFirst then spec.cond.misplacedIn? ctx.inside else none).or
        (((spec.untested (Part.misplacedIn? (some spec.redo))).or
          (spec.cond.misplacedIn? (some spec.redo))).map .leave)) := by
    cases labeled : spec.isLabeled p.scope.isLocal with
    | true =>
      refine judges_of_apply fun q => ?_
      obtain ⟨m, same, lowered⟩ := Account.of_lowerLabeledLoop covers ctx q
      exact ⟨m, same, firstMisplaced_turns q.scope.isLocal ▸ lowered ctx⟩
    | false =>
      obtain ⟨-, -, expression⟩ := Loop.isLabeled_eq_false labeled
      rw [← firstMisplaced_turns p.scope.isLocal, expression]
      exact Account.of_lowerPlainLoop covers labeled ctx
  unfold LoopCheck.misplaced? Loop.check Loop.prelude
  dsimp only
  rw [Option.or_assoc]
  exact (judges_redoCheck _ _ _).bind fun _ => (judges_lowerEffects covers.init).bind fun _ => loop

end

theorem judges_lowerForEach {spec : ForEach Part} (covers : judging.Covers () spec.iterable)
    (bodyCovers : ∀ part ∈ spec.body, judging.Covers () part) :
    Judges (lowerForEach spec) ctx
      (spec.check Part.misplacedIn? Part.hasRedo ctx.inside).misplaced? := by
  rw [lowerForEach_eq]
  refine (judges_redoCheck _ _ _).bind fun _ => ?_
  have body : firstMisplaced ctx.inside (spec.body.toList.map (⟨·, some spec.redo⟩)) =
      (spec.body.bind (Part.misplacedIn? (some spec.redo))).map .leave := by
    cases spec.body with
    | none => rfl
    | some part => exact firstMisplaced_singleton _
  have elements := Account.of_elements covers trivial bodyCovers ctx
  rw [firstMisplaced, findSome?_cons_or, ← firstMisplaced, body] at elements
  exact elements

theorem judges_lowerJump (action : Jump) (child : Option Bool → α → Option Misplaced)
    (hasRedo : α → Bool) :
    Judges (lowerJump action) ctx ((Kind.jump action).misplaced? child hasRedo ctx.inside) := by
  refine judges_of_apply fun p => ?_
  unfold lowerJump
  rw [Lower.context_bind]
  refine ⟨_, rfl, ?_⟩
  unfold Context.inside
  cases around : ctx.loops with
  | nil => exact judges_fail rfl
  | cons loop others =>
    have refused : Judges (Lower.fail (.redoUnsupported loop.form) : Lower Unit) ctx
        (some .redoAround) := judges_fail ⟨loop, others, around, rfl⟩
    obtain ⟨form, labels, redoFlag⟩ := loop
    cases labels with
    | none =>
      cases action with
      | «break» | next => exact judges_emit _
      | redo => exact refused
    | some pair =>
      cases redoFlag with
      | none =>
        cases action with
        | «break» | next => exact judges_emit _
        | redo => exact refused
      | some flag =>
        cases action with
        | «break» | next => exact judges_emit _
        | redo => exact (judges_emit _).bindNone fun _ => judges_emit _

/-! ## Trees -/

/-- The verdict decides both ways to lower a node. -/
structure Lowering.Judged (lowering : Lowering) (ctx : Context) (verdict : Option Misplaced) :
    Prop where
  inline : ∀ m ∈ lowering.inline, Judges m ctx verdict
  statement : ∀ dest, Judges (lowering.statement dest) ctx verdict

theorem Lowering.judged_ofStatement {statement : Destination → Lower Unit} {verdict : Option Misplaced}
    (judges : ∀ dest, Judges (statement dest) ctx verdict) :
    (ofStatement statement).Judged ctx verdict where
  inline _ mem := nomatch mem
  statement := judges

/-- A node that does more than to lower its parts is judged by its first misplaced jump, too. -/
theorem Kind.lowering_judged {kind : Kind Part} (special : kind.isStraight = false)
    (covers : ∀ part ∈ kind.children, judging.Covers () part) (type : JavaType) (ctx : Context) :
    (kind.lowering type).Judged ctx
      (kind.misplaced? Part.misplacedIn? Part.hasRedo ctx.inside) := by
  cases kind with
  | field name isStatic =>
    have value : Judges (fieldValue name isStatic type) ctx none :=
      (judges_useField _).bindNone fun _ => @Account.of_fieldExpr judging () name isStatic ctx
    refine ⟨by rintro m ⟨⟩; exact value, fun dest => ?_⟩
    cases dest with
    | discard => exact judges_pure ()
    | store sink => exact value.thenNone fun _ => judges_emit _
  | assign name value =>
    have valueCovers := covers value List.mem_cons_self
    refine ⟨by rintro m ⟨⟩; exact (valueCovers.toExpr ctx).thenNone fun _ => judges_pure _, fun dest => ?_⟩
    exact Account.of_lowerAssign valueCovers (fun _ _ => judges_declareLocal _ _ _) dest ctx
  | setField name value isStatic =>
    refine Lowering.judged_ofStatement fun dest => (judges_useField _).bindNone fun _ => ?_
    exact Account.of_assignField (covers value List.mem_cons_self) name isStatic dest ctx
  | loop spec =>
    exact Lowering.judged_ofStatement fun dest =>
      (judges_lowerLoop (Loop.each_of_children covers)).thenNone fun _ => judges_putValue dest _
  | forEach spec =>
    obtain ⟨iterable, body⟩ := ForEach.each_of_children covers
    exact Lowering.judged_ofStatement fun dest =>
      (judges_lowerForEach iterable body).thenNone fun _ => judges_putValue dest _
  | jump action => exact Lowering.judged_ofStatement fun _ => judges_lowerJump action _ _
  | ret value =>
    refine Lowering.judged_ofStatement fun _ => ?_
    show Judges _ ctx (value.toList.findSome? _)
    rw [findSome?_toList]
    exact judges_lowerReturn fun part mem => covers part (Option.mem_toList.mpr mem)
  | rescue body clauses otherwise =>
    exact Lowering.judged_ofStatement fun dest => judges_lowerRescue covers type dest
  | _ => cases special

theorem Tree.covers (tree : Tree) : judging.Covers () tree.part := by
  induction tree using Tree.induction with
  | step kind type ih =>
    cases straight : kind.isStraight with
    | true => exact Account.covers_node straight trivial ih
    | false =>
      have special : (kind.map part).isStraight = false := by
        cases kind <;> exact straight
      have covers : ∀ child ∈ (kind.map part).children, judging.Covers () child := by
        rw [Kind.children_map]
        exact List.forall_mem_map.mpr ih
      have verdict : ∀ ctx, (kind.map part).misplaced? Part.misplacedIn? Part.hasRedo ctx.inside =
          (Tree.node kind type).part.misplaced? ctx := by
        intro ctx
        rw [Kind.misplaced?_map]
        exact (misplaced?_node ctx.inside kind type).symm
      have lowered := Kind.lowering_judged special covers type
      simp only [verdict] at lowered
      refine Account.covers_of_describes trivial ?_
      rw [lowering_node]
      exact ⟨fun m mem => judging_singleton.mpr fun ctx => (lowered ctx).inline m mem,
        fun dest => judging_singleton.mpr fun ctx => (lowered ctx).statement dest⟩

/-- A tree is judged by its first misplaced jump. -/
theorem Tree.judged (tree : Tree) (ctx : Context) : tree.part.Judged ctx where
  inline := judging_singleton.mp tree.covers.inline ctx
  statement dest := judging_singleton.mp (tree.covers.statement dest) ctx

end JavaBackend
