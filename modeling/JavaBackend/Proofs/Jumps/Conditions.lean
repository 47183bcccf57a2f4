import JavaBackend.Proofs.Effects.Known
import JavaBackend.Proofs.Jumps.Scope
import Mathlib.Data.List.Forall2

/-!
# Jumps in conditions

A condition that needs statements is lowered twice in a loop that is tested first: in front of the loop,
and again at the end of each pass, where the loop itself stands around it. A jump is one of the innermost
loop around it. So the jumps of the condition that are in none of its own loops, `Tree.ownJumps`, lead out
of another loop in the one copy than in the other.
-/

namespace JavaBackend

open Java (Mark Skeleton Stmt Code Expr Test)
open Lower

variable {α β : Type}

/-! ## Jumps of the loop around a tree -/

namespace Kind

/-- The parts of a node that are in no loop which the node itself is, in the order of the code. -/
def outerParts : Kind α → List α
  | .loop spec => spec.init.toList ++ if spec.checkFirst then [spec.cond] else []
  | .forEach spec => [spec.iterable]
  | .rescue body clauses otherwise =>
    body.toList ++ otherwise.toList ++ clauses.flatMap fun clause =>
      (List.replicate (max 1 clause.types.length) clause.body.toList).flatten
  | kind => kind.children

theorem outerParts_map (f : α → β) (kind : Kind α) :
    (kind.map f).outerParts = kind.outerParts.map f := by
  have children := kind.children_map f
  cases kind with
  | loop spec =>
    obtain ⟨_, checkFirst, _, _, _, init, _, _⟩ := spec
    cases init <;> cases checkFirst <;> rfl
  | forEach spec => rfl
  | rescue body clauses otherwise =>
    have handled (clause : RescueClause α) :
        (List.replicate (max 1 clause.types.length) (clause.body.map f).toList).flatten =
          (List.replicate (max 1 clause.types.length) clause.body.toList).flatten.map f := by
      cases clause.body <;> simp
    cases body <;> cases otherwise <;>
      simp [map, outerParts, RescueClause.map, List.flatMap_map, List.map_flatMap, handled]
  | _ => exact children

/-- A part outside of the node's loop is one of its children. -/
theorem mem_children_of_mem_outerParts {kind : Kind α} {part : α} (mem : part ∈ kind.outerParts) :
    part ∈ kind.children := by
  cases kind with
  | loop spec =>
    rcases List.mem_append.mp mem with first | tested
    · exact List.mem_append_left _ first
    · split at tested
      · cases List.mem_singleton.mp tested
        exact List.mem_append_right _ List.mem_cons_self
      · cases tested
  | forEach spec =>
    cases List.mem_singleton.mp mem
    exact List.mem_cons_self
  | rescue body clauses otherwise =>
    rcases List.mem_append.mp mem with plain | handled
    · rcases List.mem_append.mp plain with inBody | inElse
      · exact List.mem_append_left _ (List.mem_append_left _ inBody)
      · exact List.mem_append_right _ inElse
    · obtain ⟨clause, memClause, copied⟩ := List.mem_flatMap.mp handled
      obtain ⟨copy, memCopy, inCopy⟩ := List.mem_flatten.mp copied
      cases List.eq_of_mem_replicate memCopy
      have found : part ∈ clauses.filterMap RescueClause.body :=
        List.mem_filterMap.mpr ⟨clause, memClause, Option.mem_toList.mp inCopy⟩
      exact List.mem_append_left _ (List.mem_append_right _ found)
  | _ => exact mem

/-- The jumps of a node that belong to the loop around the node. -/
def ownJumps (child : α → List Jump) : Kind α → List Jump
  | .jump action => [action]
  | kind => kind.outerParts.flatMap child

theorem ownJumps_map (f : α → β) (child : β → List Jump) (kind : Kind α) :
    (kind.map f).ownJumps child = kind.ownJumps fun a => child (f a) := by
  have parts : (kind.map f).outerParts.flatMap child =
      kind.outerParts.flatMap fun a => child (f a) := by
    rw [outerParts_map, List.flatMap_map]
  cases kind with
  | jump action => rfl
  | _ => exact parts

end Kind

namespace Tree

/-- The jumps of a tree that belong to the loop around the tree, in the order of the code. -/
def ownJumps : Tree → List Jump :=
  para fun kind _ => kind.ownJumps fun child => child.result.get

theorem ownJumps_node (kind : Kind Tree) (type : JavaType) :
    (Tree.node kind type).ownJumps = kind.ownJumps ownJumps := by
  rw [ownJumps, para_node, Kind.ownJumps_map]
  rfl

end Tree

/-- The jump that this is, if it is not a loop. -/
def Nest.jump? : Nest → Option Jump
  | .jump action => some action
  | .plain _ | .labeled _ _ _ => none

namespace Tree

theorem AllNest.jumps {trees : List Tree} {nest : List Nest}
    (each : ∀ tree ∈ trees, ∀ nest, Nests tree nest → nest.filterMap Nest.jump? = tree.ownJumps)
    (all : AllNest trees nest) : nest.filterMap Nest.jump? = trees.flatMap ownJumps := by
  induction trees generalizing nest with
  | nil =>
    cases all
    rfl
  | cons tree rest ih =>
    cases all with
    | cons head tail =>
      rw [List.filterMap_append, List.flatMap_cons, each tree List.mem_cons_self _ head,
        ih (fun tree mem => each tree (List.mem_cons_of_mem _ mem)) tail]

/-- The jumps outside of all loops that come out of a tree are its own. -/
theorem jumps_of_nests (tree : Tree) :
    ∀ nest, Nests tree nest → nest.filterMap Nest.jump? = tree.ownJumps := by
  induction tree using Tree.induction with
  | step kind type ih =>
    intro nest nests
    have outer {trees : List Tree} {nest : List Nest} (some : ∀ tree ∈ trees, tree ∈ kind.children)
        (all : AllNest trees nest) : nest.filterMap Nest.jump? = trees.flatMap ownJumps :=
      all.jumps fun tree mem => ih tree (some tree mem)
    have parts {nest : List Nest} (all : AllNest kind.outerParts nest) :
        nest.filterMap Nest.jump? = kind.outerParts.flatMap ownJumps :=
      outer (fun tree mem => Kind.mem_children_of_mem_outerParts mem) all
    rw [ownJumps_node]
    cases nests with
    | jump => rfl
    | @plainLoop spec _ start _ _ _ expression init _ =>
      obtain ⟨known, expression⟩ := expression
      have none : spec.cond.ownJumps = [] := by
        have mem : spec.cond ∈ (Kind.loop spec).children := by simp [Kind.children]
        exact (ih _ mem [] (nests_nil_of_isExpression known _ expression)).symm
      have front := outer (fun tree mem => List.mem_append_left _ mem) init
      rw [List.filterMap_append, front]
      cases first : spec.checkFirst <;>
        simp [Kind.ownJumps, Kind.outerParts, Nest.jump?, first, none]
    | labeledLoop _ init _ _ _ =>
      rw [List.filterMap_append, parts init]
      exact List.append_nil _
    | plainForEach _ iterable _ | labeledForEach _ iterable _ =>
      rw [List.filterMap_append, parts iterable]
      exact List.append_nil _
    | rescue inner => exact parts inner
    | simple isSimple children =>
      have all := outer (fun tree mem => mem) children
      rw [all]
      cases kind with
      | loop _ | forEach _ | jump _ | rescue _ _ _ => cases isSimple
      | _ => rfl

end Tree

/-! ## Verdicts -/

theorem findSome?_congr {f g : α → Option β} {items : List α}
    (same : ∀ item ∈ items, f item = g item) : items.findSome? f = items.findSome? g := by
  induction items with
  | nil => rfl
  | cons item rest ih =>
    rw [findSome?_cons_or, findSome?_cons_or, same item List.mem_cons_self,
      ih fun other mem => same other (List.mem_cons_of_mem _ mem)]

namespace Tree

/-- A tree without jumps of the loop around it is refused in every place or in none. -/
theorem misplaced?_eq_of_ownJumps_eq_nil (tree : Tree) : tree.ownJumps = [] →
    ∀ inside inside', tree.misplaced? inside = tree.misplaced? inside' := by
  induction tree using Tree.induction with
  | step kind type ih =>
    intro none inside inside'
    rw [ownJumps_node] at none
    have parts : kind.ownJumps ownJumps = kind.outerParts.flatMap ownJumps →
        ∀ tree ∈ kind.outerParts, tree.misplaced? inside = tree.misplaced? inside' := by
      intro same tree mem
      have jumpless := List.flatMap_eq_nil_iff.mp (same.symm.trans none) tree mem
      exact ih tree (Kind.mem_children_of_mem_outerParts mem) jumpless inside inside'
    rw [misplaced?_node, misplaced?_node]
    cases kind with
    | jump action => cases none
    | loop spec =>
      have init : spec.init.bind (·.misplaced? inside) = spec.init.bind (·.misplaced? inside') :=
        Option.bind_congr fun tree mem =>
          parts rfl tree (List.mem_append_left _ (Option.mem_toList.mpr mem))
      have prelude : spec.prelude (fun i tree => tree.misplaced? i) inside =
          spec.prelude (fun i tree => tree.misplaced? i) inside' := by
        unfold Loop.prelude
        rw [init]
        split
        · next first =>
          have mem : spec.cond ∈ (Kind.loop spec).outerParts := by simp [Kind.outerParts, first]
          exact congrArg _ (parts rfl _ mem)
        · rfl
      simp only [Kind.misplaced?, Loop.check, prelude]
    | forEach spec =>
      simp only [Kind.misplaced?, ForEach.check, parts rfl spec.iterable List.mem_cons_self]
    | rescue body clauses otherwise =>
      have bodies : body.bind (·.misplaced? inside) = body.bind (·.misplaced? inside') :=
        Option.bind_congr fun tree mem =>
          parts rfl tree (by simp [Kind.outerParts, Option.mem_def.mp mem])
      have elses : otherwise.bind (·.misplaced? inside) = otherwise.bind (·.misplaced? inside') :=
        Option.bind_congr fun tree mem =>
          parts rfl tree (by simp [Kind.outerParts, Option.mem_def.mp mem])
      have handlers : (clauses.findSome? fun clause => clause.body.bind (·.misplaced? inside)) =
          clauses.findSome? fun clause => clause.body.bind (·.misplaced? inside') := by
        refine findSome?_congr fun clause memClause => Option.bind_congr fun tree mem => ?_
        have copied : tree ∈
            (List.replicate (max 1 clause.types.length) clause.body.toList).flatten := by
          refine List.mem_flatten.mpr ⟨_, List.mem_replicate.mpr ⟨by omega, rfl⟩, ?_⟩
          exact Option.mem_toList.mpr mem
        exact parts rfl tree (List.mem_append_right _ (List.mem_flatMap.mpr ⟨clause, memClause, copied⟩))
      simp only [Kind.misplaced?, bodies, elses, handlers]
    | _ => exact findSome?_congr (parts rfl)

/-- A jump of the loop around a tree is refused where there is no loop. -/
theorem ownJumps_eq_nil_of_misplaced? (tree : Tree) :
    tree.misplaced? none = none → tree.ownJumps = [] := by
  induction tree using Tree.induction with
  | step kind type ih =>
    intro clear
    rw [misplaced?_node] at clear
    rw [ownJumps_node]
    have parts (all : ∀ tree ∈ kind.outerParts, tree.misplaced? none = none) :
        kind.outerParts.flatMap ownJumps = [] :=
      List.flatMap_eq_nil_iff.mpr fun tree mem =>
        ih tree (Kind.mem_children_of_mem_outerParts mem) (all tree mem)
    cases kind with
    | jump action => cases clear
    | loop spec =>
      obtain ⟨-, prelude, -⟩ := LoopCheck.misplaced?_eq_none_iff.mp clear
      obtain ⟨init, tested⟩ := Option.or_eq_none_iff.mp prelude
      refine parts fun tree mem => ?_
      rcases List.mem_append.mp mem with first | cond
      · exact Option.bind_eq_none_iff.mp init tree (Option.mem_toList.mp first)
      · split at cond
        · next first =>
          cases List.mem_singleton.mp cond
          rwa [if_pos first] at tested
        · cases cond
    | forEach spec =>
      obtain ⟨-, prelude, -⟩ := LoopCheck.misplaced?_eq_none_iff.mp clear
      exact parts (List.forall_mem_singleton.mpr prelude)
    | rescue body clauses otherwise =>
      obtain ⟨bodies, rest⟩ := Option.or_eq_none_iff.mp clear
      obtain ⟨elses, handlers⟩ := Option.or_eq_none_iff.mp rest
      refine parts fun tree mem => ?_
      rcases List.mem_append.mp mem with plain | handled
      · rcases List.mem_append.mp plain with inBody | inElse
        · exact Option.bind_eq_none_iff.mp bodies tree (Option.mem_toList.mp inBody)
        · exact Option.bind_eq_none_iff.mp elses tree (Option.mem_toList.mp inElse)
      · obtain ⟨clause, memClause, copied⟩ := List.mem_flatMap.mp handled
        obtain ⟨copy, memCopy, inCopy⟩ := List.mem_flatten.mp copied
        cases List.eq_of_mem_replicate memCopy
        have clauseClear := List.findSome?_eq_none_iff.mp handlers clause memClause
        exact Option.bind_eq_none_iff.mp clauseClear tree (Option.mem_toList.mp inCopy)
    | _ => exact parts (List.findSome?_eq_none_iff.mp clear)

end Tree

/-! ## Jumps out of code -/

namespace Java

namespace Skeleton

mutual

/-- The jumps that stand in no loop, in order. -/
def outer : Skeleton → List Mark
  | .node (.breaks label) _ => [.breaks label]
  | .node (.continues label) _ => [.continues label]
  | .node (.declares _) _ | .node (.loop _) _ => []
  | .node (.block _) inside | .node (.other _) inside => outerAll inside

def outerAll : List Skeleton → List Mark
  | [] => []
  | part :: rest => part.outer ++ outerAll rest

end

theorem outerAll_append (first second : List Skeleton) :
    outerAll (first ++ second) = outerAll first ++ outerAll second := by
  induction first with
  | nil => rfl
  | cons part rest ih => rw [List.cons_append, outerAll, outerAll, ih, List.append_assoc]

end Skeleton

/-- The jumps that stand in no loop of the code, in order. -/
def outerJumps (code : Code) : List Mark := Skeleton.outerAll (Stmt.codeSkeleton code)

end Java

open Java

/-- The jumps that stand in no loop of the code are these, each a jump of the innermost loop around the
    code. -/
def Context.Binds (ctx : Context) (jumps : List Jump) (code : Code) : Prop :=
  List.Forall₂ (fun action mark => ∃ loop ∈ ctx.loops.head?, loop.Spells action mark) jumps
    (outerJumps code)

theorem Laid.outerJumps {loops : List EnclosingLoop} {s s' : Supply} {skeleton : List Skeleton}
    {nest : List Nest} (laid : Laid loops s skeleton s' nest) :
    List.Forall₂ (fun action mark => ∃ loop ∈ loops.head?, loop.Spells action mark)
      (nest.filterMap Nest.jump?) (Skeleton.outerAll skeleton) := by
  induction laid with
  | nil | declared | temp | plain | labeled => exact .nil
  | append _ _ one other =>
    rw [List.filterMap_append, Skeleton.outerAll_append]
    exact List.rel_append one other
  | @jump loop _ _ _ _ spelled =>
    cases spelled with
    | «break» => exact .cons ⟨loop, rfl, .break⟩ .nil
    | nextPlain plain => exact .cons ⟨loop, rfl, .nextPlain plain⟩ .nil
    | nextLabeled labeled => exact .cons ⟨loop, rfl, .nextLabeled labeled⟩ .nil
    | redo labeled flagged => exact .cons ⟨loop, rfl, .redo labeled flagged⟩ .nil

/-- The code of a tree binds the tree's own jumps to the innermost loop around it. -/
theorem Tree.binds_ownJumps {tree : Tree} {dest : Destination} {ctx : Context} {p p' : Progress}
    {code : Code} (ends : Ends (tree.toStatement dest) ctx p code () p') :
    ctx.Binds tree.ownJumps code := by
  obtain ⟨nest, comes, laid⟩ := tree.lays.statement dest ends
  cases comes with
  | cons head tail =>
    cases tail
    rw [List.append_nil] at laid
    rw [← tree.jumps_of_nests _ head]
    exact laid.outerJumps

/-! ## The two copies of a condition -/

/-- The condition in the code of a loop that is tested first and holds it in a variable: a first copy
    in front of the loop, and another one at the end of each pass, which is inside the loop `own`. -/
structure Loop.Copies (spec : Loop Tree) (ctx : Context) (p : Progress) (code first again : Code)
    (own : EnclosingLoop) : Prop where
  placed : ∃ (start pass rest : Code) (held : String) (labels : LabelPair),
    own.labels = some labels ∧
      code = start ++ .declare .boolean held (.literal JavaType.boolean.defaultValue) ::
        (first ++ .labeled labels.outer (.whileLoop ⟨.var held, spec.negative⟩ (pass ++ again)) ::
          rest) ∧
      (∃ q q', Ends (spec.cond.toStatement (.store (.into held))) ctx q first () q') ∧
      ∃ q q', Ends (spec.cond.toStatement (.store (.into held))) (ctx.enter own) q again () q'
  /-- The loop has labels of its own. -/
  new : ∀ labels ∈ own.labels, ∃ k, p.scope.labels ≤ k ∧
    labels = ⟨labelName (k + 1), labelName (k + 2)⟩
  redo : own.redoFlag.isSome = spec.redo

section Copies

variable {spec : Loop Tree} {type : JavaType} {dest : Destination} {ctx : Context}
  {p p' : Progress} {code : Code}

theorem Progress.isSome_flag (p : Progress) (redo : Bool) : (p.flag redo).isSome = redo := by
  cases redo <;> rfl

/-- What is known in front of the initial part of a loop is known behind it, so a condition that is no
    expression there was none in front of it. -/
theorem Loop.isLabeled_of_unplaced {p₁ : Progress} {start : Code}
    (init : Ends (lowerEffects (spec.init.map Tree.part)) ctx p start () p₁)
    (statements : spec.cond.isExpression p₁.scope.isLocal = false) :
    (spec.map Tree.part).isLabeled p.scope.isLocal = true := by
  have derived := follows_lowerEffects (fun tree _ => tree.derives) init
  have kept : p₁.Knows p.scope.isLocal := derived.knows fun _ known => known
  have unplaced : spec.cond.isExpression p.scope.isLocal = false := by
    rw [Bool.eq_false_iff]
    intro placed
    rw [Tree.isExpression_mono kept placed] at statements
    cases statements
  have cond : (spec.map Tree.part).cond.tree = spec.cond := rfl
  rw [isLabeled, cond, unplaced, Bool.not_false, Bool.or_true]

/-- The run of a loop that is tested first and holds its condition in a variable. -/
theorem Loop.copies_of_ends (testedFirst : spec.checkFirst = true)
    (ends : Ends ((Tree.node (.loop spec) type).toStatement dest) ctx p code () p') :
    ∃ start p₁, Ends (lowerEffects (spec.init.map Tree.part)) ctx p start () p₁ ∧
      (spec.cond.isExpression p₁.scope.isLocal = false →
        ∃ first again own, spec.Copies ctx p code first again own) := by
  change Ends ((Tree.node (.loop spec) type).lowering.statement dest) ctx p code () p' at ends
  rw [Tree.lowering_node] at ends
  obtain ⟨_, _, _, rest, looped, last, rfl⟩ := ends_bind.mp ends
  unfold Ends at looped
  rw [lowerLoop_apply] at looped
  obtain ⟨_, _, _, _, refused, later, rfl⟩ := ends_bind.mp looped
  obtain ⟨rfl, rfl⟩ := ends_refuseRedo refused
  obtain ⟨start, _, p₁, _, init, loop, rfl⟩ := ends_bind.mp later
  refine ⟨start, p₁, init, fun statements => ?_⟩
  rw [if_pos (isLabeled_of_unplaced init statements), lowerLabeledLoop_eq] at loop
  obtain ⟨_, test, p₂, _, tested, passed, rfl⟩ := ends_bind.mp loop
  -- The first copy is the test itself, the second one the end of a pass.
  obtain ⟨-, rfl, first, rfl, copied⟩ := (ends_loopTest tested).resolve_left fun placed =>
    Bool.eq_false_iff.mp statements placed.1
  obtain ⟨-, inFront⟩ := copied.resolve_right fun unchecked => Bool.eq_false_iff.mp unchecked.1 testedFirst
  obtain ⟨pass, run, rfl⟩ := ends_lowerTestedLoop passed
  obtain ⟨pre, _, _, _, preRun, others, rfl⟩ := ends_bind.mp run
  obtain ⟨body, _, _, _, bodyRun, others', rfl⟩ := ends_bind.mp others
  obtain ⟨post, _, _, again, postRun, inside, rfl⟩ := ends_bind.mp others'
  have later : p.scope.labels ≤ p₂.scope.labels := by
    obtain ⟨_, _, initLaid⟩ := (follows_lowerEffects (fun tree _ => tree.derives) init).laid
    obtain ⟨_, _, firstLaid⟩ := spec.cond.lays.statement _ inFront
    exact Nat.le_trans initLaid.grows.2 firstLaid.grows.2
  refine ⟨first, again, ⟨.labeledWhile, _, _⟩, ⟨start, p₂.flagCode spec.redo ++ (pre ++ (body ++ post)),
    rest, _, _, rfl, ?_, ⟨_, _, inFront⟩, ⟨_, _, inside⟩⟩, ?_, p₂.isSome_flag spec.redo⟩
  · simp [loopStmt, testedFirst, Loop.map, Progress.declareFlag, Progress.declareTemp]
  · intro labels same
    cases same
    exact ⟨_, later, rfl⟩

end Copies

/-- The labels of the loops around the code are among the first `n`. -/
def Context.LabelsUpTo (ctx : Context) (n : Nat) : Prop :=
  ∀ loop ∈ ctx.loops, ∀ labels ∈ loop.labels, ∃ j k, j ≤ n ∧ k ≤ n ∧
    labels = ⟨labelName j, labelName k⟩

/-- Loops with other labels spell the same jump in another way. -/
theorem EnclosingLoop.Spells.ne {around own : EnclosingLoop} {n k : Nat}
    (old : ∀ labels ∈ around.labels, ∃ i j, i ≤ n ∧ j ≤ n ∧ labels = ⟨labelName i, labelName j⟩)
    (later : n ≤ k) (new : own.labels = some ⟨labelName (k + 1), labelName (k + 2)⟩)
    {action : Jump} {mark mark' : Mark} (spelled : around.Spells action mark)
    (spelled' : own.Spells action mark') : mark ≠ mark' := by
  intro same
  have apart {i j : Nat} (low : i ≤ n) (high : k < j) : labelName i ≠ labelName j := by
    intro equal
    have := labelName_inj equal
    omega
  cases spelled with
  | «break» =>
    cases spelled'
    rw [new] at same
    cases labels : around.labels with
    | none => simp [labels] at same
    | some pair =>
      obtain ⟨i, j, low, -, rfl⟩ := old pair labels
      rw [labels] at same
      exact apart low (by omega) (Option.some.inj (Mark.breaks.inj same))
  | nextPlain plain =>
    cases spelled' with
    | nextPlain unlabeled => cases new.symm.trans unlabeled
    | nextLabeled => cases same
  | nextLabeled labeled =>
    cases spelled' with
    | nextPlain => cases same
    | nextLabeled own =>
      obtain ⟨i, j, -, low, rfl⟩ := old _ labeled
      cases new.symm.trans own
      exact apart low (by omega) (Option.some.inj (Mark.breaks.inj same))
  | redo labeled =>
    cases spelled' with
    | redo own =>
      obtain ⟨i, j, -, low, rfl⟩ := old _ labeled
      cases new.symm.trans own
      exact apart low (by omega) (Option.some.inj (Mark.continues.inj same))

/-- Two copies of jumps that different loops bind are the same only if there are none. -/
theorem Loop.Copies.outerJumps_eq_iff {spec : Loop Tree} {ctx : Context} {p : Progress}
    {code first again : Code} {own : EnclosingLoop} {jumps : List Jump}
    (copies : spec.Copies ctx p code first again own) (old : ctx.LabelsUpTo p.scope.labels)
    (inFront : ctx.Binds jumps first) (inside : (ctx.enter own).Binds jumps again) :
    outerJumps first = outerJumps again ↔ jumps = [] := by
  unfold Context.Binds at inFront inside
  constructor
  · intro same
    rw [← same] at inside
    generalize outerJumps first = marks at inFront inside
    cases inFront with
    | nil => rfl
    | cons bound _ =>
      cases inside with
      | cons bound' _ =>
        obtain ⟨around, head, spelled⟩ := bound
        obtain ⟨found, self, spelled'⟩ := bound'
        obtain rfl : own = found := Option.some.inj self
        obtain ⟨_, _, _, _, labels, labeled, -⟩ := copies.placed
        obtain ⟨k, later, rfl⟩ := copies.new _ labeled
        have mem : around ∈ ctx.loops := List.mem_of_mem_head? head
        exact absurd rfl (spelled.ne (old around mem) later labeled spelled')
  · rintro rfl
    generalize outerJumps first = one at inFront
    generalize outerJumps again = other at inside
    cases inFront
    cases inside
    rfl

/-- A verdict decides whether a computation ends well. -/
theorem Lower.Judges.ends_iff {m : Lower α} {ctx : Context} {verdict : Option Misplaced}
    (judges : Judges m ctx verdict) (p : Progress) :
    (∃ code a p', Ends m ctx p code a p') ↔ verdict = none := by
  have atStart := judges p
  unfold Ends
  generalize m ctx p = run at atStart ⊢
  obtain ⟨outcome, p'⟩ := run
  cases outcome with
  | done code a => simp [show verdict = none from atStart]
  | failed written fault =>
    obtain ⟨misplaced, rfl, -⟩ := atStart
    simp

/-- In a loop that is tested first, a condition that is held in a variable is lowered in front of the
    loop and at the end of each pass. Its own jumps are bound to the innermost loop around it, which is
    the loop around the whole in the first copy and the loop itself in the second one: so the copies
    agree just if there are no such jumps. Whether a copy can be lowered is decided by the loop around
    it, unless there are no such jumps; with them it cannot where there is no loop. -/
theorem condition_copies_jump_alike_iff {spec : Loop Tree} (testedFirst : spec.checkFirst = true) :
    (∀ type dest ctx p code p',
      Ends ((Tree.node (.loop spec) type).toStatement dest) ctx p code () p' →
        ∃ start p₁, Ends (lowerEffects (spec.init.map Tree.part)) ctx p start () p₁ ∧
          (spec.cond.isExpression p₁.scope.isLocal = false →
            ∃ first again own, spec.Copies ctx p code first again own ∧
              ctx.Binds spec.cond.ownJumps first ∧
              (ctx.enter own).Binds spec.cond.ownJumps again ∧
              (ctx.LabelsUpTo p.scope.labels →
                (outerJumps first = outerJumps again ↔ spec.cond.ownJumps = [])))) ∧
      (∀ dest ctx p, (∃ code p', Ends (spec.cond.toStatement dest) ctx p code () p') ↔
        spec.cond.misplaced? ctx.inside = none) ∧
      (spec.cond.ownJumps = [] → ∀ inside inside',
        spec.cond.misplaced? inside = spec.cond.misplaced? inside') ∧
      (spec.cond.ownJumps ≠ [] → spec.cond.misplaced? none ≠ none) := by
  refine ⟨?_, ?_, spec.cond.misplaced?_eq_of_ownJumps_eq_nil,
    mt spec.cond.ownJumps_eq_nil_of_misplaced?⟩
  · intro type dest ctx p code p' ends
    obtain ⟨start, p₁, init, copied⟩ := Loop.copies_of_ends testedFirst ends
    refine ⟨start, p₁, init, fun statements => ?_⟩
    obtain ⟨first, again, own, copies⟩ := copied statements
    obtain ⟨_, _, _, _, _, -, -, ⟨_, _, inFront⟩, ⟨_, _, inside⟩⟩ := copies.placed
    have bound := Tree.binds_ownJumps inFront
    have bound' := Tree.binds_ownJumps inside
    exact ⟨first, again, own, copies, bound, bound', fun old =>
      copies.outerJumps_eq_iff old bound bound'⟩
  · intro dest ctx p
    have verdict := ((spec.cond.judged ctx).statement dest).ends_iff p
    constructor
    · rintro ⟨code, p', ends⟩
      exact verdict.mp ⟨code, (), p', ends⟩
    · intro clear
      obtain ⟨code, _, p', ends⟩ := verdict.mpr clear
      exact ⟨code, p', ends⟩

/-- A condition that may leave the loop. -/
def leavingLoop : Loop Tree :=
  let leave : Tree := .node (.cond (.node (.var "done") .boolean)
    (some (.node (.jump .break) .void)) none) .void
  { cond := .node (.seq [leave, .node (.var "more") .boolean]) .boolean
    checkFirst := true
    negative := false
    body := some (.node (.call .implicit "work" [] .void) .void)
    redo := false
    init := none
    pre := none
    post := none }

/-- Inside of another loop, the `break` in front of the loop leaves the other loop, and the one at the
    end of a pass the loop itself. Outside of all loops the condition is refused. -/
theorem leavingLoop_breaks_apart :
    let ctx : Context :=
      ⟨"A", false, .void, [⟨.labeledWhile, some ⟨labelName 1, labelName 2⟩, none⟩]⟩
    let p : Progress := ⟨{ Scope.ofParams [⟨"more", .boolean⟩, ⟨"done", .boolean⟩] with labels := 2 }, []⟩
    leavingLoop.checkFirst = true ∧ leavingLoop.cond.ownJumps = [.break] ∧
      leavingLoop.cond.misplaced? none ≠ none ∧
      ∃ code p' first again own,
        Ends ((Tree.node (.loop leavingLoop) .void).toStatement .discard) ctx p code () p' ∧
          leavingLoop.Copies ctx p code first again own ∧
          outerJumps first = [.breaks (some (labelName 1))] ∧ outerJumps again ≠ outerJumps first := by
  intro ctx p
  have jumps : leavingLoop.cond.ownJumps = [.break] := rfl
  have some : leavingLoop.cond.ownJumps ≠ [] := by simp [jumps]
  obtain ⟨copied, -, -, refused⟩ := condition_copies_jump_alike_iff
    (rfl : leavingLoop.checkFirst = true)
  refine ⟨rfl, jumps, refused some, ?_⟩
  have accepted := (((Tree.node (.loop leavingLoop) .void).judged ctx).statement .discard).ends_iff p
  obtain ⟨code, _, p', ends⟩ := accepted.mpr rfl
  obtain ⟨start, p₁, init, copies⟩ := copied .void .discard ctx p code p' ends
  obtain ⟨first, again, own, copies, inFront, inside, alike⟩ := copies rfl
  have old : ctx.LabelsUpTo p.scope.labels := by
    intro loop mem labels labeled
    cases List.mem_singleton.mp mem
    cases labeled
    exact ⟨1, 2, by decide, by decide, rfl⟩
  refine ⟨code, p', first, again, own, ends, copies, ?_, ?_⟩
  · rw [jumps] at inFront
    unfold Context.Binds at inFront
    generalize outerJumps first = marks at inFront
    cases inFront with
    | cons bound rest =>
      cases rest
      obtain ⟨around, head, spelled⟩ := bound
      cases Option.some.inj head
      cases spelled
      rfl
  · exact fun same => some ((alike old).mp same.symm)

end JavaBackend
