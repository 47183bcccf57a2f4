import JavaBackend.Proofs.Lowering.Appended

/-!
# Loops that are refused

A `redo` needs a loop whose body may be run again. Before a loop without that is laid out, its body is
searched for a `redo` outside of the loops in it, and with one the loop is refused on the spot:
nothing is written, and no name is taken. But a `redo` of the loop can stand elsewhere: in front of the
body, behind it, in the condition, or in what a loop in the body does before its own passes. It is met only
when lowering comes to it, and then the loop is open already.

`Lower.Opens m ctx` says that `m` opens a block before any fault of it.
-/

namespace JavaBackend

open Java (Stmt Code Piece Expr Test)
open Lower

variable {α β : Type} {ctx : Context}

namespace Lower

/-- Whenever the computation faults, it has opened a block before. -/
def Opens (m : Lower α) (ctx : Context) : Prop :=
  ∀ p written fault p', m ctx p = ⟨.failed written fault, p'⟩ → ∃ heading, .opening heading ∈ written

theorem opens_of_apply {m : Lower α} (choice : ∀ p, ∃ m', m ctx p = m' ctx p ∧ Opens m' ctx) :
    Opens m ctx := by
  intro p written fault p' fails
  obtain ⟨m', same, opens⟩ := choice p
  exact opens p written fault p' (same.symm.trans fails)

/-- What does not fault opens nothing, and need not. -/
theorem Judges.opens {m : Lower α} (judges : Judges m ctx none) : Opens m ctx := by
  intro p written fault p' fails
  have atP := judges p
  rw [fails] at atP
  obtain ⟨_, impossible, -⟩ := atP
  cases impossible

theorem Opens.bind {m : Lower α} {f : α → Lower β} (first : Opens m ctx)
    (next : ∀ a, Opens (f a) ctx) : Opens (m >>= f) ctx := by
  intro p written fault p' fails
  change Lower.bind m f ctx p = _ at fails
  unfold Lower.bind at fails
  cases run : m ctx p with
  | mk outcome p₁ =>
    rw [run] at fails
    cases outcome with
    | failed written fault =>
      cases fails
      exact first p _ _ _ run
    | done code a =>
      dsimp only at fails
      cases rest : f a ctx p₁ with
      | mk outcome p₂ =>
        rw [rest] at fails
        cases outcome with
        | done more b => cases fails
        | failed more fault =>
          cases fails
          obtain ⟨heading, mem⟩ := next a p₁ _ _ _ rest
          exact ⟨heading, List.mem_append_right _ mem⟩

theorem opens_block {opened : Thunk (List Piece)} {heading : String}
    (mem : .opening heading ∈ opened.get) (body : Lower Unit) : Opens (block opened body) ctx := by
  intro p written fault p' fails
  unfold Lower.block at fails
  cases run : body ctx p with
  | mk outcome p₁ =>
    rw [run] at fails
    cases outcome with
    | done code a => cases fails
    | failed more fault =>
      cases fails
      exact ⟨heading, List.mem_append_left _ mem⟩

end Lower

/-! ## The body of a loop is lowered in an open block -/

theorem opens_lowerTestedLoop (spec : Loop Part) (cond : Expr) (held : Option Temp) :
    Opens (lowerTestedLoop spec cond held) ctx := by
  refine judges_freshLabel.opens.bind fun outer => judges_freshLabel.opens.bind fun inner => ?_
  refine Opens.bind (opens_block (List.mem_cons_of_mem _ (List.mem_singleton_self _)) _) fun _ => ?_
  exact (judges_emit _).opens

theorem opens_lowerPlainLoop {spec : Loop Part} (covers : judging.Covers () spec.cond)
    (clear : spec.cond.misplaced? ctx = none) : Opens (lowerPlainLoop spec) ctx := by
  have tested : Judges spec.cond.toInline ctx none := clear ▸ judging_singleton.mp covers.inline ctx
  refine tested.opens.bind fun cond => ?_
  refine Opens.bind (opens_block (List.mem_singleton_self _) _) fun _ => (judges_emit _).opens

theorem opens_lowerLabeledLoop {spec : Loop Part} (covers : judging.Covers () spec.cond)
    (clear : (if spec.checkFirst then spec.cond.misplaced? ctx else none) = none) :
    Opens (lowerLabeledLoop spec) ctx := by
  refine opens_of_apply fun p => ⟨_, lowerLabeledLoop_apply spec ctx p, ?_⟩
  split
  · next expression =>
    have tested : Judges spec.cond.toInline ctx none :=
      Part.misplacedIn?_of_isExpression expression ctx.inside ▸ judging_singleton.mp covers.inline ctx
    exact tested.opens.bind fun cond => opens_lowerTestedLoop spec _ _
  · refine (judges_newTemp _ _).opens.bind fun name => ?_
    refine Opens.bind ?_ fun _ => opens_lowerTestedLoop spec _ _
    split
    · next checked =>
      rw [if_pos checked] at clear
      have first := judging_singleton.mp (covers.statement (.store (.into name))) ctx
      rw [clear] at first
      exact first.opens
    · exact (judges_pure _).opens

theorem opens_lowerElements (spec : ForEach Part) (iterable : Expr) (copyOf : Option String) :
    Opens (lowerElements spec iterable copyOf) ctx := by
  unfold lowerElements
  dsimp only
  split
  · refine judges_freshLabel.opens.bind fun outer => judges_freshLabel.opens.bind fun inner => ?_
    refine Opens.bind (opens_block (List.mem_cons_of_mem _ (List.mem_singleton_self _)) _) fun _ => ?_
    exact (judges_emit _).opens
  · refine Opens.bind (opens_block (List.mem_singleton_self _) _) fun _ => (judges_emit _).opens

namespace Kind

variable {kind : Kind Part} {check : LoopCheck}

/-- A loop whose body is not refused at once, and whose parts in front of the first pass are in order, is
    opened before any fault. -/
theorem opens_of_unscanned (covers : ∀ part ∈ kind.children, judging.Covers () part)
    (looped : kind.loopCheck? Part.misplacedIn? Part.hasRedo ctx.inside = some check)
    (unscanned : check.scanned = false) (clear : check.prelude = none) (type : JavaType)
    (dest : Destination) : Opens ((kind.lowering type).statement dest) ctx := by
  have passed : ∀ {redo : Bool} {body : Option Part} (form : LoopForm),
      (!redo && body.any Part.hasRedo) = false →
      Opens (if redo then pure () else refuseRedo body form) ctx := by
    intro redo body form nothing
    have refused := @judges_redoCheck ctx redo body form
    rw [nothing, if_neg Bool.false_ne_true] at refused
    exact refused.opens
  cases kind with
  | loop spec =>
    cases looped
    obtain ⟨initClear, condClear⟩ := Option.or_eq_none_iff.mp clear
    have parts := Loop.each_of_children covers
    have init : Judges (lowerEffects spec.init) ctx none := initClear ▸ judges_lowerEffects parts.init
    refine Opens.bind (opens_of_apply fun p => ⟨_, lowerLoop_apply spec ctx p, ?_⟩)
      fun _ => (judges_putValue dest _).opens
    refine (passed _ unscanned).bind fun _ => init.opens.bind fun _ => ?_
    cases labeled : spec.isLabeled p.scope.isLocal with
    | true => exact opens_lowerLabeledLoop parts.cond condClear
    | false =>
      obtain ⟨-, -, expression⟩ := Loop.isLabeled_eq_false labeled
      exact opens_lowerPlainLoop parts.cond (Part.misplacedIn?_of_isExpression expression ctx.inside)
  | forEach spec =>
    cases looped
    have iterable : Judges spec.iterable.toExpr ctx none :=
      clear ▸ Part.judges_toExpr (covers _ List.mem_cons_self)
    refine Opens.bind ?_ fun _ => (judges_putValue dest _).opens
    rw [lowerForEach_eq]
    refine (passed _ unscanned).bind fun _ => iterable.opens.bind fun expr => ?_
    have chosen : Judges (eachCopy spec) ctx none :=
      judges_isLocal_bind (judges_freshName.map _) (judges_pure none)
    exact chosen.opens.bind fun copyOf => opens_lowerElements spec expr copyOf
  | _ => cases looped

/-- A loop with a `redo` that the search finds is refused on the spot. -/
theorem statement_of_scanned
    (looped : kind.loopCheck? Part.misplacedIn? Part.hasRedo ctx.inside = some check)
    (scanned : check.scanned = true) (type : JavaType) (dest : Destination) (p : Progress) :
    ∃ form, (kind.lowering type).statement dest ctx p = ⟨.failed [] (.redoUnsupported form), p⟩ := by
  have refused : ∀ {redo : Bool} {body : Option Part} (form : LoopForm),
      (!redo && body.any Part.hasRedo) = true →
      (if redo then pure () else refuseRedo body form : Lower Unit) ctx p =
        ⟨.failed [] (.redoUnsupported form), p⟩ := by
    intro redo body form found
    obtain ⟨plain, contained⟩ := Bool.and_eq_true_iff.mp found
    cases redo with
    | true => cases plain
    | false =>
      cases body with
      | none => cases contained
      | some part => exact congrFun (congrFun (if_pos contained) ctx) p
  cases kind with
  | loop spec =>
    cases looped
    have loop := (lowerLoop_apply spec ctx p).trans
      (Lower.bind_apply_of_failed (refused _ scanned) _)
    exact ⟨_, Lower.bind_apply_of_failed loop _⟩
  | forEach spec =>
    cases looped
    have loop := (congrFun (congrFun (lowerForEach_eq spec) ctx) p).trans
      (Lower.bind_apply_of_failed (refused _ scanned) _)
    exact ⟨_, Lower.bind_apply_of_failed loop _⟩
  | _ => cases looped

end Kind

namespace Tree

variable {tree : Tree} {check : LoopCheck}

theorem toStatement_of_scanned (looped : tree.loopCheck? ctx.inside = some check)
    (scanned : check.scanned = true) (dest : Destination) (p : Progress) :
    ∃ form, tree.toStatement dest ctx p = ⟨.failed [] (.redoUnsupported form), p⟩ := by
  obtain ⟨kind, type⟩ := tree
  have parts := (Kind.loopCheck?_map part Part.misplacedIn? Part.hasRedo ctx.inside kind).trans looped
  rw [toStatement, toStatement_node]
  exact Kind.statement_of_scanned parts scanned type dest p

/-- A `redo` that the search does not find is met when the loop is open. -/
theorem toStatement_of_unscanned (looped : tree.loopCheck? ctx.inside = some check)
    (own : check.isOwnRedo = true) (unscanned : check.scanned = false) (dest : Destination)
    (p : Progress) :
    ∃ form written heading p',
      tree.toStatement dest ctx p = ⟨.failed written (.redoUnsupported form), p'⟩ ∧
        .opening heading ∈ written := by
  obtain ⟨kind, type⟩ := tree
  have parts := (Kind.loopCheck?_map part Part.misplacedIn? Part.hasRedo ctx.inside kind).trans looped
  have covers : ∀ child ∈ (kind.map part).children, judging.Covers () child := by
    rw [Kind.children_map]
    exact List.forall_mem_map.mpr fun tree _ => tree.covers
  have clear : check.prelude = none := (LoopCheck.clear_of_isOwnRedo own unscanned).1
  have opens := Kind.opens_of_unscanned covers parts unscanned clear type dest p
  have verdict := ((Tree.node kind type).judged ctx).statement dest p
  have misplaced : (Tree.node kind type).part.misplaced? ctx = some .redoWithin := by
    rw [← LoopCheck.misplaced?_of_isOwnRedo own, ← Kind.misplaced?_of_loopCheck? looped]
    exact misplaced?_node ctx.inside kind type
  rw [misplaced, toStatement_node] at verdict
  rw [toStatement, toStatement_node]
  cases run : ((kind.map part).lowering type).statement dest ctx p with
  | mk outcome p' =>
    rw [run] at verdict opens
    cases outcome with
    | done code result => cases verdict
    | failed written fault =>
      obtain ⟨_, same, explains⟩ := verdict
      cases same
      obtain ⟨form, rfl⟩ := explains
      obtain ⟨heading, mem⟩ := opens written _ p' rfl
      exact ⟨form, written, heading, p', rfl, mem⟩

end Tree

/-! ## Text grows -/

namespace Text.Buffer

theorem length_text_lt_push (b : Buffer) (c : Char) : b.text.length < (b.push c).text.length := by
  unfold push
  split
  · simp
  · split
    · rw [String.length_push, String.length_append]
      omega
    · simp

theorem length_text_le_print (b : Buffer) (text : String) :
    b.text.length ≤ (b.print text).text.length := by
  unfold print
  induction text.toList generalizing b with
  | nil => exact Nat.le_refl _
  | cons c rest ih => exact Nat.le_trans (Nat.le_of_lt (b.length_text_lt_push c)) (ih (b.push c))

theorem length_text_lt_putLine (b : Buffer) (line : String) :
    b.text.length < (b.putLine line).text.length :=
  Nat.lt_of_le_of_lt (b.length_text_le_print line) (length_text_lt_push _ _)

end Text.Buffer

theorem length_text_lt_layPiece (out : Text.Buffer) (piece : Piece) :
    out.text.length < (layPiece out piece).text.length := by
  cases piece with
  | line text => exact out.length_text_lt_putLine text
  | opening heading => exact out.length_text_lt_putLine _
  | next heading => exact out.dedent.length_text_lt_putLine _
  | closing tail => exact out.dedent.length_text_lt_putLine _

theorem length_text_le_layPieces (out : Text.Buffer) (pieces : List Piece) :
    out.text.length ≤ (pieces.foldl layPiece out).text.length := by
  induction pieces generalizing out with
  | nil => exact Nat.le_refl _
  | cons piece rest ih =>
    exact Nat.le_trans (Nat.le_of_lt (length_text_lt_layPiece out piece)) (ih (layPiece out piece))

theorem length_text_lt_layPieces (out : Text.Buffer) {pieces : List Piece} (some? : pieces ≠ []) :
    out.text.length < (pieces.foldl layPiece out).text.length := by
  obtain ⟨piece, rest, rfl⟩ := List.exists_cons_of_ne_nil some?
  exact Nat.lt_of_lt_of_le (length_text_lt_layPiece out piece) (length_text_le_layPieces _ rest)

/-! ## Loops in a method -/

/-- A loop whose first misplaced jump is a `redo` of its own is refused over a `redo`. If the search in its
    body finds a `redo`, the class stays as it is, at any stage of the method. If not, the `redo` is met
    behind the opening of the loop, so that an open method is left with text that was not there before. -/
theorem own_redo_refused_unwritten_iff_scanned {c : ClassDraft} {index : Nat} {m : MethodDraft}
    {tree : Tree} {check : LoopCheck} (found : c.methods[index]? = some m)
    (loops : List EnclosingLoop)
    (looped : tree.loopCheck? (c.context m loops).inside = some check)
    (own : check.isOwnRedo = true) (dest : Destination) :
    ∃ form, (c.lower index loops (tree.toStatement dest)).1 = .error (.redoUnsupported form) ∧
      (check.scanned = true → (c.lower index loops (tree.toStatement dest)).2 = c) ∧
      (check.scanned = false → m.stage = .opened →
        ∃ m', (c.lower index loops (tree.toStatement dest)).2.methods[index]? = some m' ∧
          m.out.text.length < m'.out.text.length) := by
  cases scanned : check.scanned with
  | true =>
    obtain ⟨form, run⟩ := Tree.toStatement_of_scanned looped scanned dest ⟨m.scope, []⟩
    rw [ClassDraft.lower_of_unmoved found run rfl rfl]
    exact ⟨form, rfl, fun _ => rfl, fun unscanned => nomatch unscanned⟩
  | false =>
    obtain ⟨form, written, heading, p', run, mem⟩ :=
      Tree.toStatement_of_unscanned looped own scanned dest ⟨m.scope, []⟩
    refine ⟨form, ?_, (fun impossible => nomatch impossible), fun _ opened => ?_⟩
    · rw [ClassDraft.lower_of_found found, run]
      rfl
    · refine ⟨_, ClassDraft.methods_of_opened found opened run, ?_⟩
      exact length_text_lt_layPieces m.out (List.ne_nil_of_mem mem)

/-- A loop with a `redo` at the start of each pass, or in its body. -/
def redoLoop (inFront : Bool) : Tree :=
  let redo : Tree := .node (.jump .redo) .void
  let step : Tree := .node (.call .implicit "step" [] .void) .void
  .node (.loop ⟨.node (.var "more") .boolean, true, false, some (if inFront then step else redo), false,
    none, if inFront then some redo else none, none⟩) .void

theorem redo_in_front_leaves_text :
    let m : MethodDraft :=
      (MethodDraft.ofSignature ⟨"run", .member, .void, [⟨"more", .boolean⟩], []⟩ 2).start
    let c : ClassDraft := ⟨"a.mirah", none, "A", .classType .object false, [], [], .ofStep 2, [], [m],
      true, {}⟩
    c.methods[0]? = some m ∧ m.stage = .opened ∧
      (redoLoop true).loopCheck? none = some ⟨false, none, some .redoAround⟩ ∧
      (redoLoop false).loopCheck? none = some ⟨true, none, some .redoAround⟩ ∧
      (∃ form, (c.lower 0 [] ((redoLoop true).toStatement .discard)).1 =
          .error (.redoUnsupported form) ∧
        ∃ m', (c.lower 0 [] ((redoLoop true).toStatement .discard)).2.methods[0]? = some m' ∧
          m.out.text.length < m'.out.text.length) ∧
      ∃ form, (c.lower 0 [] ((redoLoop false).toStatement .discard)).1 =
          .error (.redoUnsupported form) ∧
        (c.lower 0 [] ((redoLoop false).toStatement .discard)).2 = c := by
  intro m c
  have found : c.methods[0]? = some m := rfl
  have opened : m.stage = .opened := rfl
  have unscanned : (redoLoop true).loopCheck? none = some ⟨false, none, some .redoAround⟩ := rfl
  have scanned : (redoLoop false).loopCheck? none = some ⟨true, none, some .redoAround⟩ := rfl
  obtain ⟨form, refused, -, grows⟩ :=
    own_redo_refused_unwritten_iff_scanned found [] unscanned rfl .discard
  obtain ⟨form', refused', stays, -⟩ :=
    own_redo_refused_unwritten_iff_scanned found [] scanned rfl .discard
  exact ⟨found, opened, unscanned, scanned, ⟨form, refused, grows rfl opened⟩, form', refused',
    stays rfl⟩

end JavaBackend
