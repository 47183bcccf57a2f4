import JavaBackend.Proofs.Jumps.Lowering
import JavaBackend.Proofs.Lowering.Appended

/-!
# Jumps in scope

The rules of Java for labels and jumps, for the code of a whole tree. All of them hold but one: a `next`
or `redo` goes by the label of the body of its loop, and is out of that label's scope where it stands in
front of the body or behind it, in a loop with labels. The main result says that this is the only way in
which a jump is out of scope.
-/

namespace JavaBackend

open Java (Mark Skeleton Stmt Code)

namespace Java

/-- Every label stands in front of a loop or a bare block. -/
def LabelsFit (code : Code) : Prop :=
  (Skeleton.marksAll (Stmt.codeSkeleton code)).all Mark.labelFits = true

/-- Every jump with a label stands in the statement that has the label. -/
def LabeledJumpsFit (code : Code) : Prop :=
  (Skeleton.placedAll [] (Stmt.codeSkeleton code)).all (fun place => place.2.inScope place.1) = true

/-- Every jump without a label stands in a loop, the innermost of which has no label. -/
def PlainJumpsFit (code : Code) : Prop :=
  (Skeleton.placedAll [] (Stmt.codeSkeleton code)).all (fun place => place.2.inPlainLoop place.1) =
    true

/-- The loops and jumps of the code are these, if some of the labels are those of loops and the others
    those of their bodies. -/
def StandsFor (code : Code) (nest : List Nest) : Prop :=
  ∃ bodies, Skeleton.nestAll bodies (Stmt.codeSkeleton code) = nest

end Java

open Java

variable {tree : Tree} {c : ClassDraft} {index : Nat} {m : MethodDraft}

/-- No loop stands around the code of a method. -/
theorem stands_nil (n : Nat) : Stands [] [] true n where
  old _ mem := nomatch mem
  plain _ mem := nomatch mem
  outer _ mem := nomatch mem
  inside _ mem := nomatch mem
  outside _ mem := nomatch mem

theorem Laid.standsFor {s s' : Supply} {code : Code} {nest : List Nest}
    (laid : Laid [] s (Stmt.codeSkeleton code) s' nest) : StandsFor code nest := by
  obtain ⟨bodies, second⟩ := exists_everySecond s.labels s'.labels
  exact ⟨bodies, laid.nestAll_eq second ⟨0, rfl⟩ (Nat.le_refl _) fun _ mem => nomatch mem⟩

/-- The code of a tree is well formed as far as jumps and labels go, and its loops and jumps are those
    of the tree. Its jumps with a label are in scope just if every `next` and `redo` of a loop with
    labels is kept in the body of that loop. -/
theorem labeled_jumps_fit_iff_kept (found : c.methods[index]? = some m) (opened : m.stage = .opened)
    (accepted : (c.lower index [] (tree.toStatement .discard)).1 = .ok ()) :
    ∃ code after nest, c.Appends index (tree.toStatement .discard) () code m after ∧
      tree.Nests nest ∧ StandsFor code nest ∧ (labelsOf code).Nodup ∧ LabelsFit code ∧
      PlainJumpsFit code ∧ (LabeledJumpsFit code ↔ Nest.keptAll nest = true) := by
  obtain ⟨code, p', ends⟩ := ClassDraft.ends_of_lower found accepted
  obtain ⟨after, appends, -⟩ := ClassDraft.appends_of_ends found opened ends
  obtain ⟨nest, comes, laid⟩ := tree.lays.statement .discard ends
  have nests : tree.Nests nest := by
    cases comes with
    | cons head tail =>
      cases tail
      rwa [List.append_nil]
  have stands := stands_nil m.scope.supply.labels
  refine ⟨code, after, nest, appends, nests, laid.standsFor, laid.fresh.nodup, laid.labelsFit,
    laid.inPlainLoop stands, ?_⟩
  rw [LabeledJumpsFit, laid.inScope_eq stands, Bool.true_or, Bool.and_true]

/-- A `next` behind the body of a loop leaves by a label that does not stand around it. -/
theorem next_behind_body_unscoped :
    let loop : Tree := .node (.loop ⟨.node (.var "more") .boolean, true, false,
      some (.node (.call .implicit "step" [] .void) .void), false, none, none,
      some (.node (.jump .next) .void)⟩) .void
    let m : MethodDraft := (MethodDraft.ofSignature
      ⟨"run", .member, .void, [⟨"more", .boolean⟩], []⟩ 2).start
    let c : ClassDraft := ⟨"a.mirah", none, "A", .classType .object false, [], [], .ofStep 2, [], [m],
      true, {}⟩
    c.methods[0]? = some m ∧ m.stage = .opened ∧
      (c.lower 0 [] (loop.toStatement .discard)).1 = .ok () ∧
      ∃ code after, c.Appends 0 (loop.toStatement .discard) () code m after ∧
        ¬ LabeledJumpsFit code := by
  intro loop m c
  have accepted : (c.lower 0 [] (loop.toStatement .discard)).1 = .ok () := rfl
  refine ⟨rfl, rfl, accepted, ?_⟩
  obtain ⟨code, after, nest, appends, nests, -, -, -, -, fit⟩ :=
    labeled_jumps_fit_iff_kept rfl rfl accepted
  refine ⟨code, after, appends, ?_⟩
  intro inScope
  have kept := fit.mp inScope
  change Tree.Nests (.node (.loop _) _) nest at nests
  cases nests with
  | plainLoop _ noPost => cases noPost
  | simple isSimple => cases isSimple
  | labeledLoop _ _ _ _ post =>
    cases post with
    | cons next _ =>
      cases next with
      | simple isSimple => cases isSimple
      | jump => simp [Nest.keptAll_append, Nest.keptAll, Nest.kept, Nest.needsBody] at kept

end JavaBackend
