import JavaBackend.Lowering.Draft
import JavaBackend.Proofs.Lowering.Acceptance

/-!
# Code in a method

What a lowering that ends well leaves behind in a method: its code is laid out behind the method's
text, if the method is open, and the method's supplies of names have moved on.
-/

namespace JavaBackend

open Java (Stmt Code)
open Lower

variable {α : Type}

theorem Lower.Accepts.ends {lowering : Lower α} {ctx : Context} {ok : Prop}
    (accepts : Accepts lowering ctx ok) (holds : ok) (p : Progress) :
    ∃ code result p', Ends lowering ctx p code result p' := by
  have atStart := accepts p
  unfold Ends
  generalize lowering ctx p = run at atStart ⊢
  obtain ⟨outcome, p'⟩ := run
  cases outcome with
  | done code result => exact ⟨code, result, p', rfl⟩
  | failed written fault => exact absurd holds atStart.1

namespace ClassDraft

/-- Lowering into a method gives a result, and appends the code to the method's text. -/
structure Appends (c : ClassDraft) (index : Nat) (lowering : Lower α) (result : α) (code : Code)
    (before after : MethodDraft) : Prop where
  found : c.methods[index]? = some before
  ends : ∃ fields, Ends lowering (c.context before []) ⟨before.scope, []⟩ code result
    ⟨after.scope, fields⟩
  result : (c.lower index [] lowering).1 = .ok result
  left : (c.lower index [] lowering).2.methods[index]? = some after
  text : after.out = (Stmt.codePieces code).foldl layPiece before.out

theorem methods_sealHeader (c : ClassDraft) : c.sealHeader.methods = c.methods := by
  unfold sealHeader
  split <;> rfl

theorem methods_useFields (c : ClassDraft) (uses : List FieldUse) :
    (c.useFields uses).methods = c.methods := by
  unfold useFields
  induction uses generalizing c with
  | nil => rfl
  | cons use rest ih =>
    rw [List.foldl_cons, ih]
    unfold addField
    split
    · rfl
    · exact methods_sealHeader c

variable {c : ClassDraft} {index : Nat} {m : MethodDraft} {lowering : Lower α} {result : α}

theorem lower_of_found (found : c.methods[index]? = some m) (loops : List EnclosingLoop) :
    c.lower index loops lowering =
      let run := lowering (c.context m loops) ⟨m.scope, []⟩
      (run.outcome.toExcept, (c.setMethod index (({ m with scope := run.progress.scope } :
        MethodDraft).lay run.outcome.pieces)).useFields run.progress.fields) := by
  unfold lower
  rw [found]

/-- A lowering that lays out nothing and leaves the scope alone leaves the method as it is, at any stage
    of it and whether or not it ends well. -/
theorem lower_of_unmoved {lowering : Lower α} {loops : List EnclosingLoop}
    {outcome : Outcome α} {p' : Progress} (found : c.methods[index]? = some m)
    (run : lowering (c.context m loops) ⟨m.scope, []⟩ = ⟨outcome, p'⟩)
    (nothing : outcome.pieces = []) (unmoved : p'.scope = m.scope) :
    c.lower index loops lowering = (outcome.toExcept, c.useFields p'.fields) := by
  have untouched : ({ m with scope := p'.scope } : MethodDraft).lay outcome.pieces = m := by
    rw [unmoved, nothing]
    unfold MethodDraft.lay MethodDraft.write
    split <;> rfl
  have replaced : c.setMethod index m = c := by
    have same : c.methods.set index m = c.methods := by
      refine List.ext_getElem? fun i => ?_
      rw [List.getElem?_set]
      split
      · next here =>
        subst here
        rw [if_pos (List.getElem?_eq_some_iff.mp found).1, found]
      · rfl
    unfold setMethod
    rw [same]
  rw [lower_of_found found, run]
  show (outcome.toExcept, (c.setMethod index (MethodDraft.lay _ outcome.pieces)).useFields _) = _
  rw [untouched, replaced]

/-- What a lowering leaves behind in a class with an open method, whether or not it ends well. -/
theorem lower_of_opened {loops : List EnclosingLoop} {outcome : Outcome α} {p' : Progress}
    (found : c.methods[index]? = some m) (opened : m.stage = .opened)
    (run : lowering (c.context m loops) ⟨m.scope, []⟩ = ⟨outcome, p'⟩) :
    c.lower index loops lowering = (outcome.toExcept, (c.setMethod index { m with
      scope := p'.scope, out := outcome.pieces.foldl layPiece m.out }).useFields p'.fields) := by
  have laid : ({ m with scope := p'.scope } : MethodDraft).lay outcome.pieces =
      { m with scope := p'.scope, out := outcome.pieces.foldl layPiece m.out } := by
    unfold MethodDraft.lay MethodDraft.write
    rw [opened]
    rfl
  rw [lower_of_found found, run, ← laid]

theorem methods_of_opened {loops : List EnclosingLoop} {outcome : Outcome α} {p' : Progress}
    (found : c.methods[index]? = some m) (opened : m.stage = .opened)
    (run : lowering (c.context m loops) ⟨m.scope, []⟩ = ⟨outcome, p'⟩) :
    (c.lower index loops lowering).2.methods[index]? =
      some { m with scope := p'.scope, out := outcome.pieces.foldl layPiece m.out } := by
  rw [lower_of_opened found opened run, methods_useFields]
  exact List.getElem?_set_self (List.getElem?_eq_some_iff.mp found).1

/-- What a lowering that ends well leaves behind in a class with an open method. -/
theorem lower_eq_of_ends {loops : List EnclosingLoop} (found : c.methods[index]? = some m)
    (opened : m.stage = .opened) {code : Code} {p' : Progress}
    (ends : Ends lowering (c.context m loops) ⟨m.scope, []⟩ code result p') :
    c.lower index loops lowering = (.ok result, (c.setMethod index { m with
      scope := p'.scope, out := (Stmt.codePieces code).foldl layPiece m.out }).useFields
        p'.fields) :=
  lower_of_opened found opened ends

/-- What a lowering that ends well leaves behind in an open method, inside any loops. -/
theorem lower_of_ends {loops : List EnclosingLoop} (found : c.methods[index]? = some m)
    (opened : m.stage = .opened) {code : Code} {p' : Progress}
    (ends : Ends lowering (c.context m loops) ⟨m.scope, []⟩ code result p') :
    (c.lower index loops lowering).1 = .ok result ∧
      (c.lower index loops lowering).2.methods[index]? =
        some { m with scope := p'.scope, out := (Stmt.codePieces code).foldl layPiece m.out } := by
  refine ⟨?_, methods_of_opened found opened ends⟩
  rw [lower_eq_of_ends found opened ends]

/-- A lowering that ends well appends its code to an open method. -/
theorem appends_of_ends (found : c.methods[index]? = some m) (opened : m.stage = .opened)
    {code : Code} {p' : Progress}
    (ends : Ends lowering (c.context m []) ⟨m.scope, []⟩ code result p') :
    ∃ after, c.Appends index lowering result code m after ∧ after.scope = p'.scope := by
  obtain ⟨ok, left⟩ := lower_of_ends found opened ends
  exact ⟨_, ⟨found, ⟨p'.fields, ends⟩, ok, left, rfl⟩, rfl⟩

/-- A lowering with a result ends well. -/
theorem ends_of_lower {loops : List EnclosingLoop} (found : c.methods[index]? = some m)
    (ok : (c.lower index loops lowering).1 = .ok result) :
    ∃ code p', Ends lowering (c.context m loops) ⟨m.scope, []⟩ code result p' := by
  rw [lower_of_found found] at ok
  unfold Ends
  generalize lowering (c.context m loops) ⟨m.scope, []⟩ = run at ok ⊢
  obtain ⟨outcome, p'⟩ := run
  cases outcome with
  | done code value =>
    cases ok
    exact ⟨code, p', rfl⟩
  | failed written fault => cases ok

/-- A tree whose jumps are well placed is lowered, whatever becomes of its value. -/
theorem lower_of_wellPlaced (found : c.methods[index]? = some m) (opened : m.stage = .opened)
    {tree : Tree} (placed : tree.wellPlaced none = true) (dest : Destination) :
    (c.lower index [] (tree.toStatement dest)).1 = .ok () := by
  obtain ⟨code, result, p', ends⟩ :=
    ((tree.fits (c.context m [])).statement dest).ends placed ⟨m.scope, []⟩
  exact (lower_of_ends found opened ends).1

end ClassDraft

end JavaBackend
