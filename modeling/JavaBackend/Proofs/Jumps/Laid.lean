import JavaBackend.Proofs.Jumps.Nest
import JavaBackend.Proofs.Lowering.Ends

/-!
# The skeletons that lowering lays out

`Laid` describes all skeletons that lowering lays out, together with the loops and jumps that they stand
for and the names that they take from the supplies. What is said here of their labels, jumps and
variables is by induction over these skeletons, and does not look at the lowering.
-/

namespace JavaBackend

open Java (Mark Skeleton)

namespace EnclosingLoop

/-- How a jump of the loop is spelled in Java. -/
inductive Spells (loop : EnclosingLoop) : Jump → Mark → Prop
  | break : Spells loop .break (.breaks (loop.labels.map LabelPair.outer))
  | nextPlain (plain : loop.labels = none) : Spells loop .next (.continues none)
  | nextLabeled {labels : LabelPair} (labeled : loop.labels = some labels) :
    Spells loop .next (.breaks (some labels.inner))
  | redo {labels : LabelPair} (labeled : loop.labels = some labels)
    (flagged : loop.redoFlag.isSome = true) : Spells loop .redo (.continues (some labels.inner))

/-- The labeled body of the loop: a loop itself if it may be run again. -/
def bodyMark (loop : EnclosingLoop) (inner : String) : Mark :=
  if loop.redoFlag.isSome then .loop (some inner) else .block (some inner)

theorem label?_bodyMark (loop : EnclosingLoop) (inner : String) :
    (loop.bodyMark inner).label? = some inner := by
  unfold bodyMark
  split <;> rfl

theorem declared?_bodyMark (loop : EnclosingLoop) (inner : String) :
    (loop.bodyMark inner).declared? = none := by
  unfold bodyMark
  split <;> rfl

theorem labelFits_bodyMark (loop : EnclosingLoop) (inner : String) :
    (loop.bodyMark inner).labelFits = true := by
  unfold bodyMark
  split <;> rfl

end EnclosingLoop

/-- A skeleton that is laid out inside some loops, with the names that it takes and the loops and jumps
    that it stands for. -/
inductive Laid : List EnclosingLoop → Supply → List Skeleton → Supply → List Nest → Prop
  | nil {loops : List EnclosingLoop} {s : Supply} : Laid loops s [] s []
  | append {loops : List EnclosingLoop} {s s₁ s₂ : Supply} {one two : List Skeleton}
    {nest nest' : List Nest} (first : Laid loops s one s₁ nest) (second : Laid loops s₁ two s₂ nest') :
    Laid loops s (one ++ two) s₂ (nest ++ nest')
  | declared {loops : List EnclosingLoop} {s : Supply} (name : String) :
    Laid loops s [.node (.declares name) []] s []
  | temp {loops : List EnclosingLoop} {s : Supply} :
    Laid loops s [.node (.declares (tempName (s.temps + 1))) []] ⟨s.temps + 1, s.labels⟩ []
  | jump {loop : EnclosingLoop} {loops : List EnclosingLoop} {s : Supply} {action : Jump} {mark : Mark}
    (spelled : loop.Spells action mark) :
    Laid (loop :: loops) s [.node mark []] s [.jump action]
  | plain {loops : List EnclosingLoop} {s s' : Supply} {inside : List Skeleton} {nest : List Nest}
    {loop : EnclosingLoop} (unlabeled : loop.labels = none)
    (pass : Laid (loop :: loops) s inside s' nest) :
    Laid loops s [.node (.loop none) inside] s' [.plain nest]
  | labeled {loops : List EnclosingLoop} {s s₁ s₂ s₃ : Supply} {front inside back : List Skeleton}
    {before body after : List Nest} {loop : EnclosingLoop}
    (labels : loop.labels = some ⟨labelName (s.labels + 1), labelName (s.labels + 2)⟩)
    (pre : Laid (loop :: loops) ⟨s.temps, s.labels + 2⟩ front s₁ before)
    (pass : Laid (loop :: loops) s₁ inside s₂ body) (post : Laid (loop :: loops) s₂ back s₃ after) :
    Laid loops s [.node (.loop (some (labelName (s.labels + 1))))
      (front ++ .node (loop.bodyMark (labelName (s.labels + 2))) inside :: back)] s₃
      [.labeled before body after]

namespace Laid

variable {loops : List EnclosingLoop} {s s' : Supply} {skeleton : List Skeleton} {nest : List Nest}

theorem grows (laid : Laid loops s skeleton s' nest) :
    s.temps ≤ s'.temps ∧ s.labels ≤ s'.labels := by
  induction laid with
  | nil | declared | jump => exact ⟨Nat.le_refl _, Nat.le_refl _⟩
  | append _ _ first second => omega
  | temp => exact ⟨Nat.le_succ _, Nat.le_refl _⟩
  | plain _ _ pass => exact pass
  | labeled _ _ _ _ pre pass post =>
    simp only at pre
    omega

/-- Every temporary that is taken from the supply is declared. -/
theorem declares (laid : Laid loops s skeleton s' nest) :
    ∀ k, s.temps < k → k ≤ s'.temps →
      tempName k ∈ (Skeleton.marksAll skeleton).filterMap Mark.declared? := by
  induction laid with
  | nil | declared | jump => intro k low high; omega
  | @append _ _ s₁ _ _ _ _ _ _ _ first second =>
    intro k low high
    rw [Skeleton.marksAll_append, List.filterMap_append, List.mem_append]
    by_cases early : k ≤ s₁.temps
    · exact .inl (first k low early)
    · exact .inr (second k (by omega) high)
  | temp =>
    intro k low high
    have same := Nat.le_antisymm high low
    subst same
    exact List.mem_cons_self
  | plain _ _ pass =>
    rw [Skeleton.marksAll_singleton, List.filterMap_cons_none rfl]
    exact pass
  | @labeled _ _ s₁ s₂ _ _ _ _ _ _ _ loop _ _ _ _ pre pass post =>
    intro k low high
    rw [Skeleton.marksAll_singleton, List.filterMap_cons_none rfl, Skeleton.marksAll_body,
      List.filterMap_append, List.filterMap_cons_none (loop.declared?_bodyMark _),
      List.filterMap_append, List.mem_append, List.mem_append]
    by_cases early : k ≤ s₁.temps
    · exact .inl (pre k low early)
    · by_cases late : k ≤ s₂.temps
      · exact .inr (.inl (pass k (by omega) late))
      · exact .inr (.inr (post k (by omega) high))

/-! ## Labels -/

/-- The labels are different ones with numbers from `lo + 1` to `hi`. -/
structure Fresh (lo hi : Nat) (labels : List String) : Prop where
  nodup : labels.Nodup
  numbered : ∀ label ∈ labels, ∃ k, lo < k ∧ k ≤ hi ∧ label = labelName k

theorem Fresh.append {lo mid hi : Nat} {first second : List String} (one : Fresh lo mid first)
    (other : Fresh mid hi second) (below : lo ≤ mid) (above : mid ≤ hi) :
    Fresh lo hi (first ++ second) where
  nodup := by
    refine List.nodup_append.mpr ⟨one.nodup, other.nodup, ?_⟩
    intro label mem label' mem' same
    obtain ⟨k, -, high, rfl⟩ := one.numbered label mem
    obtain ⟨k', low, -, rfl⟩ := other.numbered label' mem'
    have := labelName_inj same
    omega
  numbered label mem := by
    rcases List.mem_append.mp mem with early | late
    · obtain ⟨k, low, high, same⟩ := one.numbered label early
      exact ⟨k, low, Nat.le_trans high above, same⟩
    · obtain ⟨k, low, high, same⟩ := other.numbered label late
      exact ⟨k, Nat.lt_of_le_of_lt below low, high, same⟩

theorem Fresh.perm {lo hi : Nat} {first second : List String} (fresh : Fresh lo hi first)
    (perm : first.Perm second) : Fresh lo hi second where
  nodup := perm.nodup fresh.nodup
  numbered label mem := fresh.numbered label (perm.mem_iff.mpr mem)

theorem fresh_pair (n : Nat) : Fresh n (n + 2) [labelName (n + 1), labelName (n + 2)] where
  nodup := by
    have ne : labelName (n + 1) ≠ labelName (n + 2) := by
      intro same
      have := labelName_inj same
      omega
    simp [ne]
  numbered label mem := by
    simp only [List.mem_cons, List.not_mem_nil, or_false] at mem
    rcases mem with rfl | rfl
    · exact ⟨n + 1, by omega, by omega, rfl⟩
    · exact ⟨n + 2, by omega, by omega, rfl⟩

theorem fresh_nil (n : Nat) : Fresh n n [] := ⟨List.nodup_nil, fun _ mem => nomatch mem⟩

/-- No label is declared twice. -/
theorem fresh (laid : Laid loops s skeleton s' nest) :
    Fresh s.labels s'.labels ((Skeleton.marksAll skeleton).filterMap Mark.label?) := by
  induction laid with
  | nil | declared | temp => exact fresh_nil _
  | jump spelled => cases spelled <;> exact fresh_nil _
  | append first second one other =>
    rw [Skeleton.marksAll_append, List.filterMap_append]
    exact one.append other first.grows.2 second.grows.2
  | plain _ _ pass =>
    rw [Skeleton.marksAll_singleton, List.filterMap_cons_none rfl]
    exact pass
  | @labeled _ s _ _ _ _ _ _ _ _ _ loop _ pre pass post front inside back =>
    have outer : Mark.label? (.loop (some (labelName (s.labels + 1)))) = some _ := rfl
    rw [Skeleton.marksAll_singleton, List.filterMap_cons_some outer, Skeleton.marksAll_body,
      List.filterMap_append, List.filterMap_cons_some (loop.label?_bodyMark _),
      List.filterMap_append]
    have passed := inside.append back pass.grows.2 post.grows.2
    have later := Nat.le_trans pass.grows.2 post.grows.2
    have inLoop := front.append passed pre.grows.2 later
    have all := (fresh_pair s.labels).append inLoop (by omega) (Nat.le_trans pre.grows.2 later)
    -- The body's label stands behind what is in front of the body.
    rw [List.cons_append, List.cons_append, List.nil_append] at all
    exact all.perm (List.Perm.cons _ List.perm_middle.symm)

/-- Every label stands in front of a loop or a bare block. -/
theorem labelsFit (laid : Laid loops s skeleton s' nest) :
    (Skeleton.marksAll skeleton).all Mark.labelFits = true := by
  induction laid with
  | nil | declared | temp => rfl
  | jump spelled => cases spelled <;> rfl
  | append _ _ one other => rw [Skeleton.marksAll_append, List.all_append, one, other, Bool.and_self]
  | plain _ _ pass =>
    rw [Skeleton.marksAll_singleton, List.all_cons]
    exact pass
  | @labeled _ _ _ _ _ _ _ _ _ _ _ loop _ _ _ _ pre pass post =>
    simp only [Skeleton.marksAll_singleton, Skeleton.marksAll_body, List.all_cons, List.all_append,
      loop.labelFits_bodyMark, pre, pass, post, Bool.and_self, Bool.and_true]
    rfl

end Laid

/-! ## Jumps -/

/-- What stands around code inside of some loops, when `n` labels were handed out. `inBody` says
    whether a labeled body of the innermost loop is around the code. -/
structure Stands (loops : List EnclosingLoop) (around : List Mark) (inBody : Bool) (n : Nat) :
    Prop where
  old : ∀ mark ∈ around, ∀ label, mark.label? = some label → ∃ k, k ≤ n ∧ label = labelName k
  plain : ∀ loop ∈ loops.head?, loop.labels = none →
    around.find? Mark.isLoop = some (.loop none) ∧ inBody = true
  outer : ∀ loop ∈ loops.head?, ∀ labels ∈ loop.labels, .loop (some labels.outer) ∈ around
  inside : ∀ loop ∈ loops.head?, ∀ labels ∈ loop.labels, inBody = true →
    loop.bodyMark labels.inner ∈ around
  outside : ∀ loop ∈ loops.head?, ∀ labels ∈ loop.labels, inBody = false →
    ∀ mark ∈ around, mark.label? ≠ some labels.inner

namespace Stands

variable {loops : List EnclosingLoop} {loop : EnclosingLoop} {around : List Mark} {inBody : Bool}
  {n : Nat}

theorem mono {n' : Nat} (stands : Stands loops around inBody n) (later : n ≤ n') :
    Stands loops around inBody n' where
  old mark mem label own := by
    obtain ⟨k, below, same⟩ := stands.old mark mem label own
    exact ⟨k, Nat.le_trans below later, same⟩
  plain := stands.plain
  outer := stands.outer
  inside := stands.inside
  outside := stands.outside

theorem inScope_breaks {mark : Mark} {label : String} (mem : mark ∈ around)
    (own : mark.label? = some label) : Mark.inScope around (.breaks (some label)) = true :=
  List.any_eq_true.mpr ⟨mark, mem, beq_iff_eq.mpr own⟩

/-- Outside of the body no jump reaches the body's label. -/
theorem not_inScope {label : String} (outside : ∀ mark ∈ around, mark.label? ≠ some label) :
    Mark.inScope around (.breaks (some label)) = false ∧
      Mark.inScope around (.continues (some label)) = false := by
  constructor
  · refine List.any_eq_false.mpr fun mark mem => ?_
    rw [beq_iff_eq]
    exact outside mark mem
  · rw [Mark.inScope, Bool.eq_false_iff]
    intro found
    exact outside _ (List.contains_iff_mem.mp found) rfl

/-- A jump is in scope unless it goes by the label of a body and stands elsewhere. -/
theorem inScope_jump (stands : Stands (loop :: loops) around inBody n) {action : Jump} {mark : Mark}
    (spelled : loop.Spells action mark) :
    mark.inScope around = (inBody || !(Nest.jump action).needsBody) := by
  cases spelled with
  | «break» =>
    rw [Nest.needsBody, Bool.not_false, Bool.or_true]
    cases labeled : loop.labels with
    | none => rfl
    | some labels => exact inScope_breaks (stands.outer loop rfl labels labeled) rfl
  | nextPlain plain =>
    obtain ⟨-, rfl⟩ := stands.plain loop rfl plain
    rfl
  | nextLabeled labeled =>
    cases inBody with
    | true =>
      have body := stands.inside loop rfl _ labeled rfl
      exact inScope_breaks body (loop.label?_bodyMark _)
    | false => exact (not_inScope (stands.outside loop rfl _ labeled rfl)).1
  | redo labeled flagged =>
    cases inBody with
    | true =>
      have body := stands.inside loop rfl _ labeled rfl
      rw [EnclosingLoop.bodyMark, if_pos flagged] at body
      exact List.contains_iff_mem.mpr body
    | false => exact (not_inScope (stands.outside loop rfl _ labeled rfl)).2

/-- A jump without a label belongs to a loop without labels. -/
theorem inPlainLoop_jump (stands : Stands (loop :: loops) around inBody n) {action : Jump}
    {mark : Mark} (spelled : loop.Spells action mark) : mark.inPlainLoop around = true := by
  cases spelled with
  | «break» =>
    cases labeled : loop.labels with
    | none => exact beq_iff_eq.mpr (stands.plain loop rfl labeled).1
    | some labels => rfl
  | nextPlain plain => exact beq_iff_eq.mpr (stands.plain loop rfl plain).1
  | nextLabeled | redo => rfl

/-- Inside of a loop without labels. -/
theorem enterPlain (stands : Stands loops around inBody n) (unlabeled : loop.labels = none) :
    Stands (loop :: loops) (.loop none :: around) true n where
  old mark mem label own := by
    rcases List.mem_cons.mp mem with rfl | old
    · cases own
    · exact stands.old mark old label own
  plain _ _ _ := ⟨rfl, rfl⟩
  outer other same labels labeled := by
    cases same
    cases unlabeled.symm.trans labeled
  inside other same labels labeled := by
    cases same
    cases unlabeled.symm.trans labeled
  outside _ _ _ _ elsewhere := nomatch elsewhere

/-- Inside of a loop with labels, but not in its body. -/
theorem enterLabeled (stands : Stands loops around inBody n)
    (labels : loop.labels = some ⟨labelName (n + 1), labelName (n + 2)⟩) :
    Stands (loop :: loops) (.loop (some (labelName (n + 1))) :: around) false (n + 2) where
  old mark mem label own := by
    rcases List.mem_cons.mp mem with rfl | old
    · cases own
      exact ⟨n + 1, by omega, rfl⟩
    · obtain ⟨k, below, same⟩ := stands.old mark old label own
      exact ⟨k, by omega, same⟩
  plain other same unlabeled := by
    cases same
    cases labels.symm.trans unlabeled
  outer other same own labeled := by
    cases same
    cases labels.symm.trans labeled
    exact List.mem_cons_self
  inside _ _ _ _ inBody := nomatch inBody
  outside other same own labeled _ mark mem inner := by
    cases same
    cases labels.symm.trans labeled
    have number : ∃ k, k ≤ n + 1 ∧ labelName (n + 2) = labelName k := by
      rcases List.mem_cons.mp mem with rfl | old
      · exact ⟨n + 1, Nat.le_refl _, (Option.some.inj inner).symm⟩
      · obtain ⟨k, below, same⟩ := stands.old mark old _ inner
        exact ⟨k, by omega, same⟩
    obtain ⟨k, below, same⟩ := number
    have := labelName_inj same
    omega

/-- In the body of a loop with labels. -/
theorem enterBody {k : Nat} {outer : String} (stands : Stands (loop :: loops) around false n)
    (labels : loop.labels = some ⟨outer, labelName k⟩) (old : k ≤ n) :
    Stands (loop :: loops) (loop.bodyMark (labelName k) :: around) true n where
  old mark mem label own := by
    rcases List.mem_cons.mp mem with rfl | before
    · rw [loop.label?_bodyMark] at own
      exact ⟨k, old, (Option.some.inj own).symm⟩
    · exact stands.old mark before label own
  plain other same unlabeled := by
    cases same
    cases labels.symm.trans unlabeled
  outer other same own labeled := List.mem_cons_of_mem _ (stands.outer other same own labeled)
  inside other same own labeled _ := by
    cases same
    cases labels.symm.trans labeled
    exact List.mem_cons_self
  outside _ _ _ _ elsewhere := nomatch elsewhere

end Stands

namespace Laid

variable {loops : List EnclosingLoop} {s s' : Supply} {skeleton : List Skeleton} {nest : List Nest}
  {around : List Mark} {inBody : Bool}

/-- Every jump without a label is in a loop without labels. -/
theorem inPlainLoop (laid : Laid loops s skeleton s' nest)
    (stands : Stands loops around inBody s.labels) :
    (Skeleton.placedAll around skeleton).all (fun place => place.2.inPlainLoop place.1) = true := by
  induction laid generalizing around inBody with
  | nil | declared | temp => rfl
  | append first _ one other =>
    rw [Skeleton.placedAll_append, List.all_append, one stands, other (stands.mono first.grows.2)]
    rfl
  | jump spelled =>
    rw [Skeleton.placedAll_singleton, List.all_cons, stands.inPlainLoop_jump spelled]
    rfl
  | plain unlabeled _ pass =>
    rw [Skeleton.placedAll_singleton, List.all_cons]
    exact pass (stands.enterPlain unlabeled)
  | labeled labels pre pass _ front inside back =>
    have inLoop := stands.enterLabeled labels
    have inBody := (inLoop.mono pre.grows.2).enterBody labels pre.grows.2
    have behind := inLoop.mono (Nat.le_trans pre.grows.2 pass.grows.2)
    rw [Skeleton.placedAll_singleton, Skeleton.placedAll_body]
    simp only [List.all_cons, List.all_append, front inLoop, inside inBody, back behind]
    unfold EnclosingLoop.bodyMark
    split <;> rfl

/-- The jumps with a label are in scope just if those are kept in a body that go by its label. -/
theorem inScope_eq (laid : Laid loops s skeleton s' nest)
    (stands : Stands loops around inBody s.labels) :
    (Skeleton.placedAll around skeleton).all (fun place => place.2.inScope place.1) =
      (Nest.keptAll nest && (inBody || !nest.any Nest.needsBody)) := by
  induction laid generalizing around inBody with
  | nil | declared | temp => simp [Skeleton.placedAll, Skeleton.placed, Nest.keptAll, Mark.inScope]
  | append first _ one other =>
    rw [Skeleton.placedAll_append, List.all_append, one stands, other (stands.mono first.grows.2),
      Nest.keptAll_append, List.any_append]
    grind
  | jump spelled =>
    rw [Skeleton.placedAll_singleton, List.all_cons, stands.inScope_jump spelled]
    simp [Skeleton.placedAll, Nest.keptAll, Nest.kept]
  | plain unlabeled _ pass =>
    rw [Skeleton.placedAll_singleton, List.all_cons, pass (stands.enterPlain unlabeled)]
    simp [Nest.keptAll, Nest.kept, Nest.needsBody, Mark.inScope]
  | @labeled _ _ _ _ _ _ _ _ before body after loop labels pre pass _ front inside back =>
    have inLoop := stands.enterLabeled labels
    have inBody := (inLoop.mono pre.grows.2).enterBody labels pre.grows.2
    have behind := inLoop.mono (Nat.le_trans pre.grows.2 pass.grows.2)
    have unjumped : ∀ inner around, (loop.bodyMark inner).inScope around = true := by
      intro inner around
      unfold EnclosingLoop.bodyMark
      split <;> rfl
    rw [Skeleton.placedAll_singleton, Skeleton.placedAll_body]
    simp only [List.all_cons, List.all_append, front inLoop, inside inBody, back behind, unjumped,
      Nest.keptAll, Nest.kept, List.any_append, List.any_cons, List.any_nil, Nest.needsBody]
    grind [Mark.inScope]

/-! ## Loops and jumps of the source -/

/-- `n` is `base` or a number of pairs later. -/
def Pairs (base n : Nat) : Prop := ∃ pairs, n = base + 2 * pairs

theorem pairs_succ {base n : Nat} (start : Pairs base n) : Pairs base (n + 2) := by
  obtain ⟨pairs, rfl⟩ := start
  exact ⟨pairs + 1, by omega⟩

/-- Labels are taken in pairs. -/
theorem pairs {base : Nat} (laid : Laid loops s skeleton s' nest) (start : Pairs base s.labels) :
    Pairs base s'.labels := by
  induction laid with
  | nil | declared | temp | jump => exact start
  | append _ _ one other => exact other (one start)
  | plain _ _ pass => exact pass start
  | labeled _ _ _ _ front inside back =>
    exact back (inside (front (pairs_succ start)))

end Laid

/-- Of the labels with numbers from `base + 1` to `top`, every second one is that of a body. -/
def EverySecond (bodies : List String) (base top : Nat) : Prop :=
  ∀ k, base < k → k ≤ top → (labelName k ∈ bodies ↔ Laid.Pairs base k)

theorem exists_everySecond (base top : Nat) : ∃ bodies, EverySecond bodies base top := by
  refine ⟨(List.range (top + 1)).map fun pairs => labelName (base + 2 * pairs), ?_⟩
  intro k low high
  rw [List.mem_map]
  constructor
  · rintro ⟨pairs, -, same⟩
    exact ⟨pairs, (labelName_inj same).symm⟩
  · rintro ⟨pairs, rfl⟩
    exact ⟨pairs, List.mem_range.mpr (by omega), rfl⟩

namespace Java.Skeleton

/-- The labeled body is found behind what is in front of it. -/
theorem nestParts_eq {bodies : List String} {front back : List Skeleton} {body : Skeleton}
    (before : ∀ part ∈ front, part.isBody bodies = false) (found : body.isBody bodies = true) :
    nestParts bodies (front ++ body :: back) =
      (nestAll bodies front, body.nest bodies, nestAll bodies back) := by
  induction front with
  | nil => rw [List.nil_append, nestParts, if_pos found, nestAll]
  | cons part rest ih =>
    have other := before part List.mem_cons_self
    have rested := ih fun part mem => before part (List.mem_cons_of_mem _ mem)
    rw [List.cons_append, nestParts, if_neg (Bool.eq_false_iff.mp other), rested, nestAll]

end Java.Skeleton

theorem EnclosingLoop.nest_bodyMark (loop : EnclosingLoop) {bodies : List String} {inner : String}
    (known : inner ∈ bodies) (inside : List Skeleton) :
    Skeleton.isBody bodies (.node (loop.bodyMark inner) inside) = true ∧
      Skeleton.nest bodies (.node (loop.bodyMark inner) inside) =
        Skeleton.nestAll bodies inside := by
  have found := List.contains_iff_mem.mpr known
  unfold bodyMark
  split
  · exact ⟨found, by rw [Skeleton.nest, if_pos found]⟩
  · exact ⟨found, by rw [Skeleton.nest]⟩

namespace Laid

variable {loops : List EnclosingLoop} {s s' : Supply} {skeleton : List Skeleton} {nest : List Nest}
  {bodies : List String} {base top : Nat}

/-- The labels that a loop takes are one of a loop and one of a body. -/
theorem pair_of_everySecond (second : EverySecond bodies base top) {n : Nat} (start : Pairs base n)
    (stop : n + 2 ≤ top) : labelName (n + 1) ∉ bodies ∧ labelName (n + 2) ∈ bodies := by
  obtain ⟨pairs, rfl⟩ := start
  constructor
  · rw [second _ (by omega) (by omega)]
    rintro ⟨other, same⟩
    omega
  · rw [second _ (by omega) (by omega)]
    exact ⟨pairs + 1, by omega⟩

/-- Outside of the labeled body of a loop there is no other. -/
theorem not_isBody (laid : Laid loops s skeleton s' nest) (second : EverySecond bodies base top)
    (start : Pairs base s.labels) (stop : s'.labels ≤ top) :
    ∀ part ∈ skeleton, part.isBody bodies = false := by
  induction laid with
  | nil => exact fun _ mem => nomatch mem
  | declared | temp | plain => exact List.forall_mem_singleton.mpr rfl
  | jump spelled => cases spelled <;> exact List.forall_mem_singleton.mpr rfl
  | append first rest one other =>
    have early := one start (Nat.le_trans rest.grows.2 stop)
    exact List.forall_mem_append.mpr ⟨early, other (first.pairs start) stop⟩
  | labeled _ pre pass post =>
    have taken := Nat.le_trans pre.grows.2 (Nat.le_trans pass.grows.2 post.grows.2)
    have outer := (pair_of_everySecond second start (Nat.le_trans taken stop)).1
    refine List.forall_mem_singleton.mpr ?_
    exact Bool.eq_false_iff.mpr fun found => outer (List.contains_iff_mem.mp found)

/-- The loops and jumps are found in the skeleton again. -/
theorem nestAll_eq (laid : Laid loops s skeleton s' nest) (second : EverySecond bodies base top)
    (start : Pairs base s.labels) (stop : s'.labels ≤ top)
    (known : ∀ loop ∈ loops.head?, ∀ labels ∈ loop.labels,
      labels.outer ∉ bodies ∧ labels.inner ∈ bodies) :
    Skeleton.nestAll bodies skeleton = nest := by
  induction laid with
  | nil | declared | temp => rfl
  | @jump loop _ _ _ _ spelled =>
    rw [Skeleton.nestAll_singleton]
    cases spelled with
    | «break» =>
      cases labeled : loop.labels with
      | none => rfl
      | some labels =>
        have outer := (known loop rfl labels labeled).1
        rw [Option.map_some, Skeleton.nest, if_neg (mt List.contains_iff_mem.mp outer)]
    | nextPlain => rfl
    | nextLabeled labeled =>
      have inner := (known loop rfl _ labeled).2
      rw [Skeleton.nest, if_pos (List.contains_iff_mem.mpr inner)]
    | redo => rfl
  | append first rest one other =>
    rw [Skeleton.nestAll_append, one start (Nat.le_trans rest.grows.2 stop) known,
      other (first.pairs start) stop known]
  | plain unlabeled _ pass =>
    rw [Skeleton.nestAll_singleton, Skeleton.nest, pass start stop ?_]
    intro loop same labels labeled
    cases same
    cases unlabeled.symm.trans labeled
  | @labeled others _ _ _ _ _ _ _ _ _ _ loop labels pre pass post front inside back =>
    have high := Nat.le_trans post.grows.2 stop
    have taken := Nat.le_trans pre.grows.2 (Nat.le_trans pass.grows.2 high)
    have pair := pair_of_everySecond second start taken
    have started := pairs_succ start
    have own : ∀ other ∈ (loop :: others).head?, ∀ labels ∈ other.labels,
        labels.outer ∉ bodies ∧ labels.inner ∈ bodies := by
      intro other same labels' labeled
      cases same
      cases labels.symm.trans labeled
      exact pair
    have body := loop.nest_bodyMark pair.2
    have notBody := pre.not_isBody second started (Nat.le_trans pass.grows.2 high)
    rw [Skeleton.nestAll_singleton, Skeleton.nest, if_neg (mt List.contains_iff_mem.mp pair.1),
      Skeleton.nestParts_eq notBody (body _).1, (body _).2, front started (Nat.le_trans pass.grows.2 high) own,
      inside (pre.pairs started) high own, back (pass.pairs (pre.pairs started)) stop own]

end Laid

end JavaBackend
