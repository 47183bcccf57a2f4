import JavaBackend.Proofs.Fields.Order

/-!
# What is noted while trees are lowered

`Noted void known visits p p'` says that between two moments the given trees are lowered in order, and
nothing else is done that notes a field or makes a variable known: the fields that are noted are the
references of the trees (`Tree.Refers`), and known is what was known in front, and what they assign.
-/

namespace JavaBackend

variable {void : Bool} {visits more : List Visit}

/-! ## Progress -/

/-- Of the names that are not those of temporaries, just these are variables. -/
def Progress.KnowsOwn (p : Progress) (known : Set String) : Prop :=
  ∀ name, isOwn name = true → (p.scope.isLocal name = true ↔ name ∈ known)

/-- Between two moments, the trees were lowered. -/
structure Noted (void : Bool) (known : Set String) (visits : List Visit) (p p' : Progress) : Prop where
  fields : ∃ uses, RefersAll void known visits uses ∧ p'.fields = (p.useFields uses).fields
  known : p'.KnowsOwn (learned known visits)

namespace Progress

variable {p q : Progress} {known : Set String}

theorem fields_useFields_congr (same : p.fields = q.fields) (uses : List FieldUse) :
    (p.useFields uses).fields = (q.useFields uses).fields := by
  induction uses generalizing p q with
  | nil => exact same
  | cons use rest ih =>
    refine ih ?_
    unfold useField
    rw [same]
    split
    · exact same
    · rfl

theorem KnowsOwn.congr (knows : p.KnowsOwn known)
    (same : ∀ name, isOwn name = true → q.scope.isLocal name = p.scope.isLocal name) :
    q.KnowsOwn known := by
  intro name own
  rw [same name own]
  exact knows name own

/-- A name that a run may or may not know, or that is known. -/
theorem KnowsOwn.union (knows : p.KnowsOwn known) {name : String}
    (inside : isOwn name = true → p.scope.isLocal name = true) : p.KnowsOwn (known ∪ {name}) := by
  intro other own
  rw [Set.mem_union, ← knows other own, Set.mem_singleton_iff]
  refine ⟨.inl, ?_⟩
  rintro (isKnown | rfl)
  · exact isKnown
  · exact inside own

/-- The declaration of a variable. -/
theorem KnowsOwn.declare (knows : p.KnowsOwn known) {name : String} {type : JavaType} {scope : Scope}
    (reserved : p.scope.reserve? name type = some scope) :
    ({ p with scope := scope } : Progress).KnowsOwn (known ∪ {name}) := by
  intro other own
  show scope.isLocal other = true ↔ _
  rw [Scope.isLocal_of_reserve? reserved, Bool.or_eq_true, beq_iff_eq, knows other own, Set.mem_union,
    Set.mem_singleton_iff, or_comm, eq_comm]

theorem KnowsOwn.takeTemp (knows : p.KnowsOwn known) (type : JavaType) : (p.takeTemp type).KnowsOwn known := by
  refine knows.congr fun name own => ?_
  have apart : (tempName (p.scope.temps + 1) == name) = false := by
    rw [beq_eq_false_iff_ne]
    rintro rfl
    simp [isOwn_tempName] at own
  show (p.scope.locals.insert _ _).contains name = _
  rw [Locals.contains_insert_eq, apart, Bool.false_or]
  rfl

theorem KnowsOwn.takeFlag (knows : p.KnowsOwn known) (redo : Bool) :
    (p.takeLabels.takeFlag redo).KnowsOwn known := by
  cases redo with
  | false => exact knows
  | true => exact KnowsOwn.takeTemp (p := p.takeLabels) knows .boolean

end Progress

namespace Noted

variable {known : Set String} {p q r : Progress}

theorem nil (knows : p.KnowsOwn known) : Noted void known [] p p where
  fields := ⟨[], .nil, rfl⟩
  known := (learned_nil known).symm ▸ knows

/-- The start may be moved, but for the fields. -/
theorem startAt (noted : Noted void known visits q r) (fields : q.fields = p.fields) :
    Noted void known visits p r := by
  obtain ⟨uses, refers, noted'⟩ := noted.fields
  exact ⟨⟨uses, refers, noted'.trans (Progress.fields_useFields_congr fields uses)⟩, noted.known⟩

theorem takeTemp (noted : Noted void known visits p q) (type : JavaType) :
    Noted void known visits p (q.takeTemp type) :=
  ⟨noted.fields, noted.known.takeTemp type⟩

theorem fields_eq (noted : Noted void known [] p q) : q.fields = p.fields := by
  obtain ⟨uses, refers, fields⟩ := noted.fields
  cases refers
  exact fields

theorem knows (noted : Noted void known [] p q) : q.KnowsOwn known := learned_nil known ▸ noted.known

theorem trans (first : Noted void known visits p q)
    (second : Noted void (learned known visits) more q r) : Noted void known (visits ++ more) p r := by
  obtain ⟨uses, refers, noted⟩ := first.fields
  obtain ⟨others, refers', noted'⟩ := second.fields
  refine ⟨⟨uses ++ others, refers.append refers', ?_⟩, ?_⟩
  · rw [noted', Progress.useFields_append]
    exact Progress.fields_useFields_congr noted others
  · rw [learned_append]
    exact second.known

/-- In a block whose variable is known, or hidden, everywhere. -/
theorem bind {name : String} {wanted : Bool} {trees : List Tree}
    (noted : Noted void (known ∪ {name}) (trees.map (.of wanted)) p q)
    (inside : isOwn name = true → name ∈ known) :
    Noted void known (trees.map (⟨·, wanted, some name⟩)) p q := by
  obtain ⟨uses, refers, fields⟩ := noted.fields
  refine ⟨⟨uses, refers.bind, fields⟩, fun other own => ?_⟩
  rw [noted.known other own, learned_bound, Set.mem_union, Set.mem_singleton_iff]
  refine ⟨?_, .inl⟩
  rintro (isKnown | rfl)
  · exact isKnown
  · exact .inl (inside own)

/-- Behind a block its variable is forgotten. -/
theorem release {name : String} {wanted : Bool} {trees : List Tree}
    (noted : Noted void (known ∪ {name}) (trees.map (.of wanted)) p q)
    (outside : isOwn name = true → name ∉ known) :
    Noted void known (trees.map (⟨·, wanted, some name⟩)) p
      { q with scope := q.scope.release name } := by
  obtain ⟨uses, refers, fields⟩ := noted.fields
  refine ⟨⟨uses, refers.bind, fields⟩, fun other own => ?_⟩
  have behind := noted.known other own
  rw [learned_bound, Set.mem_union, Set.mem_singleton_iff] at behind
  show (q.scope.locals.erase name).contains other = true ↔ _
  rw [Locals.contains_erase_eq, Bool.and_eq_true, bne_iff_ne]
  change _ ∧ q.scope.isLocal other = true ↔ _
  rw [behind]
  constructor
  · rintro ⟨apart, isKnown | same⟩
    · exact isKnown
    · exact absurd same.symm apart
  · intro isKnown
    refine ⟨?_, .inl isKnown⟩
    rintro rfl
    rcases mem_learned.mp isKnown with before | ⟨visit, mem, -, assigned⟩
    · exact outside own before
    · obtain ⟨tree, -, rfl⟩ := List.mem_map.mp mem
      exact assigned rfl

/-- A node is lowered once its parts are: it notes its own field first. -/
theorem node {kind : Kind Tree} {type : JavaType} {held wanted : Bool}
    (decided : kind.Decides known held)
    (noted : Noted void known (kind.visits void held wanted)
      (p.useFields (kind.references type wanted)) q) (fields : r.fields = q.fields)
    (own : r.KnowsOwn (learned known (kind.visits void held wanted) ∪ {name | name ∈ kind.ownNames})) :
    Noted void known [.of wanted (.node kind type)] p r := by
  obtain ⟨uses, refers, noted⟩ := noted.fields
  refine ⟨⟨_, refersAll_singleton.mpr (.node decided refers), ?_⟩, ?_⟩
  · rw [fields, noted, Progress.useFields_append]
  · rwa [learned_node known kind type void held wanted]

/-- A node that assigns no variable. -/
theorem node_of_parts {kind : Kind Tree} {type : JavaType} {held wanted : Bool}
    (decided : kind.Decides known held) (plain : kind.ownNames = [])
    (noted : Noted void known (kind.visits void held wanted)
      (p.useFields (kind.references type wanted)) q) :
    Noted void known [.of wanted (.node kind type)] p q := by
  refine node decided noted rfl ?_
  have none : {name | name ∈ kind.ownNames} = (∅ : Set String) := by simp [plain]
  rw [none, Set.union_empty]
  exact noted.known

end Noted

end JavaBackend
