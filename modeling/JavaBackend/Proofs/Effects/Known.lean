import JavaBackend.Proofs.Words.Basic

/-!
# Known names

A name that is a variable stays one while code is lowered: a block forgets the name that it declares
only if the name was not known in front of it. So in a tree that assigns to known names only, which
parts are expressions is the same at every moment of lowering.
-/

namespace JavaBackend

open Java (Stmt Code Expr)

/-- Every name that is known is a variable at this progress. -/
def Progress.Knows (p : Progress) (known : String → Bool) : Prop :=
  ∀ name, known name = true → p.scope.isLocal name = true

theorem Locals.contains_insert {locals : Locals} {name : String}
    (known : locals.contains name = true) (inserted : String) (type : JavaType) :
    (locals.insert inserted type).contains name = true := by
  unfold Locals.contains at known ⊢
  rw [Locals.type?_insert]
  split
  · rfl
  · exact known

theorem Locals.contains_erase {locals : Locals} {name erased : String}
    (known : locals.contains name = true) (other : erased ≠ name) :
    (locals.erase erased).contains name = true := by
  unfold Locals.contains at known ⊢
  rw [Locals.type?_erase, if_neg other]
  exact known

namespace Progress

variable {p q : Progress} {known : String → Bool}

theorem Knows.takeName (knows : p.Knows known) : p.takeName.Knows known := knows

theorem Knows.takeLabels (knows : p.Knows known) : p.takeLabels.Knows known := knows

theorem Knows.takeTemp (knows : p.Knows known) (type : JavaType) :
    (p.takeTemp type).Knows known :=
  fun name mem => Locals.contains_insert (knows name mem) _ _

theorem Knows.takeFlag (knows : p.Knows known) (redo : Bool) : (p.takeFlag redo).Knows known := by
  cases redo with
  | false => exact knows
  | true => exact knows.takeTemp .boolean

theorem Knows.useField (knows : p.Knows known) (use : FieldUse) :
    (p.useField use).Knows known := by
  unfold Progress.useField
  split <;> exact knows

theorem Knows.reserve (knows : p.Knows known) {name : String} {type : JavaType} {scope : Scope}
    (reserved : p.scope.reserve? name type = some scope) :
    ({ p with scope := scope } : Progress).Knows known := by
  unfold Scope.reserve? at reserved
  split at reserved <;> cases reserved
  exact fun name mem => Locals.contains_insert (knows name mem) _ _

theorem Knows.enter (knows : p.Knows known) (binding : Option Param) :
    (p.enter binding).Knows known := by
  unfold Progress.enter
  split
  · exact knows
  · split
    · exact knows
    · exact knows.reserve ‹_›

theorem Knows.leave (knows : p.Knows known) (binding : Option Param) (inside : q.Knows known) :
    (p.leave binding q).Knows known := by
  unfold Progress.leave
  split
  · exact inside
  · next bound type =>
    split
    · exact inside
    · next scope reserved =>
      intro name mem
      refine Locals.contains_erase (inside name mem) ?_
      -- the block's own name was unknown in front of the block
      rintro rfl
      unfold Scope.reserve? at reserved
      rw [if_pos (knows bound mem)] at reserved
      cases reserved

end Progress

variable {ctx : Context} {p p' : Progress} {task : Task} {code : Code} {yield : Yield}
  {known : String → Bool}

/-- What is known in front of the code is known behind it. -/
theorem Lowers.knows (lowers : Lowers ctx p task code yield p') (knows : p.Knows known) :
    p'.Knows known := by
  induction lowers with
  | @own _ _ kind _ _ _ _ q _ _ ih =>
    cases kind with
    | field name isStatic => exact (ih knows).useField _
    | _ => exact ih knows
  | inlineOwn _ _ ih | inlineTemp _ ih | valueInline _ _ ih | valueTemp _ _ ih | fixedInline _ _ ih
  | fixedTemp _ ih | keptInline _ _ ih | keptTemp _ ih | freshTemp _ ih | tempAssign _ ih
  | discardValue _ _ ih | storeValue _ _ ih | putEffect _ _ ih | assignKnown _ _ ih
  | receiverValue _ ih | seq _ ih | seqLast _ ih | maybeSome _ ih | armSome _ ih | retVoid _ _ ih
  | retInline _ _ _ ih | retStore _ _ ih | raiseInline _ _ ih | raiseStore _ ih | print _ ih
  | guardedPlain _ ih | rescueNone _ ih | loop _ ih | forEach _ ih | labeledBody _ ih =>
    exact ih knows
  | operandsNil | receiverOwn | receiverNamed | seqNil | effectsNil | maybeNone | armNone | jump
  | retNone | clausesNil | handlersNil => exact knows
  | operandsCons _ _ ih₁ ih₂ | voidCall _ _ _ ih₁ ih₂ | condThen _ _ ih₁ ih₂ | andStore _ _ ih₁ ih₂
  | orStore _ _ ih₁ ih₂ | logicalDiscard _ _ _ ih₁ ih₂ | seqCons _ _ ih₁ ih₂
  | effectsCons _ _ ih₁ ih₂ | guardedElse _ _ ih₁ ih₂ | rescue _ _ _ ih₁ ih₂
  | clausesCons _ _ ih₁ ih₂ | handlersNamed _ _ ih₁ ih₂
  | ensure _ _ ih₁ ih₂ | plainElements _ _ _ _ ih₁ ih₂ => exact ih₂ (ih₁ knows)
  | freshInline _ _ ih | tempLoop _ _ ih => exact (ih knows).takeTemp _
  | tempStore _ ih => exact ih (knows.takeTemp _)
  | assignNew _ reserved ih => exact (ih knows).reserve reserved
  | setField _ ih => exact ih (knows.useField _)
  | condElse _ _ _ ih₁ ih₂ ih₃ => exact ih₃ (ih₂ (ih₁ knows))
  | plainLoop _ _ _ _ _ _ _ ih₁ ih₂ ih₃ ih₄ | pass _ _ _ _ ih₁ ih₂ ih₃ ih₄ =>
    exact ih₄ (ih₃ (ih₂ (ih₁ knows)))
  | testedLoop _ _ _ _ _ ih₁ ih₂ ih₃ => exact ih₃ ((ih₂ (ih₁ knows)).takeLabels.takeFlag _)
  | heldLoop _ _ _ _ ih₁ ih₂ ih₃ =>
    exact ih₃ ((ih₂ ((ih₁ knows).takeTemp _)).takeLabels.takeFlag _)
  | handlersFresh _ _ _ ih₁ ih₂ => exact ih₂ (ih₁ knows.takeName)
  | copiedElements _ _ _ _ ih₁ ih₂ => exact ih₂ (ih₁ knows).takeName
  | labeledElements _ _ _ _ ih₁ ih₂ => exact ih₂ ((ih₁ knows).takeLabels.takeTemp _)
  | labeledCopies _ _ _ _ ih₁ ih₂ => exact ih₂ ((ih₁ knows).takeName.takeLabels.takeTemp _)
  | @within _ _ binding _ _ _ _ _ ih => exact knows.leave binding (ih (knows.enter binding))

/-! ## Assignments to known names -/

/-- Every assignment in the tree is to a known name. -/
def Tree.AssignsTo (known : String → Bool) (tree : Tree) : Prop :=
  tree.Every fun kind _ => ∀ name ∈ kind.assigned?, known name = true

/-- The more names are known, the more trees are expressions. -/
theorem Tree.isExpression_mono {known' : String → Bool}
    (more : ∀ name, known name = true → known' name = true) {tree : Tree}
    (expression : tree.isExpression known = true) : tree.isExpression known' = true := by
  revert expression
  refine Tree.induction (motive := fun tree =>
    tree.isExpression known = true → tree.isExpression known' = true) ?_ tree
  intro kind type ih expression
  obtain ⟨operation, assigned, parts⟩ := Kind.isExpression_iff.mp expression
  exact Kind.isExpression_iff.mpr ⟨operation, fun name found => more name (assigned name found),
    fun tree mem => ih tree mem (parts tree mem)⟩

/-- Two notions of what is known that agree on the names that a tree assigns to agree on whether the
    tree is an expression. -/
theorem Tree.isExpression_congr {known' : String → Bool} {tree : Tree}
    (same : tree.Every fun kind _ => ∀ name ∈ kind.assigned?, known name = known' name) :
    tree.isExpression known = tree.isExpression known' := by
  induction same with
  | @node kind type own _ ih =>
    rw [Tree.isExpression, Tree.isExpression, Bool.eq_iff_iff, Kind.isExpression_iff,
      Kind.isExpression_iff]
    refine and_congr_right fun _ => and_congr ?_ ?_
    · exact forall₂_congr fun name found => by rw [own name found]
    · exact forall₂_congr fun tree mem => by rw [ih tree mem]

/-- Where a tree assigns to known names only, nothing else that is known decides whether it is an
    expression. -/
theorem Tree.AssignsTo.isExpression_eq {tree : Tree} (assigns : tree.AssignsTo known)
    {isLocal : String → Bool} (more : ∀ name, known name = true → isLocal name = true) :
    tree.isExpression isLocal = tree.isExpression known :=
  isExpression_congr (assigns.mono fun _ _ own name found => by
    rw [own name found, more name (own name found)])

end JavaBackend
