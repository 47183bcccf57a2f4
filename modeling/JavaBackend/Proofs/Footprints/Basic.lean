import JavaBackend.Proofs.Effects.Known

/-!
# What a run may leave behind

A `Footprint` bounds what lowering leaves behind: the names that become variables, the types that
variables are declared with, and the fields that are noted. `Lower.Keeps f m post` says that every run of
the computation `m` stays within the footprint `f`, also one that ends in a fault: the progress only moves
as the footprint allows, and what was laid out is the beginning of code that declares what the footprint
allows. There is one rule for each way to build a computation.
-/

namespace JavaBackend

open Java (Stmt Code Piece Expr Handler)

variable {α β : Type}

/-! ## Declarations -/

namespace Java.Stmt

mutual

/-- The variables that a statement declares, with their types, in order. The type of a handler is
    what the source asks to be caught. -/
@[simp]
def declarations : Stmt → List Param
  | .declare type name _ => [⟨name, type⟩]
  | .labeled _ body => body.declarations
  | .block body | .ifThen _ body | .whileLoop _ body | .doLoop body _ => codeDeclarations body
  | .ifElse _ yes no => codeDeclarations yes ++ codeDeclarations no
  | .forEach type name _ body => ⟨name, type⟩ :: codeDeclarations body
  | .tryCatch body handlers => codeDeclarations body ++ handlersDeclarations handlers
  | .tryFinally body cleanup => codeDeclarations body ++ codeDeclarations cleanup
  | _ => []

/-- The variables that the statements of a block declare. -/
@[simp]
def codeDeclarations : List Stmt → List Param
  | [] => []
  | stmt :: rest => stmt.declarations ++ codeDeclarations rest

@[simp]
def handlerDeclarations : Handler (List Stmt) → List Param
  | ⟨_, _, body⟩ => codeDeclarations body

@[simp]
def handlersDeclarations : List (Handler (List Stmt)) → List Param
  | [] => []
  | handler :: rest => handlerDeclarations handler ++ handlersDeclarations rest

end

@[simp]
theorem codeDeclarations_append (first second : Code) :
    codeDeclarations (first ++ second) = codeDeclarations first ++ codeDeclarations second := by
  induction first with
  | nil => rfl
  | cons stmt rest ih =>
    rw [List.cons_append, codeDeclarations, codeDeclarations, ih, List.append_assoc]

@[simp]
theorem handlersDeclarations_append (first second : List (Handler Code)) :
    handlersDeclarations (first ++ second) =
      handlersDeclarations first ++ handlersDeclarations second := by
  induction first with
  | nil => rfl
  | cons handler rest ih =>
    rw [List.cons_append, handlersDeclarations, handlersDeclarations, ih, List.append_assoc]

theorem handlersPieces_append (first second : List (Handler Code)) :
    handlersPieces (first ++ second) = handlersPieces first ++ handlersPieces second := by
  induction first with
  | nil => rfl
  | cons handler rest ih =>
    rw [List.cons_append, handlersPieces, handlersPieces, ih, List.append_assoc]

end Java.Stmt

/-! ## Footprints -/

/-- What lowering may leave behind. The flags of loops are `boolean`, and what has no value of its own is
    held as an object. -/
structure Footprint where
  /-- The names that may become variables. -/
  names : String → Prop
  /-- The types that variables may be declared with. -/
  types : JavaType → Prop
  /-- The uses of fields that may be noted. -/
  uses : FieldUse → Prop
  boolean : types .boolean
  object : types .object

namespace Footprint

/-- The footprint inside a block that declares a name, or none. -/
def bind (f : Footprint) : Option String → Footprint
  | none => f
  | some name => { f with names := fun other => other = name ∨ f.names other }

/-- Every type that the code declares a variable with is allowed. -/
def Allows (f : Footprint) (code : Code) : Prop :=
  ∀ declared ∈ Stmt.codeDeclarations code, f.types declared.type

def AllowsHandlers (f : Footprint) (handlers : List (Handler Code)) : Prop :=
  ∀ declared ∈ Stmt.handlersDeclarations handlers, f.types declared.type

/-- The pieces are the beginning of code that is allowed. -/
def Begins (f : Footprint) (written : List Piece) : Prop :=
  ∃ code, f.Allows code ∧ written <+: Stmt.codePieces code

variable {f : Footprint}

theorem allows_nil : f.Allows [] := List.forall_mem_nil _

theorem Allows.append {first second : Code} (one : f.Allows first) (other : f.Allows second) :
    f.Allows (first ++ second) := by
  unfold Allows
  rw [Stmt.codeDeclarations_append]
  exact List.forall_mem_append.mpr ⟨one, other⟩

/-- A statement that declares nothing. -/
theorem allows_of_declarations {stmt : Stmt} (none : stmt.declarations = []) : f.Allows [stmt] := by
  simp [Allows, none]

theorem Begins.append {code : Code} (first : f.Allows code) {written : List Piece}
    (rest : f.Begins written) : f.Begins (Stmt.codePieces code ++ written) := by
  obtain ⟨more, allowed, begins⟩ := rest
  refine ⟨code ++ more, first.append allowed, ?_⟩
  rw [Stmt.codePieces_append]
  exact (List.prefix_append_right_inj _).mpr begins

end Footprint

/-- Progress moves as the footprint allows: what is known stays known, supplies only grow, and each new
    variable is one of the names or a new temporary. -/
structure Progress.Reaches (f : Footprint) (p p' : Progress) : Prop where
  kept : ∀ name, p.scope.isLocal name = true → p'.scope.isLocal name = true
  new : ∀ name type, p'.scope.locals.type? name = some type →
    p.scope.locals.type? name = some type ∨ (f.types type ∧
      ((f.names name ∧ p.scope.isLocal name = false) ∨
        ∃ n, p.scope.temps < n ∧ n ≤ p'.scope.temps ∧ name = tempName n))
  temps : p.scope.temps ≤ p'.scope.temps
  labels : p.scope.labels ≤ p'.scope.labels
  uses : ∃ uses, p'.fields = p.fields ++ uses ∧ ∀ use ∈ uses, f.uses use

namespace Progress.Reaches

variable {f : Footprint} {p q r : Progress}

theorem refl : p.Reaches f p where
  kept _ known := known
  new _ _ found := .inl found
  temps := Nat.le_refl _
  labels := Nat.le_refl _
  uses := ⟨[], (List.append_nil _).symm, List.forall_mem_nil _⟩

/-- A name that is not known behind was not known in front. -/
theorem unknown (reaches : p.Reaches f q) {name : String} (unknown : q.scope.isLocal name = false) :
    p.scope.isLocal name = false := by
  rw [Bool.eq_false_iff] at unknown ⊢
  exact mt (reaches.kept name) unknown

theorem trans (first : p.Reaches f q) (second : q.Reaches f r) : p.Reaches f r where
  kept name known := second.kept name (first.kept name known)
  new name type found := by
    rcases second.new name type found with before | ⟨allowed, named | ⟨n, low, high, rfl⟩⟩
    · rcases first.new name type before with before | ⟨allowed, named | ⟨n, low, high, rfl⟩⟩
      · exact .inl before
      · exact .inr ⟨allowed, .inl named⟩
      · exact .inr ⟨allowed, .inr ⟨n, low, Nat.le_trans high second.temps, rfl⟩⟩
    · exact .inr ⟨allowed, .inl ⟨named.1, first.unknown named.2⟩⟩
    · exact .inr ⟨allowed, .inr ⟨n, Nat.lt_of_le_of_lt first.temps low, high, rfl⟩⟩
  temps := Nat.le_trans first.temps second.temps
  labels := Nat.le_trans first.labels second.labels
  uses := by
    obtain ⟨one, same, allowed⟩ := first.uses
    obtain ⟨other, same', allowed'⟩ := second.uses
    refine ⟨one ++ other, ?_, List.forall_mem_append.mpr ⟨allowed, allowed'⟩⟩
    rw [same', same, List.append_assoc]

theorem useField {use : FieldUse} (allowed : f.uses use) : p.Reaches f (p.useField use) := by
  unfold Progress.useField
  split
  · exact refl
  · exact ⟨fun _ known => known, fun _ _ found => .inl found, Nat.le_refl _, Nat.le_refl _,
      [use], rfl, List.forall_mem_singleton.mpr allowed⟩

theorem freshName : p.Reaches f { p with scope := p.scope.freshName.2 } where
  kept _ known := known
  new _ _ found := .inl found
  temps := Nat.le_succ _
  labels := Nat.le_refl _
  uses := ⟨[], (List.append_nil _).symm, List.forall_mem_nil _⟩

theorem freshLabel : p.Reaches f { p with scope := p.scope.freshLabel.2 } where
  kept _ known := known
  new _ _ found := .inl found
  temps := Nat.le_refl _
  labels := Nat.le_succ _
  uses := ⟨[], (List.append_nil _).symm, List.forall_mem_nil _⟩

theorem freshTemp {type : JavaType} (allowed : f.types type) :
    p.Reaches f { p with scope := (p.scope.freshTemp type).2 } where
  kept _ known := Locals.contains_insert known _ _
  new name other found := by
    change (p.scope.locals.insert (tempName (p.scope.temps + 1)) type).type? name = some other at found
    rw [Locals.type?_insert] at found
    split at found
    · next same =>
      cases found
      exact .inr ⟨allowed, .inr ⟨_, Nat.lt_succ_self _, Nat.le_refl _, same.symm⟩⟩
    · exact .inl found
  temps := Nat.le_succ _
  labels := Nat.le_refl _
  uses := ⟨[], (List.append_nil _).symm, List.forall_mem_nil _⟩

theorem reserve {name : String} {type : JavaType} {scope : Scope} (allowed : f.types type)
    (named : f.names name) (reserved : p.scope.reserve? name type = some scope) :
    p.Reaches f { p with scope := scope } := by
  unfold Scope.reserve? at reserved
  split at reserved <;> cases reserved
  next unknown =>
  refine ⟨fun _ known => Locals.contains_insert known _ _, fun other type' found => ?_,
    Nat.le_refl _, Nat.le_refl _, [], (List.append_nil _).symm, List.forall_mem_nil _⟩
  change (p.scope.locals.insert name type).type? other = some type' at found
  rw [Locals.type?_insert] at found
  split at found
  · next same =>
    cases found
    cases same
    exact .inr ⟨allowed, .inl ⟨named, Bool.eq_false_iff.mpr unknown⟩⟩
  · exact .inl found

/-- The name that a block declares is forgotten behind the block. -/
theorem release {name : String} {type : JavaType} {scope : Scope}
    (reserved : p.scope.reserve? name type = some scope)
    (inside : ({ p with scope := scope } : Progress).Reaches (f.bind (some name)) q) :
    p.Reaches f { q with scope := q.scope.release name } := by
  unfold Scope.reserve? at reserved
  split at reserved <;> cases reserved
  next unknown =>
  have other {known : String} (isKnown : p.scope.isLocal known = true) : name ≠ known := by
    rintro rfl
    exact unknown isKnown
  refine ⟨fun known isKnown => ?_, fun known type' found => ?_, inside.temps, inside.labels,
    inside.uses⟩
  · have entered := inside.kept known (Locals.contains_insert isKnown _ _)
    exact Locals.contains_erase entered (other isKnown)
  · change (q.scope.locals.erase name).type? known = some type' at found
    rw [Locals.type?_erase] at found
    split at found
    · cases found
    next apart =>
    rcases inside.new known type' found with before | ⟨allowed, ⟨named, fresh⟩ | temp⟩
    · left
      change (p.scope.locals.insert name type).type? known = some type' at before
      rwa [Locals.type?_insert, if_neg apart] at before
    · refine .inr ⟨allowed, .inl ⟨?_, ?_⟩⟩
      · rcases named with same | named
        · exact absurd same.symm apart
        · exact named
      · rw [Bool.eq_false_iff] at fresh ⊢
        exact fun isKnown => fresh (Locals.contains_insert isKnown _ _)
    · exact .inr ⟨allowed, .inr temp⟩

/-- A name that is known in front of a block is not new in it. -/
theorem of_bind {name : String} (known : p.scope.isLocal name = true)
    (inside : p.Reaches (f.bind (some name)) q) : p.Reaches f q := by
  refine ⟨inside.kept, fun other type found => ?_, inside.temps, inside.labels, inside.uses⟩
  rcases inside.new other type found with before | ⟨allowed, ⟨named, fresh⟩ | temp⟩
  · exact .inl before
  · rcases named with same | named
    · cases same
      cases known.symm.trans fresh
    · exact .inr ⟨allowed, .inl ⟨named, fresh⟩⟩
  · exact .inr ⟨allowed, .inr temp⟩

end Progress.Reaches

/-! ## Computations within a footprint -/

/-- A run ended within the footprint: well, with a result as it should be, or in a fault. -/
def Outcome.Keeps (f : Footprint) (post : α → Prop) : Outcome α → Prop
  | .done code result => f.Allows code ∧ post result
  | .failed written _ => f.Begins written

namespace Lower

/-- Every run of the computation stays within the footprint, and a result is as it should be. -/
def Keeps (f : Footprint) (m : Lower α) (post : α → Prop) : Prop :=
  ∀ ctx p, p.Reaches f (m ctx p).progress ∧ (m ctx p).outcome.Keeps f post

/-- Any result will do. -/
abbrev Stays (f : Footprint) (m : Lower α) : Prop := Keeps f m fun _ => True

variable {f : Footprint} {P : α → Prop} {Q : β → Prop}

/-- The choice between two computations may depend on the progress. -/
theorem keeps_of_apply {m : Lower α} (choice : ∀ ctx p, ∃ m', m ctx p = m' ctx p ∧ Keeps f m' P) :
    Keeps f m P := by
  intro ctx p
  obtain ⟨m', same, keeps⟩ := choice ctx p
  rw [same]
  exact keeps ctx p

theorem keeps_pure {a : α} (holds : P a) : Keeps f (pure a) P :=
  fun _ _ => ⟨.refl, f.allows_nil, holds⟩

theorem stays_pure (a : α) : Stays f (pure a) := keeps_pure trivial

/-- A statement that declares nothing, or what is allowed. -/
theorem stays_emit {stmt : Stmt} (allowed : f.Allows [stmt]) : Stays f (emit stmt) :=
  fun _ _ => ⟨.refl, allowed, trivial⟩

theorem stays_context : Stays f context := fun _ _ => ⟨.refl, f.allows_nil, trivial⟩

theorem stays_fail (fault : Fault) : Stays f (fail fault : Lower α) :=
  fun _ _ => ⟨.refl, [], f.allows_nil, List.nil_prefix⟩

theorem stays_useField {use : FieldUse} (allowed : f.uses use) : Stays f (useField use) :=
  fun _ _ => ⟨.useField allowed, f.allows_nil, trivial⟩

theorem stays_freshName : Stays f freshName := fun _ _ => ⟨.freshName, f.allows_nil, trivial⟩

theorem stays_freshLabel : Stays f freshLabel := fun _ _ => ⟨.freshLabel, f.allows_nil, trivial⟩

theorem stays_newTemp {type : JavaType} (allowed : f.types type) (init : Expr) :
    Stays f (newTemp type init) :=
  fun _ _ => ⟨.freshTemp allowed, List.forall_mem_singleton.mpr allowed, trivial⟩

theorem stays_declareLocal {type : JavaType} {name : String} (allowed : f.types type)
    (named : f.names name) (init : Expr) : Stays f (declareLocal type name init) := by
  intro ctx p
  cases reserved : p.scope.reserve? name type with
  | none =>
    have run : declareLocal type name init ctx p = ⟨.done [] (), p⟩ :=
      ends_declareLocal.mpr (by rw [reserved]; exact ⟨rfl, rfl⟩)
    rw [run]
    exact ⟨.refl, f.allows_nil, trivial⟩
  | some scope =>
    have run : declareLocal type name init ctx p =
        ⟨.done [.declare type name init] (), { p with scope := scope }⟩ :=
      ends_declareLocal.mpr (by rw [reserved]; exact ⟨rfl, rfl⟩)
    rw [run]
    exact ⟨.reserve allowed named reserved, List.forall_mem_singleton.mpr allowed, trivial⟩

theorem Keeps.bind {m : Lower α} {g : α → Lower β} (first : Keeps f m P)
    (next : ∀ a, P a → Keeps f (g a) Q) : Keeps f (m >>= g) Q := by
  intro ctx p
  show p.Reaches f (Lower.bind m g ctx p).progress ∧ (Lower.bind m g ctx p).outcome.Keeps f Q
  have atFirst := first ctx p
  unfold Lower.bind
  cases run : m ctx p with
  | mk outcome p₁ =>
    rw [run] at atFirst
    cases outcome with
    | failed written fault => exact atFirst
    | done code a =>
      obtain ⟨reaches, allowed, holds⟩ := atFirst
      have atNext := next a holds ctx p₁
      cases rest : g a ctx p₁ with
      | mk outcome p₂ =>
        rw [rest] at atNext
        simp only [rest]
        cases outcome with
        | failed written fault => exact ⟨reaches.trans atNext.1, .append allowed atNext.2⟩
        | done more b =>
          exact ⟨reaches.trans atNext.1, allowed.append atNext.2.1, atNext.2.2⟩

/-- What comes first gives any result. -/
theorem Keeps.then {m : Lower α} {g : α → Lower β} (first : Keeps f m P)
    (next : ∀ a, Keeps f (g a) Q) : Keeps f (m >>= g) Q :=
  first.bind fun a _ => next a

theorem Keeps.map {m : Lower α} (keeps : Keeps f m P) {g : α → β} (holds : ∀ a, P a → Q (g a)) :
    Keeps f (g <$> m) Q := by
  rw [← bind_pure_comp]
  exact keeps.bind fun a held => keeps_pure (holds a held)

theorem Keeps.stays {m : Lower α} (keeps : Keeps f m P) (g : α → β) : Stays f (g <$> m) :=
  keeps.map fun _ _ => trivial

/-- The statements of a block become part of a statement, which is `whole` once the block is closed. -/
theorem Keeps.block {body : Lower Unit} (keeps : Stays f body) {opened : Thunk (List Piece)}
    (whole : Code → Stmt) (allowed : ∀ code, f.Allows code → f.Allows [whole code])
    (closed : ∀ code, opened.get ++ Stmt.codePieces code <+: (whole code).pieces) :
    Keeps f (block opened body) f.Allows := by
  intro ctx p
  have atBody := keeps ctx p
  unfold Lower.block
  cases run : body ctx p with
  | mk outcome p₁ =>
    rw [run] at atBody
    cases outcome with
    | done code _ => exact ⟨atBody.1, f.allows_nil, atBody.2.1⟩
    | failed written fault =>
      obtain ⟨reaches, code, within, begins⟩ := atBody
      refine ⟨reaches, [whole code], allowed code within, ?_⟩
      have closes := ((List.prefix_append_right_inj _).mpr begins).trans (closed code)
      simpa only [Stmt.codePieces, List.append_nil] using closes

theorem Keeps.inLoop {body : Lower α} (keeps : Keeps f body P) (loop : EnclosingLoop) :
    Keeps f (inLoop loop body) P :=
  fun ctx p => keeps { ctx with loops := loop :: ctx.loops } p

theorem Keeps.withLocal {body : Lower α} {name : String} (keeps : Keeps (f.bind (some name)) body P)
    (type : JavaType) : Keeps f (withLocal name type body) P := by
  intro ctx p
  unfold Lower.withLocal
  cases reserved : p.scope.reserve? name type with
  | none =>
    have known : p.scope.isLocal name = true := by
      unfold Scope.reserve? at reserved
      split at reserved
      · assumption
      · cases reserved
    exact ⟨(keeps ctx p).1.of_bind known, (keeps ctx p).2⟩
  | some scope =>
    have inside := keeps ctx { p with scope := scope }
    exact ⟨inside.1.release reserved, inside.2⟩

/-- Whether a name is known decides which computation is run. If it is, it is not new in that one. -/
theorem keeps_isLocal_bind {name : String} {g : Bool → Lower α}
    (known : Keeps (f.bind (some name)) (g true) P) (unknown : Keeps f (g false) P) :
    Keeps f (isLocal name >>= g) P := by
  intro ctx p
  rw [isLocal_bind]
  cases isKnown : p.scope.isLocal name with
  | true => exact ⟨(known ctx p).1.of_bind isKnown, (known ctx p).2⟩
  | false => exact unknown ctx p

end Lower

end JavaBackend
