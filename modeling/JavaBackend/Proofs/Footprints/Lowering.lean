import JavaBackend.Proofs.Footprints.Basic
import JavaBackend.Proofs.Lowering.Accounts

/-!
# The footprint of a tree

Lowering a tree stays within every footprint that the tree fits (`Tree.keeps`). What a tree must fit is
said of its nodes: a footprint has the type of each value, the names that are assigned, the elements of
loops and the uses of fields. Inside of a block that declares a name, that name may be assigned, too.
-/

namespace JavaBackend

open Java (Stmt Code Piece Expr Test Handler)
open Lower

variable {α β : Type} {f : Footprint}

/-! ## The account of footprints -/

/-- Both ways to lower the part stay within the footprint. -/
structure Part.Keeps (f : Footprint) (part : Part) : Prop where
  held : f.types part.tree.type.held
  element : f.types (part.tree.type.component?.getD .object)
  inline : Stays f part.toInline
  statement : ∀ dest, Stays f (part.toStatement dest)

theorem allows_tryCatch {body : Code} {handlers : List (Handler Code)} (first : f.Allows body)
    (second : f.AllowsHandlers handlers) : f.Allows [.tryCatch body handlers] := by
  simpa [Footprint.Allows] using List.forall_mem_append.mpr ⟨first, second⟩

theorem allows_ifThen {test : Test} {yes : Code} (allowed : f.Allows yes) :
    f.Allows [.ifThen test yes] := by
  simpa [Footprint.Allows] using allowed

theorem allows_ifElse {test : Test} {yes no : Code} (first : f.Allows yes) (second : f.Allows no) :
    f.Allows [.ifElse test yes no] := by
  simpa [Footprint.Allows] using List.forall_mem_append.mpr ⟨first, second⟩

/-- A branch that runs if the test holds. -/
theorem keeps_yesBlock {body : Lower Unit} (keeps : Stays f body) (test : Test) :
    Keeps f (Lower.block [Piece.opening (Java.ifHeading test)] body) f.Allows :=
  keeps.block (.ifThen test) (fun _ allowed => allows_ifThen allowed)
    fun code => ⟨[.closing ""], by simp [Stmt.pieces, Thunk.get]⟩

/-- The branch behind another one. -/
theorem keeps_noBlock {body : Lower Unit} (keeps : Stays f body) {yes : Code}
    (allowed : f.Allows yes) (test : Test) :
    Keeps f (Lower.block (.opening (Java.ifHeading test) :: (Stmt.codePieces yes ++ [.next "else"]))
      body) f.Allows :=
  keeps.block (.ifElse test yes) (fun _ within => allows_ifElse allowed within)
    fun code => ⟨[.closing ""], by simp [Stmt.pieces, Thunk.get]⟩

theorem keeps_tryBlock {body : Lower Unit} (keeps : Stays f body) :
    Keeps f (Lower.block [Piece.opening "try"] body) f.Allows :=
  keeps.block (.tryCatch · []) (fun _ within => allows_tryCatch within (List.forall_mem_nil _))
    fun code => ⟨[.closing ""], by simp [Stmt.pieces, Stmt.handlersPieces, Thunk.get]⟩

theorem allows_tryFinally {body cleanup : Code} (first : f.Allows body) (second : f.Allows cleanup) :
    f.Allows [.tryFinally body cleanup] := by
  simpa [Footprint.Allows] using List.forall_mem_append.mpr ⟨first, second⟩

/-- The branch that is run at last. -/
theorem keeps_finallyBlock {body : Lower Unit} (keeps : Stays f body) {code : Code}
    (allowed : f.Allows code) :
    Keeps f (Lower.block (Piece.opening "try" :: (Stmt.codePieces code ++ [.next "finally"])) body)
      f.Allows :=
  keeps.block (.tryFinally code) (fun _ within => allows_tryFinally allowed within)
    fun code => ⟨[.closing ""], by simp [Stmt.pieces, Thunk.get]⟩

theorem allowsHandlers_snoc {handlers : List (Handler Code)} {type : JavaType} {name : String}
    {code : Code} (allowed : f.AllowsHandlers handlers) (within : f.Allows code) :
    f.AllowsHandlers (handlers ++ [⟨type, name, code⟩]) := by
  unfold Footprint.AllowsHandlers
  rw [Stmt.handlersDeclarations_append]
  refine List.forall_mem_append.mpr ⟨allowed, ?_⟩
  simpa [Footprint.Allows] using within

/-- A handler behind others. -/
theorem keeps_handlerBlock {body : Lower Unit} (keeps : Stays f body) {code : Code}
    (allowed : f.Allows code) {handlers : List (Handler Code)}
    (handled : f.AllowsHandlers handlers) (type : JavaType) (name : String) :
    Keeps f (do
      let inner ← block (Piece.opening "try" :: Stmt.codePieces code ++ Stmt.handlersPieces handlers ++
        [Piece.next (Java.catchHeading type name)]) body
      return handlers ++ [⟨type, name, inner⟩]) f.AllowsHandlers := by
  refine Keeps.bind (keeps.block (fun more => .tryCatch code (handlers ++ [⟨type, name, more⟩]))
    (fun _ within => allows_tryCatch allowed (allowsHandlers_snoc handled within)) fun more => ?_)
    fun more within => keeps_pure (allowsHandlers_snoc handled within)
  refine ⟨[.closing ""], ?_⟩
  simp [Stmt.pieces, Stmt.handlersPieces, Stmt.handlersPieces_append, Stmt.handlerPieces, Thunk.get]

/-- What is laid out around a block is the beginning of its statement, which declares what the block
    declares and no more than some types. -/
theorem Around.allows {opening : List Piece} {stmt : Code → Stmt} {types : List JavaType}
    (around : Around opening stmt types) (allowed : ∀ type ∈ types, f.types type) (code : Code) :
    opening ++ Stmt.codePieces code <+: (stmt code).pieces ∧ (f.Allows code → f.Allows [stmt code]) := by
  induction around with
  | loop checkFirst test =>
    cases checkFirst with
    | true => exact ⟨⟨[.closing ""], by simp [loopOpening, loopStmt, Stmt.pieces]⟩,
        fun within => by simpa [loopStmt, Footprint.Allows] using within⟩
    | false => exact ⟨⟨[.closing (Java.doTail test)], by simp [loopOpening, loopStmt, Stmt.pieces]⟩,
        fun within => by simpa [loopStmt, Footprint.Allows] using within⟩
  | block =>
    exact ⟨⟨[.closing ""], by simp [Stmt.pieces]⟩, fun within => by simpa [Footprint.Allows] using within⟩
  | again test =>
    exact ⟨⟨[.closing (Java.doTail test)], by simp [Stmt.pieces]⟩,
      fun within => by simpa [Footprint.Allows] using within⟩
  | each element var iterable =>
    have declared := List.forall_mem_singleton.mp allowed
    exact ⟨⟨[.closing ""], by simp [Stmt.pieces]⟩,
      fun within => by simpa [Footprint.Allows] using ⟨declared, within⟩⟩
  | labeled _ label ih =>
    obtain ⟨begins, whole⟩ := ih allowed
    exact ⟨List.cons_prefix_cons.mpr ⟨rfl, begins⟩,
      fun within => by simpa [Footprint.Allows] using whole within⟩

/-- What a computation leaves behind, whatever parts it lowers. -/
def keeping : Account where
  Index := Footprint
  Of f m _ := Stays f m
  Adds f code add _ := f.Allows code → ∀ handlers, f.AllowsHandlers handlers →
    Keeps f (add handlers) f.AllowsHandlers
  Types := Footprint.types
  bind := Footprint.bind
  bind_none _ := rfl
  object f := f.object
  boolean f := f.boolean
  types_bind allowed _ := allowed
  of_apply choice := keeps_of_apply choice
  of_pure a := stays_pure a
  of_bind first next := first.then next
  of_context := stays_context
  of_emit {_ stmt} line := by
    refine stays_emit (Footprint.allows_of_declarations ?_)
    cases stmt with
    | store _ _ | setField _ _ | eval _ | print _ _ | ret => rfl
    | _ => cases line
  of_newTemp allowed init := stays_newTemp allowed init
  of_freshName := stays_freshName
  of_freshLabel := stays_freshLabel
  of_ifThen first test :=
    (keeps_yesBlock first test).bind fun _ allowed => stays_emit (allows_ifThen allowed)
  of_ifElse first second test :=
    (keeps_yesBlock first test).bind fun _ allowed => (keeps_noBlock second allowed test).bind
      fun _ within => stays_emit (allows_ifElse allowed within)
  of_tryFinally first second :=
    (keeps_tryBlock first).bind fun _ allowed => (keeps_finallyBlock second allowed).bind
      fun _ within => stays_emit (allows_tryFinally allowed within)
  of_tryCatch first second :=
    (keeps_tryBlock first).bind fun code allowed => (second code allowed [] (List.forall_mem_nil _)).bind
      fun _ handled => stays_emit (allows_tryCatch allowed handled)
  adds_pure _ _ handled := keeps_pure handled
  adds_bind first second allowed handlers handled :=
    (first allowed handlers handled).bind fun handlers handled => second allowed handlers handled
  adds_fresh lowered type allowed _ handled :=
    stays_freshName.then fun name => keeps_handlerBlock (lowered name) allowed handled type name
  adds_named lowered type allowed _ handled :=
    keeps_handlerBlock (lowered.withLocal type) allowed handled type _
  adds_isLocal_bind known unknown allowed handlers handled :=
    keeps_isLocal_bind (known allowed handlers handled) (unknown allowed handlers handled)
  of_around around allowed lowered :=
    Keeps.bind (lowered.block _ (fun code => (around.allows allowed code).2)
      fun code => (around.allows allowed code).1) fun code within =>
        stays_emit ((around.allows allowed code).2 within)
  of_inLoop lowered loop := lowered.inLoop loop
  of_withLocal lowered type := lowered.withLocal type
  of_isLocal_bind known unknown := keeps_isLocal_bind known unknown
  of_node _ lowered _ := lowered

namespace Part.Keeps

variable {part : Part}

theorem covers (keeps : part.Keeps f) : keeping.Covers f part :=
  ⟨keeps.held, keeps.inline, keeps.statement⟩

theorem toExpr (keeps : part.Keeps f) : Stays f part.toExpr := Account.Covers.toExpr keeps.covers

theorem toOperand (keeps : part.Keeps f) : Stays f part.toOperand := by
  refine keeps_of_apply fun ctx p => ?_
  unfold Part.toOperand
  rw [isExpression_bind]
  split
  · exact ⟨_, rfl, stays_pure _⟩
  · exact ⟨_, rfl, (Account.Covers.toTemp keeps.covers).then fun _ => stays_pure _⟩

end Part.Keeps

theorem stays_putValue (dest : Destination) (value : Expr) : Stays f (putValue dest value) :=
  @Account.of_putValue keeping f dest value

theorem stays_lowerEffects {arm : Option Part} (keeps : ∀ part ∈ arm, part.Keeps f) :
    Stays f (lowerEffects arm) :=
  Account.of_lowerEffects fun part mem => (keeps part mem).covers

theorem stays_lowerReturn {value : Option Part} (keeps : ∀ part ∈ value, part.Keeps f) :
    Stays f (lowerReturn value) :=
  Account.of_lowerReturn fun part mem => (keeps part mem).covers

/-! ## Loops and jumps -/

theorem stays_redoCheck (redo : Bool) (body : Option Part) (form : LoopForm) :
    Stays f (if redo then pure () else refuseRedo body form) := by
  unfold refuseRedo
  split
  · exact stays_pure ()
  · split
    · split
      · exact stays_fail _
      · exact stays_pure ()
    · exact stays_pure ()

theorem stays_lowerLoop {spec : Loop Part} (covers : spec.Each (keeping.Covers f)) :
    Stays f (lowerLoop spec) := by
  refine keeps_of_apply fun ctx p => ⟨_, lowerLoop_apply spec ctx p, ?_⟩
  have init : Stays f (lowerEffects spec.init) := Account.of_lowerEffects covers.init
  refine (stays_redoCheck _ _ _).then fun _ => init.then fun _ => ?_
  split
  · exact keeps_of_apply (Account.of_lowerLabeledLoop covers)
  · next plain => exact Account.of_lowerPlainLoop covers (Bool.eq_false_iff.mpr plain)

theorem stays_lowerForEach {spec : ForEach Part} (iterableKeeps : spec.iterable.Keeps f)
    (bodyKeeps : ∀ part ∈ spec.body, part.Keeps (f.bind (some spec.var))) :
    Stays f (lowerForEach spec) := by
  rw [lowerForEach_eq]
  refine (stays_redoCheck _ _ _).then fun _ => ?_
  exact Account.of_elements iterableKeeps.covers iterableKeeps.element fun part mem =>
    (bodyKeeps part mem).covers

theorem stays_lowerJump (action : Jump) : Stays f (lowerJump action) := by
  have plain : ∀ stmt : Stmt, stmt.declarations = [] → Stays f (Lower.emit stmt) :=
    fun _ none => stays_emit (f.allows_of_declarations none)
  refine stays_context.then fun ctx => ?_
  split
  · exact stays_fail _
  · split
    · exact plain _ rfl
    · exact plain _ rfl
    · exact plain _ rfl
    · exact (plain _ rfl).then fun _ => plain _ rfl
    · exact stays_fail _

/-! ## Trees -/

/-- The children of a node, each with the name that the block around it declares. -/
def Kind.boundChildren : Kind α → List (Option String × α)
  | .forEach spec => (none, spec.iterable) :: spec.body.toList.map (some spec.var, ·)
  | .rescue body clauses otherwise =>
    (body.toList ++ otherwise.toList).map (none, ·) ++
      clauses.flatMap fun clause => clause.body.toList.map (clause.name, ·)
  | kind => kind.children.map (none, ·)

theorem Kind.boundChildren_map (g : α → β) (kind : Kind α) :
    (kind.map g).boundChildren = kind.boundChildren.map fun part => (part.1, g part.2) := by
  have children := kind.children_map g
  have plain : ((kind.map g).children.map ((none, ·)) : List (Option String × β)) =
      (kind.children.map ((none, ·))).map fun part => (part.1, g part.2) := by
    rw [children, List.map_map, List.map_map]
    rfl
  cases kind with
  | forEach spec =>
    obtain ⟨var, iterable, body, redo⟩ := spec
    cases body <;> rfl
  | rescue body clauses otherwise =>
    have handled : ∀ clause : RescueClause α, ((clause.map g).body.toList.map (clause.name, ·)) =
        (clause.body.toList.map (clause.name, ·)).map fun part => (part.1, g part.2) := by
      rintro ⟨types, name, body⟩
      cases body <;> rfl
    have parts : ∀ part : Option α, (part.map g).toList = part.toList.map g := by
      intro part
      cases part <;> rfl
    simp only [map, boundChildren, parts, List.map_append, List.map_map, List.map_flatMap, List.flatMap_map]
    congr 2
    funext clause
    exact (handled clause).trans (List.map_map ..)
  | _ => exact plain

theorem Kind.mem_children_of_bound {kind : Kind α} {part : Option String × α}
    (mem : part ∈ kind.boundChildren) : part.2 ∈ kind.children := by
  have plain : part ∈ kind.children.map ((none : Option String), ·) → part.2 ∈ kind.children := by
    intro mem
    obtain ⟨child, found, rfl⟩ := List.mem_map.mp mem
    exact found
  cases kind with
  | forEach spec =>
    rcases List.mem_cons.mp mem with rfl | mem
    · exact List.mem_cons_self
    · obtain ⟨child, found, rfl⟩ := List.mem_map.mp mem
      exact List.mem_cons_of_mem _ found
  | rescue body clauses otherwise =>
    rcases List.mem_append.mp mem with mem | mem
    · obtain ⟨child, found, rfl⟩ := List.mem_map.mp mem
      rcases List.mem_append.mp found with found | found <;> simp [children, found]
    · obtain ⟨clause, clauseMem, mem⟩ := List.mem_flatMap.mp mem
      obtain ⟨child, found, rfl⟩ := List.mem_map.mp mem
      have handled : child ∈ clauses.filterMap RescueClause.body :=
        List.mem_filterMap.mpr ⟨clause, clauseMem, Option.mem_toList.mp found⟩
      simp [children, handled]
  | _ => exact plain mem

/-- The fields that a node itself refers to. -/
def Kind.ownUses (type : JavaType) : Kind α → List FieldUse
  | .field name isStatic => [⟨name, type, isStatic⟩]
  | .setField name _ isStatic => [⟨name, type.held, isStatic⟩]
  | _ => []

/-- The variable that a node itself assigns. -/
def Kind.ownNames : Kind α → List String
  | .assign name _ => [name]
  | _ => []

/-- The footprint covers what the nodes of the tree leave behind. -/
inductive Tree.Fits : Footprint → Tree → Prop
  | node {f : Footprint} {kind : Kind Tree} {type : JavaType} (held : f.types type.held)
      (element : f.types (type.component?.getD .object))
      (names : ∀ name ∈ kind.ownNames, f.names name)
      (uses : ∀ use ∈ kind.ownUses type, f.uses use)
      (parts : ∀ part ∈ kind.boundChildren, Fits (f.bind part.1) part.2) : Fits f (.node kind type)

/-- Both ways to lower a node stay within the footprint. -/
structure Lowering.Keeps (f : Footprint) (lowering : Lowering) : Prop where
  inline : ∀ m ∈ lowering.inline, Stays f m
  statement : ∀ dest, Stays f (lowering.statement dest)

theorem Lowering.keeps_ofStatement {statement : Destination → Lower Unit}
    (stays : ∀ dest, Stays f (statement dest)) : Keeps f (ofStatement statement) where
  inline _ mem := nomatch mem
  statement := stays

/-- A node that does more than to lower its parts stays within a footprint that covers it, too. -/
theorem Kind.lowering_keeps {kind : Kind Part} {type : JavaType} (special : kind.isStraight = false)
    (held : f.types type.held) (names : ∀ name ∈ kind.ownNames, f.names name)
    (uses : ∀ use ∈ kind.ownUses type, f.uses use)
    (parts : ∀ part ∈ kind.boundChildren, part.2.Keeps (f.bind part.1)) :
    (kind.lowering type).Keeps f := by
  cases kind with
  | field name isStatic =>
    have value : Stays f (fieldValue name isStatic type) :=
      (stays_useField (uses _ List.mem_cons_self)).then fun _ =>
        @Account.of_fieldExpr keeping f name isStatic
    refine ⟨by rintro m ⟨⟩; exact value, fun dest => ?_⟩
    cases dest with
    | discard => exact stays_pure ()
    | store sink => exact value.then fun _ => stays_emit (f.allows_of_declarations rfl)
  | assign name value =>
    have covers := (parts (none, value) List.mem_cons_self).covers
    have named := names name List.mem_cons_self
    refine ⟨by rintro m ⟨⟩; exact covers.toExpr.then fun _ => stays_pure _, fun dest => ?_⟩
    exact Account.of_lowerAssign covers (stays_declareLocal held named) dest
  | setField name value isStatic =>
    have covers := (parts (none, value) List.mem_cons_self).covers
    refine Lowering.keeps_ofStatement fun dest => (stays_useField (uses _ List.mem_cons_self)).then fun _ => ?_
    exact Account.of_assignField covers name isStatic dest
  | loop spec =>
    have covers := Loop.each_of_children fun part mem => (parts (none, part) (List.mem_map_of_mem mem)).covers
    exact Lowering.keeps_ofStatement fun dest => (stays_lowerLoop covers).then fun _ => stays_putValue dest _
  | forEach spec =>
    have iterable := parts (none, spec.iterable) List.mem_cons_self
    have body : ∀ part ∈ spec.body, part.Keeps (f.bind (some spec.var)) := fun part mem =>
      parts (some spec.var, part)
        (List.mem_cons_of_mem _ (List.mem_map_of_mem (Option.mem_toList.mpr mem)))
    exact Lowering.keeps_ofStatement fun dest =>
      (stays_lowerForEach iterable body).then fun _ => stays_putValue dest _
  | jump action => exact Lowering.keeps_ofStatement fun _ => stays_lowerJump action
  | ret value =>
    exact Lowering.keeps_ofStatement fun _ =>
      stays_lowerReturn fun part mem => parts (none, part) (List.mem_map_of_mem (Option.mem_toList.mpr mem))
  | rescue body clauses otherwise =>
    refine Lowering.keeps_ofStatement fun dest => Account.of_lowerRescue
      (fun part mem => (parts (none, part) ?_).covers) (fun clause memClause part mem => Part.Keeps.covers ?_)
      (fun part mem => (parts (none, part) ?_).covers) type dest
    · simp [boundChildren, Option.mem_def.mp mem]
    · refine parts (clause.name, part) (List.mem_append_right _ (List.mem_flatMap.mpr ⟨clause, memClause, ?_⟩))
      exact List.mem_map_of_mem (Option.mem_toList.mpr mem)
    · simp [boundChildren, Option.mem_def.mp mem]
  | _ => cases special

/-- Lowering a tree stays within every footprint that covers the tree. -/
theorem Tree.keeps {tree : Tree} (fits : tree.Fits f) : tree.part.Keeps f := by
  induction fits with
  | @node f kind type held element names uses _ ih =>
    suffices covers : keeping.Covers f (Tree.node kind type).part from
      ⟨held, element, covers.inline, covers.statement⟩
    cases straight : kind.isStraight with
    | true =>
      refine Account.covers_node straight held fun tree mem => (ih (none, tree) ?_).covers
      cases kind with
      | forEach _ | rescue _ _ _ => cases straight
      | _ => exact List.mem_map_of_mem mem
    | false =>
      have node : ((kind.map part).lowering type).Keeps f := by
        refine Kind.lowering_keeps ?_ held ?_ ?_ ?_
        · cases kind <;> exact straight
        · cases kind <;> exact names
        · cases kind <;> exact uses
        · rw [Kind.boundChildren_map]
          exact List.forall_mem_map.mpr ih
      refine Account.covers_of_describes held ?_
      rw [lowering_node]
      exact ⟨node.inline, node.statement⟩

/-! ## Assigned variables -/

/-- The variables that a tree assigns outside of every block that declares them. -/
def Tree.freeAssigned : Tree → List String :=
  para fun kind _ => kind.ownNames ++ kind.boundChildren.flatMap fun part =>
    part.2.result.get.filter fun name => part.1 != some name

theorem Tree.freeAssigned_node (kind : Kind Tree) (type : JavaType) :
    (Tree.node kind type).freeAssigned = kind.ownNames ++ kind.boundChildren.flatMap fun part =>
      part.2.freeAssigned.filter fun name => part.1 != some name := by
  rw [freeAssigned, para_node, Kind.boundChildren_map, List.flatMap_map]
  congr 1
  cases kind <;> rfl

/-- The footprint that bounds the names of variables and nothing else. -/
def Footprint.ofNames (names : String → Prop) : Footprint where
  names := names
  types _ := True
  uses _ := True
  boolean := trivial
  object := trivial

/-- A tree makes variables of the names that it assigns. -/
theorem Tree.fits_ofNames (tree : Tree) : ∀ names : String → Prop,
    (∀ name ∈ tree.freeAssigned, names name) → tree.Fits (.ofNames names) := by
  induction tree using Tree.induction with
  | step kind type ih =>
    intro names assigned
    rw [freeAssigned_node] at assigned
    obtain ⟨own, parts⟩ := List.forall_mem_append.mp assigned
    refine .node trivial trivial own (fun _ _ => trivial) fun part mem => ?_
    have inside : ∀ name ∈ part.2.freeAssigned, part.1 ≠ some name → names name :=
      fun name found other => parts name (List.mem_flatMap.mpr
        ⟨part, mem, List.mem_filter.mpr ⟨found, bne_iff_ne.mpr other⟩⟩)
    have tree := ih part.2 (Kind.mem_children_of_bound mem)
    obtain ⟨bound, child⟩ := part
    cases bound with
    | none => exact tree names fun name found => inside name found (by simp)
    | some bound =>
      refine tree (fun other => other = bound ∨ names other) fun name found => ?_
      by_cases same : name = bound
      · exact .inl same
      · exact .inr (inside name found fun equal => same (Option.some.inj equal).symm)

end JavaBackend
