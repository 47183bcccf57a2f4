import JavaBackend.Proofs.Fields.Lowering
import JavaBackend.Proofs.Footprints.Restored

/-!
# The types of what is declared

A variable holds a value, and `void` has none. No temporary, no assigned variable and no element of a loop
is declared with that type, and no field that is assigned, whatever types the nodes of a tree have: each
of them has the type that holds a value (`JavaType.held`). Only the read of a field declares the field
with the type of its own node (`void_declared_only_by_reads`).
-/

namespace JavaBackend

open Java (Stmt Code Piece)
open Lower

theorem JavaType.held_ne_void (type : JavaType) : type.held ≠ .void := by
  cases type <;> simp [held, object]

/-! ## Variables -/

/-- The types that the variables for the values of a tree's nodes, and for the elements of these, are
    declared with. -/
def Tree.valueTypes : Tree → List JavaType :=
  para fun kind type =>
    type.held :: type.component?.getD .object :: kind.children.flatMap (·.result.get)

theorem Tree.valueTypes_node (kind : Kind Tree) (type : JavaType) :
    (Tree.node kind type).valueTypes =
      type.held :: type.component?.getD .object :: kind.children.flatMap valueTypes := by
  rw [valueTypes, para_node, Kind.children_map, List.flatMap_map]
  rfl

/-- The footprint of a tree that reads fields: variables are flags, objects or of some other types, and
    `void` is left out, but for these reads. -/
def Footprint.ofReads (types : List JavaType) (reads : List FieldUse) : Footprint where
  names _ := True
  types type := type ≠ .void ∧ type ∈ .boolean :: .object :: types
  uses use := use.type = .void → use ∈ reads
  boolean := by simp
  object := by simp [JavaType.object]

theorem Footprint.ofReads_bind (types : List JavaType) (reads : List FieldUse) (name : Option String) :
    (ofReads types reads).bind name = ofReads types reads := by
  cases name with
  | none => rfl
  | some name => simp [ofReads, bind]

/-- A node whose own use of a field is of type `void` reads the field. -/
theorem Kind.mem_ownReads_of_void {α : Type} {kind : Kind α} {type : JavaType} {use : FieldUse}
    (own : use ∈ kind.ownUses type) (void : use.type = .void) : use ∈ kind.ownReads type := by
  cases kind with
  | field name isStatic => exact own
  | setField name value isStatic =>
    cases List.mem_singleton.mp own
    exact absurd void type.held_ne_void
  | _ => cases own

/-- A tree with no array of `void` leaves only values behind, and the fields that it reads. -/
theorem Tree.fits_ofReads {types : List JavaType} {reads : List FieldUse} (tree : Tree)
    (elements : tree.Every fun _ type => type.component? ≠ some .void)
    (listed : ∀ type ∈ tree.valueTypes, type ∈ JavaType.boolean :: .object :: types)
    (within : ∀ use ∈ tree.fieldReads, use ∈ reads) : tree.Fits (.ofReads types reads) := by
  induction tree using Tree.induction with
  | step kind type ih =>
    obtain ⟨component, children⟩ := Tree.every_node.mp elements
    rw [fieldReads_node] at within
    obtain ⟨parts, own⟩ := List.forall_mem_append.mp within
    rw [valueTypes_node, List.forall_mem_cons, List.forall_mem_cons] at listed
    obtain ⟨heldListed, elementListed, inside⟩ := listed
    have element : type.component?.getD .object ≠ .void := by
      cases found : type.component? with
      | none => simp [JavaType.object]
      | some element =>
        rintro rfl
        exact component found
    refine .node ⟨type.held_ne_void, heldListed⟩ ⟨element, elementListed⟩ (fun _ _ => trivial) (fun use mem void => ?_) fun part mem => ?_
    · exact own use (Kind.mem_ownReads_of_void mem void)
    · have child := Kind.mem_children_of_bound mem
      rw [Footprint.ofReads_bind]
      exact ih part.2 child (children part.2 child)
        (fun type found => inside type (List.mem_flatMap.mpr ⟨part.2, child, found⟩))
        fun use found => parts use (List.mem_flatMap.mpr ⟨part.2, child, found⟩)

/-! ## Fields -/

theorem Kind.references_subset_ownUses {kind : Kind Tree} {type : JavaType} {wanted : Bool} :
    kind.references type wanted ⊆ kind.ownUses type := by
  cases kind with
  | field name isStatic => cases wanted <;> simp [references, ownUses]
  | setField name value isStatic => exact List.Subset.refl _
  | _ => exact List.nil_subset _

/-- A reference of visits is one of a visit. -/
theorem RefersAll.exists_visit {void : Bool} {known : Set String} {visits : List Visit}
    {uses : List FieldUse} (refers : RefersAll void known visits uses) {use : FieldUse}
    (mem : use ∈ uses) : ∃ visit ∈ visits, ∃ around here,
      visit.tree.Refers void around visit.wanted here ∧ use ∈ here := by
  induction visits generalizing known uses with
  | nil =>
    cases refers
    cases mem
  | cons visit rest ih =>
    cases refers with
    | cons first others =>
      rcases List.mem_append.mp mem with here | later
      · exact ⟨visit, List.mem_cons_self, _, _, first, here⟩
      · obtain ⟨other, visited, found⟩ := ih others later
        exact ⟨other, List.mem_cons_of_mem _ visited, found⟩

/-- A reference of type `void` is a read. -/
theorem Tree.Refers.mem_fieldReads {void : Bool} {known : Set String} {wanted : Bool} {tree : Tree}
    {uses : List FieldUse} (refers : tree.Refers void known wanted uses) {use : FieldUse}
    (mem : use ∈ uses) (isVoid : use.type = .void) : use ∈ tree.fieldReads := by
  induction tree using Tree.induction generalizing known wanted uses with
  | step kind type ih =>
    cases refers with
    | node decided parts =>
      rw [Tree.fieldReads_node]
      rcases List.mem_append.mp mem with own | inside
      · exact List.mem_append_right _
          (Kind.mem_ownReads_of_void (Kind.references_subset_ownUses own) isVoid)
      · obtain ⟨visit, visited, _, _, part, found⟩ := parts.exists_visit inside
        have child := Kind.mem_children_of_bound
          (Kind.mem_place_visits.mp (List.mem_map_of_mem visited))
        exact List.mem_append_left _
          (List.mem_flatMap.mpr ⟨_, child, ih visit.tree child part found⟩)

namespace Order

/-- The fields that the tree reads. -/
def fieldReads (order : Order) : List FieldUse := order.tree?.elim [] Tree.fieldReads

/-- The types that variables are declared with: those for the values of the tree, and those of flags and of
    what is handled. -/
def variableTypes (order : Order) : List JavaType :=
  .boolean :: .object :: order.tree?.elim [] Tree.valueTypes

/-- The trees that are lowered, in a method that returns nothing if `void` is set. An operand that needs no
    statement is left for later. -/
def visits (isLocal : String → Bool) (void : Bool) : Order → List Visit
  | .statement tree dest => [.of dest.wantsValue tree]
  | .expression tree => [.of true tree]
  | .operand tree => if tree.isExpression isLocal then [] else [.of true tree]
  | .ret value => value.toList.map (.of !void)

theorem mem_fieldReads_of_visit {order : Order} {isLocal : String → Bool} {void : Bool} {visit : Visit}
    (visited : visit ∈ order.visits isLocal void) {use : FieldUse}
    (mem : use ∈ visit.tree.fieldReads) : use ∈ order.fieldReads := by
  have tree : visit.tree ∈ order.tree? := by
    cases order with
    | statement tree dest | expression tree =>
      cases List.mem_singleton.mp visited
      rfl
    | operand tree =>
      change visit ∈ if tree.isExpression isLocal then [] else [Visit.of true tree] at visited
      split at visited
      · cases visited
      · cases List.mem_singleton.mp visited
        rfl
    | ret value =>
      obtain ⟨tree, found, rfl⟩ := List.mem_map.mp visited
      exact Option.mem_toList.mp found
  rwa [fieldReads, Option.mem_def.mp tree]

/-- What is asked for is lowered as its trees are. -/
theorem noted {order : Order} {ctx : Context} {p p' : Progress} {code : Code} {known : Set String}
    (ends : Ends order.lower ctx p code () p') (knows : p.KnowsOwn known) :
    Noted ctx.returns.isVoid known (order.visits p.scope.isLocal ctx.returns.isVoid) p p' := by
  cases order with
  | statement tree dest => exact (tree.derives.statement dest ends).noted trivial knows
  | expression tree =>
    obtain ⟨_, ends, -⟩ := ends_map.mp ends
    exact (tree.derives.toExpr ends).noted trivial knows
  | operand tree =>
    obtain ⟨operand, ends, -⟩ := ends_map.mp ends
    unfold Ends at ends
    rw [Tree.toOperand_apply] at ends
    show Noted _ known (if tree.isExpression p.scope.isLocal then [] else [.of true tree]) p p'
    split at ends
    · next expression =>
      rw [if_pos expression]
      obtain ⟨-, -, rfl⟩ := ends_pure.mp ends
      exact .nil knows
    · next statements =>
      rw [if_neg statements]
      obtain ⟨_, ends, -⟩ := ends_map.mp ends
      exact (tree.follows_toTemp tree.derives.statement ends).noted trivial knows
  | ret value =>
    exact ((follows_lowerReturn (fun tree _ => tree.derives) .void .discard ends).noted trivial knows).of_ret

end Order

/-! ## Calls -/

/-- What a call declares in a method: variables in code, each with a type for a value of the tree, which
    are known behind it, and fields. Only a field that is read as `void` is declared with that type. -/
structure MethodDraft.DeclaresValues (m : MethodDraft) (order : Order) (scope : Scope) (code : Code)
    (uses : List FieldUse) : Prop where
  code : ∀ declared ∈ Stmt.codeDeclarations code,
    declared.type ≠ .void ∧ declared.type ∈ order.variableTypes
  locals : ∀ name, scope.locals.type? name = some .void → m.localType? name = some .void
  fields : ∀ use ∈ uses, use.type = .void → use ∈ order.fieldReads

/-- What a call may leave behind. -/
def Order.footprint (order : Order) : Footprint :=
  .ofReads (order.tree?.elim [] Tree.valueTypes) order.fieldReads

theorem Order.stays_footprint {order : Order}
    (elements : ∀ tree ∈ order.tree?, tree.Every fun _ type => type.component? ≠ some .void) :
    Stays order.footprint order.lower := by
  refine stays fun tree mem => tree.fits_ofReads (elements tree mem) (fun type found => ?_)
    fun use found => ?_
  · rw [Option.mem_def.mp mem]
    exact List.mem_cons_of_mem _ (List.mem_cons_of_mem _ found)
  · rwa [fieldReads, Option.mem_def.mp mem]

/-- What a run within the footprint leaves behind. -/
theorem MethodDraft.DeclaresValues.of_reaches {m : MethodDraft} {order : Order} {p : Progress}
    (reaches : Progress.Reaches order.footprint ⟨m.scope, []⟩ p) {code : Code}
    (allowed : order.footprint.Allows code) {uses : List FieldUse}
    (reads : ∀ use ∈ uses, use.type = .void → use ∈ order.fieldReads) :
    m.DeclaresValues order p.scope code uses where
  code := allowed
  locals name isVoid := by
    rcases reaches.new name .void isVoid with before | ⟨value, -⟩
    · exact before
    · exact absurd rfl value.1
  fields := reads

/-- Where no array of `void` is around, lowering declares nothing of type `void` but fields, and each of
    these is read as `void`. If the call ends well, this is said of the code that its run ends with, and
    the fields are those that it refers to, as it refers to them first: one is of type `void` just if a
    read of that type comes in front of all other references to it. -/
theorem void_declared_only_by_reads {s : Session} {m : MethodDraft} (found : s.method? = some m)
    (order : Order)
    (elements : ∀ tree ∈ order.tree?, tree.Every fun _ type => type.component? ≠ some .void) :
    ∃ scope written code uses,
      (s.perform order).2.draft = (s.draft.setMethod s.index
        (({ m with scope := scope } : MethodDraft).lay (written : List Piece))).useFields uses ∧
      written <+: Stmt.codePieces code ∧ m.DeclaresValues order scope code uses ∧
      ((s.perform order).1 = .ok () → written = Stmt.codePieces code ∧
        (∃ fields, Ends order.lower (s.draft.context m s.loops) ⟨m.scope, []⟩ code () ⟨scope, fields⟩) ∧
        RefersAll m.signature.returns.isVoid {name | m.isLocal name = true}
          (order.visits m.isLocal m.signature.returns.isVoid) uses) := by
  obtain ⟨reaches, laid⟩ := Order.stays_footprint elements (s.draft.context m s.loops) ⟨m.scope, []⟩
  rw [Session.perform_of_found found order]
  cases run : order.lower (s.draft.context m s.loops) ⟨m.scope, []⟩ with
  | mk outcome p' =>
    rw [run] at reaches laid
    cases outcome with
    | failed written fault =>
      -- The fields that were noted in front of the fault are within the footprint.
      obtain ⟨uses, same, reads⟩ := reaches.uses
      obtain ⟨code, allowed, begins⟩ := laid
      refine ⟨p'.scope, written, code, uses, ?_, begins, .of_reaches reaches allowed reads, nofun⟩
      exact congrArg (ClassDraft.useFields _) same
    | done code result =>
      obtain ⟨uses, refers, same⟩ := (Order.noted run fun _ _ => Iff.rfl).fields
      have reads : ∀ use ∈ uses, use.type = .void → use ∈ order.fieldReads := by
        intro use mem isVoid
        obtain ⟨visit, visited, _, _, part, here⟩ := refers.exists_visit mem
        exact Order.mem_fieldReads_of_visit visited (part.mem_fieldReads here isVoid)
      refine ⟨p'.scope, Stmt.codePieces code, code, uses, ?_, List.prefix_rfl,
        .of_reaches reaches laid.1 reads, fun _ => ⟨rfl, ⟨p'.fields, run⟩, refers⟩⟩
      exact (congrArg (ClassDraft.useFields _) same).trans (ClassDraft.useFields_fields ..)

/-- A call of nothing is assigned to `x`, and `f` is printed as if it were of type `void`. The variable is
    an object, and the field is not. -/
theorem printed_field_declared_void :
    let call : Tree := .node (.call .implicit "step" [] .void) .void
    let read : Tree := .node (.field "f" false) .void
    let tree : Tree := .node (.seq [.node (.assign "x" call) .void, .node (.print (some read) false) .void]) .void
    let m : MethodDraft := (MethodDraft.ofSignature ⟨"run", .member, .void, [], []⟩ 2).start
    let c : ClassDraft := ⟨"a.mirah", none, "A", .classType .object false, [], [], .ofStep 2, [], [m],
      true, {}⟩
    let s : Session := ⟨c, 0, []⟩
    let order : Order := .statement tree .discard
    (s.perform order).1 = .ok () ∧ (s.perform order).2.draft.out.text = "private void f;\n" ∧
      order.fieldReads = [⟨"f", .void, false⟩] ∧
      ∃ scope code fields uses, Ends order.lower (c.context m []) ⟨m.scope, []⟩ code () ⟨scope, fields⟩ ∧
        m.DeclaresValues order scope code uses ∧
        RefersAll true {name | m.isLocal name = true} [.of false tree] uses := by
  intro call read tree m c s order
  have found : s.method? = some m := rfl
  have accepted : (s.perform order).1 = .ok () :=
    ClassDraft.lower_of_wellPlaced found rfl (show tree.wellPlaced none = true from rfl) .discard
  have elements : ∀ tree ∈ order.tree?, tree.Every fun _ type => type.component? ≠ some .void := by
    rintro _ ⟨⟩
    simp [tree, read, call, Tree.every_node, Kind.children, Receiver.toList, JavaType.component?]
  obtain ⟨scope, written, code, uses, -, -, declares, ends⟩ :=
    void_declared_only_by_reads found order elements
  obtain ⟨-, ⟨fields, run⟩, refers⟩ := ends accepted
  exact ⟨accepted, by decide +kernel, rfl, scope, code, fields, uses, run, declares, refers⟩

end JavaBackend
