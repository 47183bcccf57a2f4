import JavaBackend.Proofs.Draft.Runs
import Mathlib.Data.List.Perm.Basic

/-!
# Members do not interfere

The text of a method, and whether it can be compiled at all, depend on nothing but the method and the
name and the kind of its class. `MethodDecl.finished` is a method on its own, and every class is put
together from its methods in this sense; every unit is put together from its types.
-/

namespace JavaBackend

open Java (Stmt Code)

variable {α β σ : Type}

/-! ## Lists of parts -/

/-- A list of computations fails with the first that fails. -/
theorem mapM_eq_error_iff {f : α → Except Fault β} {items : List α} {fault : Fault} :
    items.mapM f = .error fault ↔ ∃ before item after, items = before ++ item :: after ∧
      (∀ earlier ∈ before, ∃ part, f earlier = .ok part) ∧ f item = .error fault := by
  induction items with
  | nil => simp [pure, Except.pure]
  | cons first rest ih =>
    rw [List.mapM_cons]
    cases result : f first with
    | error other =>
      constructor
      · rintro ⟨⟩
        exact ⟨[], first, rest, rfl, List.forall_mem_nil _, result⟩
      · rintro ⟨before, item, after, split, fine, fails⟩
        cases before with
        | nil =>
          cases split
          rw [result] at fails
          cases fails
          rfl
        | cons earlier before =>
          cases split
          obtain ⟨part, ok⟩ := fine _ List.mem_cons_self
          rw [result] at ok
          cases ok
    | ok part =>
      have behind : (f first >>= fun part => rest.mapM f >>= fun parts => pure (part :: parts)) =
          .error fault ↔ rest.mapM f = .error fault := by
        rw [result]
        cases rest.mapM f <;> simp [bind, Except.bind, pure, Except.pure]
      rw [← result, behind, ih]
      constructor
      · rintro ⟨before, item, after, rfl, fine, fails⟩
        exact ⟨first :: before, item, after, rfl,
          List.forall_mem_cons.mpr ⟨⟨part, result⟩, fine⟩, fails⟩
      · rintro ⟨before, item, after, split, fine, fails⟩
        cases before with
        | nil =>
          cases split
          rw [result] at fails
          cases fails
        | cons earlier before =>
          cases split
          exact ⟨before, item, after, rfl, (List.forall_mem_cons.mp fine).2, fails⟩

/-- Adding one part after another is putting all parts together. -/
theorem foldlM_eq_mapM {step : σ → α → Except Fault σ} {f : α → Except Fault β} {add : σ → β → σ}
    (same : σ → Prop) (adds : ∀ s item, same s → step s item = add s <$> f item)
    (keeps : ∀ s part, same s → same (add s part)) (items : List α) {s : σ} (start : same s) :
    items.foldlM step s = (fun parts => parts.foldl add s) <$> items.mapM f := by
  induction items generalizing s with
  | nil => rfl
  | cons item rest ih =>
    rw [List.foldlM_cons, List.mapM_cons, adds s item start]
    cases f item with
    | error fault => rfl
    | ok part =>
      show rest.foldlM step (add s part) = _
      rw [ih (keeps s part start)]
      cases rest.mapM f <;> rfl

theorem mapM_eq_ok_iff {f : α → Except Fault β} {items : List α} {parts : List β} :
    items.mapM f = .ok parts ↔ List.Forall₂ (fun item part => f item = .ok part) items parts := by
  induction items generalizing parts with
  | nil => cases parts <;> simp [pure, Except.pure]
  | cons first rest ih =>
    rw [List.mapM_cons, List.forall₂_cons_left_iff]
    simp only [← ih]
    cases f first with
    | error fault => simp [bind, Except.bind]
    | ok part =>
      cases rest.mapM f with
      | error fault => simp [bind, Except.bind]
      | ok others => simp [bind, Except.bind, pure, Except.pure, eq_comm]

theorem forall₂_imp {R S : α → β → Prop} {items : List α} {parts : List β}
    (all : List.Forall₂ R items parts) (imp : ∀ item ∈ items, ∀ part, R item part → S item part) :
    List.Forall₂ S items parts := by
  induction all with
  | nil => exact .nil
  | cons first _ ih =>
    obtain ⟨here, others⟩ := List.forall_mem_cons.mp imp
    exact .cons (here _ first) (ih others)

/-- Parts that are lists of one item. -/
theorem flatten_mapM_singleton {γ : Type} (f : α → Except Fault β) (g : β → γ) (items : List α) :
    List.flatten <$> items.mapM (fun item => (fun part => [g part]) <$> f item) =
      List.map g <$> items.mapM f := by
  induction items with
  | nil => rfl
  | cons first rest ih =>
    rw [List.mapM_cons, List.mapM_cons]
    cases f first with
    | error fault => rfl
    | ok part =>
      generalize rest.mapM (fun item => (fun part => [g part]) <$> f item) = lists at ih ⊢
      generalize rest.mapM f = parts at ih ⊢
      cases lists <;> cases parts <;>
        simp_all [Functor.map, Except.map, bind, Except.bind, pure, Except.pure]

theorem isOk_congr {γ : Type} {f : α → γ} {g : β → γ} {first : Except Fault α}
    {second : Except Fault β} (same : f <$> first = g <$> second) :
    (∃ part, first = .ok part) ↔ ∃ part, second = .ok part := by
  cases first <;> cases second <;> simp_all [Functor.map, Except.map]

theorem isError_congr {γ : Type} {f : α → γ} {g : β → γ} {first : Except Fault α}
    {second : Except Fault β} (same : f <$> first = g <$> second) (fault : Fault) :
    first = .error fault ↔ second = .error fault := by
  cases first <;> cases second <;> simp_all [Functor.map, Except.map]

theorem map_eq_error_iff {γ : Type} {g : β → γ} {result : Except Fault β} {fault : Fault} :
    g <$> result = .error fault ↔ result = .error fault := by
  cases result <;> simp [Functor.map, Except.map]

/-! ## Methods -/

/-- The declaration of a field that code refers to. -/
def FieldUse.decl (use : FieldUse) : FieldDecl := ⟨use.name, use.type, use.isStatic, []⟩

namespace ClassDraft

/-- The classes are the same for the code of their methods. -/
structure Alike (c c' : ClassDraft) : Prop where
  simpleName : c.simpleName = c'.simpleName
  interface : c.isInterface = c'.isInterface
  style : c.style = c'.style

end ClassDraft

namespace MethodDecl

theorem signature_congr (decl : MethodDecl) {c c' : ClassDraft} (alike : c.Alike c') :
    decl.signature c = decl.signature c' := by
  unfold signature
  rw [alike.simpleName, alike.interface]

theorem declare_congr (decl : MethodDecl) {c c' : ClassDraft} (alike : c.Alike c') :
    (fun _ => ()) <$> decl.declare c = (fun _ => ()) <$> decl.declare c' := by
  unfold declare ClassDraft.addStaticMethod ClassDraft.addConstructor
  rw [alike.simpleName, alike.interface]
  cases decl.kind with
  | member | abstract => rfl
  | static | constructor => cases c'.isInterface <;> rfl

/-- What a method is depends on the name, the kind and the style of its class alone. -/
theorem finished_congr (decl : MethodDecl) {c c' : ClassDraft} (alike : c.Alike c') :
    decl.finished c = decl.finished c' := by
  have declared := decl.declare_congr alike
  have context (m : MethodDraft) : c.context m [] = c'.context m [] := by
    simp [ClassDraft.context, alike.simpleName]
  unfold finished
  rw [decl.signature_congr alike, alike.style]
  simp only [context]
  cases first : decl.declare c with
  | error fault =>
    cases second : decl.declare c' with
    | error fault' =>
      rw [first, second] at declared
      cases declared
      rfl
    | ok found =>
      rw [first, second] at declared
      cases declared
  | ok found =>
    cases second : decl.declare c' with
    | error fault =>
      rw [first, second] at declared
      cases declared
    | ok found' => rfl

end MethodDecl

/-! ## Types -/

namespace ClassDraft

theorem addField_alike (c : ClassDraft) (name : String) (type : JavaType) (isStatic : Bool)
    (annotations : List AnnotationUse) : (c.addField name type isStatic annotations).2.Alike c := by
  obtain ⟨named, styled, -⟩ := TypeDecl.addField_frame c name type isStatic annotations
  exact ⟨named, isInterface_of_shape (addField_shape c name type isStatic annotations), styled⟩

theorem withMethod_alike (c : ClassDraft) (m : MethodDraft) : (c.withMethod m).Alike c :=
  ⟨c.sealHeader_simpleName, c.isInterface_sealHeader, c.sealHeader_style⟩

theorem Alike.trans {first second third : ClassDraft} (alike : first.Alike second)
    (other : second.Alike third) : first.Alike third :=
  ⟨alike.simpleName.trans other.simpleName, alike.interface.trans other.interface,
    alike.style.trans other.style⟩

theorem foldl_alike {step : ClassDraft → α → ClassDraft} (each : ∀ c item, (step c item).Alike c)
    (items : List α) (c : ClassDraft) : (items.foldl step c).Alike c := by
  induction items generalizing c with
  | nil => exact ⟨rfl, rfl, rfl⟩
  | cons item rest ih => exact (ih (step c item)).trans (each c item)

theorem useFields_alike (c : ClassDraft) (uses : List FieldUse) : (c.useFields uses).Alike c := by
  apply foldl_alike
  exact fun c use => c.addField_alike use.name use.type use.isStatic []

theorem take_alike (c : ClassDraft) (part : MethodDraft × List FieldUse) : (c.take part).Alike c :=
  (useFields_alike _ part.2).trans (c.withMethod_alike part.1)

theorem methods_foldl_take (c : ClassDraft) (parts : List (MethodDraft × List FieldUse)) :
    (parts.foldl take c).methods = c.methods ++ parts.map Prod.fst := by
  induction parts generalizing c with
  | nil => simp
  | cons part rest ih =>
    rw [List.foldl_cons, ih, take, methods_useFields]
    simp [withMethod]

theorem foldlM_annotate {c : ClassDraft} (unsealed : c.isSealed = false)
    (uses : List AnnotationUse) :
    uses.foldlM annotate c = .ok { c with annotations := c.annotations ++ uses } := by
  induction uses generalizing c with
  | nil =>
    rw [List.append_nil]
    rfl
  | cons use rest ih =>
    rw [List.foldlM_cons, annotate, change_of_unsealed unsealed]
    show rest.foldlM annotate _ = _
    rw [ih]
    · simp
    · exact unsealed

/-- One draft comes from another by declaring members, among them these fields. -/
def Adds (c : ClassDraft) (fields : List FieldDecl) (c' : ClassDraft) : Prop :=
  ∃ ops, c' = c.run ops ∧ ops.filterMap Op.field? = fields ∧ ∀ c, prelude c ops = []

theorem Adds.refl (c : ClassDraft) : c.Adds [] c := ⟨[], rfl, rfl, fun _ => rfl⟩

theorem Adds.trans {first second third : ClassDraft} {fields more : List FieldDecl}
    (adds : first.Adds fields second) (others : second.Adds more third) :
    first.Adds (fields ++ more) third := by
  obtain ⟨ops, rfl, rfl, writes⟩ := adds
  obtain ⟨ops', rfl, rfl, writes'⟩ := others
  refine ⟨ops ++ ops', (run_append ..).symm, List.filterMap_append, fun c => ?_⟩
  cases ops with
  | nil => exact writes' c
  | cons op rest =>
    have first := writes c
    simp only [prelude, List.cons_append, List.takeWhile_cons] at first ⊢
    split at first
    · cases first
    · next writes => rw [if_neg writes]

theorem adds_foldl {step : ClassDraft → α → ClassDraft} {fields : α → List FieldDecl}
    (each : ∀ (c : ClassDraft) item, c.Adds (fields item) (step c item)) (items : List α) (c : ClassDraft) :
    c.Adds (items.flatMap fields) (items.foldl step c) := by
  induction items generalizing c with
  | nil => exact .refl c
  | cons item rest ih => exact (each c item).trans (ih (step c item))

theorem adds_addField (c : ClassDraft) (field : FieldDecl) :
    c.Adds [field] (c.addField field.name field.type field.isStatic field.annotations).2 :=
  ⟨[.addField field], rfl, rfl, fun _ => rfl⟩

/-- Any method can be declared and then be given its text. -/
theorem adds_withMethod (c : ClassDraft) (m : MethodDraft) : c.Adds [] (c.withMethod m) := by
  refine ⟨[.addAbstractMethod "" [] .void [], .changeMethod c.methods.length fun _ => m], ?_, rfl,
    fun _ => rfl⟩
  have declared : c.attempt (.addAbstractMethod "" [] .void []) =
      c.withMethod (.ofSignature ⟨"", .abstract, .void, [], []⟩ c.style.indent) := by
    rw [attempt_of_ok rfl]
    exact congrArg Prod.snd (pushMethod_eq c _)
  have changed (other : MethodDraft) : (c.withMethod other).attempt
      (.changeMethod c.methods.length fun _ => m) = c.withMethod m := by
    rw [← withMethod_modify c other fun _ => m]
    exact attempt_of_ok (if_pos (by simp [withMethod]))
  show _ = (c.attempt _).attempt _
  rw [declared, changed]

theorem adds_take (c : ClassDraft) (part : MethodDraft × List FieldUse) :
    c.Adds (part.2.map FieldUse.decl) (c.take part) := by
  have used : (c.withMethod part.1).Adds (part.2.flatMap fun use => [use.decl]) (c.take part) :=
    adds_foldl (fun c use => c.adds_addField use.decl) part.2 (c.withMethod part.1)
  rw [← List.map_eq_flatMap] at used
  exact (c.adds_withMethod part.1).trans used

/-- The text of a draft that members were added to: the header, the fields and the methods. -/
theorem Adds.text {start c : ClassDraft} {fields : List FieldDecl} (adds : start.Adds fields c)
    (new : start.IsNew) (whole : ∀ m ∈ c.methods, WholeLines m.out.text) :
    c.text = unlines start.headerLines ++
      "\n".intercalate ((if (firstDeclared fields).isEmpty then [] else
          [shift start.style.indent (unlines ((firstDeclared fields).flatMap FieldDecl.lines))]) ++
        c.methods.map fun m => shift start.style.indent m.out.text) ++ "\x7d\n" := by
  obtain ⟨ops, run, rfl, writes⟩ := adds
  have reached := reached_run new ops
  rw [← run] at reached
  have text := reached.text whole
  rwa [writes start, start.headerOf_nil] at text

end ClassDraft

theorem UnitDraft.newType_annotations (u : UnitDraft) (name : String) (shape : Shape)
    (interfaces : List JavaType) : (u.newType name shape interfaces).annotations = [] := by
  simp [newType, ClassDraft.new]

@[simp]
theorem UnitDraft.newType_simpleName (u : UnitDraft) (name : String) (shape : Shape)
    (interfaces : List JavaType) : (u.newType name shape interfaces).simpleName = (splitName name).2 := by
  simp [newType, ClassDraft.new]

@[simp]
theorem UnitDraft.newType_style (u : UnitDraft) (name : String) (shape : Shape)
    (interfaces : List JavaType) : (u.newType name shape interfaces).style = u.style := by
  simp [newType, ClassDraft.new]

namespace TypeDecl

variable (decl : TypeDecl) (u : UnitDraft)

/-- The type with nothing but one method. -/
def only (method : MethodDecl) : TypeDecl :=
  { decl with annotations := [], fields := [], methods := [method] }

/-- The draft of the type in front of its fields. -/
def begun : ClassDraft :=
  { u.newType decl.name decl.shape decl.interfaces with annotations := decl.annotations }

theorem begun_alike :
    (decl.begun u).Alike (u.newType decl.name decl.shape decl.interfaces) := by
  unfold begun
  generalize u.newType decl.name decl.shape decl.interfaces = c
  exact ⟨rfl, rfl, rfl⟩

theorem methods_addFields (c : ClassDraft) : (decl.addFields c).methods = c.methods := by
  unfold addFields
  generalize decl.fields = fields
  induction fields generalizing c with
  | nil => rfl
  | cons field rest ih =>
    rw [List.foldl_cons, ih]
    exact (addField_frame c field.name field.type field.isStatic field.annotations).2.2

/-- A type is put together from methods that are compiled on their own. -/
theorem draft_eq_mapM : decl.draft u =
    (fun parts => parts.foldl ClassDraft.take (decl.addFields (decl.begun u))) <$>
      decl.methods.mapM (·.finished (u.newType decl.name decl.shape decl.interfaces)) := by
  have header := ClassDraft.foldlM_annotate (u.newType_unsealed decl.name decl.shape decl.interfaces)
    decl.annotations
  rw [draft_eq, header]
  rw [u.newType_annotations, List.nil_append]
  show decl.methods.foldlM _ (decl.addFields (decl.begun u)) = _
  have start : (decl.addFields (decl.begun u)).Alike
      (u.newType decl.name decl.shape decl.interfaces) := by
    refine ClassDraft.Alike.trans ?_ (decl.begun_alike u)
    apply ClassDraft.foldl_alike
    exact fun c field => c.addField_alike field.name field.type field.isStatic field.annotations
  refine foldlM_eq_mapM (fun c => c.Alike (u.newType decl.name decl.shape decl.interfaces))
    (fun c method alike => ?_) (fun c part alike => ?_) decl.methods start
  · rw [method.addTo_eq, method.finished_congr alike]
  · exact (c.take_alike part).trans alike

theorem methods_draft : ClassDraft.methods <$> decl.draft u =
    List.map Prod.fst <$>
      decl.methods.mapM (·.finished (u.newType decl.name decl.shape decl.interfaces)) := by
  have none : (decl.addFields (decl.begun u)).methods = [] := by
    simp [methods_addFields, begun, UnitDraft.newType, ClassDraft.new]
  rw [draft_eq_mapM, ← comp_map]
  congr 1
  funext parts
  simp [ClassDraft.methods_foldl_take, none]

/-- The methods of a compiled type, each as it is on its own. -/
theorem parts_of_draft {u : UnitDraft} {c : ClassDraft} (ok : decl.draft u = .ok c) :
    ∃ parts, List.Forall₂ (fun (method : MethodDecl) part => method.finished
        (u.newType decl.name decl.shape decl.interfaces) = .ok part) decl.methods parts ∧
      c.methods = parts.map Prod.fst := by
  have methods := decl.methods_draft u
  rw [ok] at methods
  obtain ⟨parts, all, held⟩ := map_eq_ok_iff.mp methods.symm
  exact ⟨parts, mapM_eq_ok_iff.mp all, held.symm⟩

/-- Each method of the compiled type is finished with code that `P` holds of, in the order of the
    declarations. -/
def Bodies (c : ClassDraft) (P : MethodDecl → MethodDraft → Option Code → Prop) : Prop :=
  decl.draft u = .ok c ∧ List.Forall₂ (fun method m => ∃ body uses, method.Finished
    (u.newType decl.name decl.shape decl.interfaces) m body uses ∧ P method m body) decl.methods c.methods

theorem bodies_of_draft {u : UnitDraft} {c : ClassDraft} (ok : decl.draft u = .ok c)
    {P : MethodDecl → MethodDraft → Option Code → Prop}
    (each : ∀ method ∈ decl.methods, ∀ m body uses, method.Finished
      (u.newType decl.name decl.shape decl.interfaces) m body uses → P method m body) :
    decl.Bodies u c P := by
  obtain ⟨parts, all, methods⟩ := decl.parts_of_draft ok
  refine ⟨ok, ?_⟩
  rw [methods, List.forall₂_map_right_iff]
  refine forall₂_imp all fun method declared part done => ?_
  obtain ⟨body, finished⟩ := MethodDecl.finished_ok done
  exact ⟨body, part.2, finished, each method declared _ _ _ finished⟩

theorem draft_of_parts {u : UnitDraft} {parts : List (MethodDraft × List FieldUse)}
    (all : List.Forall₂ (fun (method : MethodDecl) part => method.finished
        (u.newType decl.name decl.shape decl.interfaces) = .ok part) decl.methods parts) :
    ∃ c, decl.draft u = .ok c ∧ c.methods = parts.map Prod.fst := by
  have methods := decl.methods_draft u
  rw [mapM_eq_ok_iff.mpr all] at methods
  exact map_eq_ok_iff.mp methods

theorem methods_only (method : MethodDecl) : ClassDraft.methods <$> (decl.only method).draft u =
    (fun part => [part.1]) <$>
      method.finished (u.newType decl.name decl.shape decl.interfaces) := by
  rw [methods_draft]
  show List.map Prod.fst <$> [method].mapM (fun method => method.finished
    (u.newType decl.name decl.shape decl.interfaces)) = _
  rw [List.mapM_cons, List.mapM_nil]
  cases method.finished (u.newType decl.name decl.shape decl.interfaces) <;> rfl

/-- A type fails with the first of its methods that fails on its own. -/
theorem draft_eq_error_iff {u : UnitDraft} {fault : Fault} : decl.draft u = .error fault ↔
    ∃ before method after, decl.methods = before ++ method :: after ∧
      (∀ earlier ∈ before, ∃ c, (decl.only earlier).draft u = .ok c) ∧
      (decl.only method).draft u = .error fault := by
  simp only [isOk_congr (decl.methods_only u _), isError_congr (decl.methods_only u _)]
  rw [draft_eq_mapM, map_eq_error_iff, mapM_eq_error_iff]

theorem begun_isNew : (decl.begun u).IsNew := by
  constructor <;> simp [begun, UnitDraft.newType, ClassDraft.new]

theorem adds_addFields (c : ClassDraft) : c.Adds decl.fields (decl.addFields c) := by
  have fields : c.Adds (decl.fields.flatMap fun field => [field]) (decl.addFields c) :=
    ClassDraft.adds_foldl ClassDraft.adds_addField decl.fields c
  rwa [List.flatMap_singleton'] at fields

end TypeDecl

/-! ## Units -/

namespace CompilationUnit

variable (unit : CompilationUnit) (style : Style)

/-- The unit with nothing but one type. -/
def only (type : TypeDecl) : CompilationUnit := { unit with types := [type] }

/-- The draft of the unit in front of its types. -/
def begun : UnitDraft := { UnitDraft.new unit.sourceName style with package := unit.package }

theorem draft_congr (type : TypeDecl) {u u' : UnitDraft} (source : u.sourceName = u'.sourceName)
    (package : u.package = u'.package) (styled : u.style = u'.style) :
    type.draft u = type.draft u' := by
  have new (name : String) (shape : Shape) (interfaces : List JavaType) :
      u.newType name shape interfaces = u'.newType name shape interfaces := by
    unfold UnitDraft.newType
    rw [source, package, styled]
  rw [type.draft_eq, type.draft_eq, new]

/-- A unit is put together from types that are compiled on their own. -/
theorem compile_eq_mapM : unit.compile style =
    List.map (fun c : ClassDraft => ⟨c.path, c.text⟩) <$>
      unit.types.mapM (·.draft (unit.begun style)) := by
  have pushed (classes : List ClassDraft) (u : UnitDraft) :
      classes.foldl UnitDraft.push u = { u with classes := u.classes ++ classes } := by
    induction classes generalizing u with
    | nil => simp
    | cons c rest ih => simp [ih, UnitDraft.push]
  have drafted : unit.draft style = (fun classes => classes.foldl UnitDraft.push (unit.begun style)) <$>
      unit.types.mapM (·.draft (unit.begun style)) := by
    have start : unit.Starts style (unit.begun style) := ⟨rfl, rfl, rfl⟩
    have keeps (u : UnitDraft) (c : ClassDraft) (starts : unit.Starts style u) :
        unit.Starts style (u.push c) := starts
    refine foldlM_eq_mapM (unit.Starts style) (fun u type starts => ?_) keeps unit.types start
    obtain ⟨source, package, styled⟩ := starts
    rw [show type.draft u = type.draft (unit.begun style) from
      draft_congr type source package styled]
    cases type.draft (unit.begun style) <;> rfl
  unfold compile
  rw [drafted]
  cases unit.types.mapM (·.draft (unit.begun style)) with
  | error fault => rfl
  | ok classes =>
    show Except.ok (UnitDraft.artifacts (classes.foldl UnitDraft.push (unit.begun style))) = _
    rw [pushed]
    rfl

/-- What holds of the code that each method of a unit is finished with holds of the methods of the
    compiled unit. -/
theorem bodies_of_compile {unit : CompilationUnit} {style : Style} {artifacts : List Artifact}
    (ok : unit.compile style = .ok artifacts) {P : MethodDecl → MethodDraft → Option Code → Prop}
    (each : ∀ type ∈ unit.types, ∀ method ∈ type.methods, ∀ m body uses, method.Finished
      ((unit.begun style).newType type.name type.shape type.interfaces) m body uses → P method m body) :
    ∃ classes : List ClassDraft, artifacts = classes.map (fun c => ⟨c.path, c.text⟩) ∧
      List.Forall₂ (fun type c => type.Bodies (unit.begun style) c P) unit.types classes := by
  rw [compile_eq_mapM] at ok
  obtain ⟨classes, drafted, rfl⟩ := map_eq_ok_iff.mp ok
  exact ⟨classes, rfl, forall₂_imp (mapM_eq_ok_iff.mp drafted) fun type declared _ ok =>
    type.bodies_of_draft ok (each type declared)⟩

theorem compile_only (type : TypeDecl) : (unit.only type).compile style =
    (fun c : ClassDraft => [⟨c.path, c.text⟩]) <$> type.draft (unit.begun style) := by
  rw [compile_eq_mapM]
  show _ <$> [type].mapM (fun type => type.draft (unit.begun style)) = _
  rw [List.mapM_cons, List.mapM_nil]
  cases type.draft (unit.begun style) <;> rfl

/-- Every method of a compiled type is written in whole lines. -/
theorem wholeLines_of_draft {type : TypeDecl} {u : UnitDraft} {c : ClassDraft}
    (ok : type.draft u = .ok c) : ∀ m ∈ c.methods, WholeLines m.out.text := by
  have ended (b : Text.Buffer) (line : String) : WholeLines (b.putLine line).text :=
    .inr (by simp [Text.Buffer.putLine, Text.Buffer.push])
  have lines {method : MethodDecl} {c : ClassDraft} {part : MethodDraft × List FieldUse}
      (done : method.finished c = .ok part) : WholeLines part.1.out.text := by
    obtain ⟨body, finished⟩ := MethodDecl.finished_ok done
    obtain ⟨m, uses⟩ := part
    cases finished with
    | sealed signature out =>
      rw [out]
      exact ended _ _
    | closed signature ends out =>
      rw [out, List.foldl_cons, List.foldl_append]
      exact ended _ _
  obtain ⟨parts, all, methods⟩ := type.parts_of_draft ok
  obtain ⟨whole, -⟩ := (List.forall₂_and_left _ _).mp (all.flip.imp fun _ _ done => ⟨lines done, done⟩)
  rw [methods]
  exact List.forall_mem_map.mpr whole

/-- The text of a compiled type has the texts of its methods, in order and one step deeper. -/
theorem text_of_draft {type : TypeDecl} {u : UnitDraft} {style : Style} (styled : u.style = style)
    {c : ClassDraft} (ok : type.draft u = .ok c) :
    ∃ (header : String) (fields : Option String), c.text = header ++ "\n".intercalate
      (fields.toList ++ c.methods.map fun m => shift style.indent m.out.text) ++ "\x7d\n" := by
  have whole := wholeLines_of_draft ok
  rw [type.draft_eq_mapM] at ok
  obtain ⟨parts, -, rfl⟩ := map_eq_ok_iff.mp ok
  have adds := (type.adds_addFields (type.begun u)).trans
    (ClassDraft.adds_foldl ClassDraft.adds_take parts _)
  have text := adds.text (type.begun_isNew u) whole
  have indent : (type.begun u).style = style := by
    simp [TypeDecl.begun, styled]
  rw [indent] at text
  split at text
  · exact ⟨_, none, text⟩
  · exact ⟨_, some _, text⟩

theorem compile_only_isOk (type : TypeDecl) :
    (∃ artifacts, (unit.only type).compile style = .ok artifacts) ↔
      ∃ c, type.draft (unit.begun style) = .ok c := by
  rw [compile_only]
  cases type.draft (unit.begun style) <;> simp [Functor.map, Except.map]

/-- Types and methods do not interfere: a unit is put together from types, and a type from methods,
    that are the same when they are compiled alone. The first that cannot be compiled alone is the
    one that fails. -/
theorem members_do_not_interfere :
    unit.compile style =
        List.flatten <$> unit.types.mapM (fun type => (unit.only type).compile style) ∧
      (∀ type : TypeDecl,
        ClassDraft.methods <$> type.draft (unit.begun style) =
            List.flatten <$> type.methods.mapM fun method =>
              ClassDraft.methods <$> (type.only method).draft (unit.begun style)) ∧
      (∀ (type : TypeDecl) (c : ClassDraft), type.draft (unit.begun style) = .ok c →
        (unit.only type).compile style = .ok [⟨c.path, c.text⟩] ∧
          c.methods.length = type.methods.length ∧
          (∃ (header : String) (fields : Option String), c.text = header ++ "\n".intercalate
            (fields.toList ++ c.methods.map fun m => shift style.indent m.out.text) ++ "\x7d\n") ∧
          ∀ methods, methods.Perm type.methods → ∃ c', ({ type with methods := methods } :
            TypeDecl).draft (unit.begun style) = .ok c' ∧ c'.methods.Perm c.methods) ∧
      ∀ fault, unit.compile style = .error fault ↔
        ∃ earlier type later before method after,
          unit.types = earlier ++ type :: later ∧ type.methods = before ++ method :: after ∧
          (∀ other ∈ earlier, ∃ artifacts, (unit.only other).compile style = .ok artifacts) ∧
          (∀ other ∈ before, ∃ artifacts,
            (unit.only (type.only other)).compile style = .ok artifacts) ∧
          (unit.only (type.only method)).compile style = .error fault := by
  have styled : (unit.begun style).style = style := rfl
  refine ⟨?_, fun type => ?_, fun type c ok => ⟨?_, ?_, ?_, ?_⟩, fun fault => ?_⟩
  · simp only [compile_only]
    rw [flatten_mapM_singleton, compile_eq_mapM]
  · simp only [TypeDecl.methods_only]
    rw [flatten_mapM_singleton, TypeDecl.methods_draft]
  · rw [compile_only, ok]
    rfl
  · obtain ⟨parts, all, methods⟩ := type.parts_of_draft ok
    rw [methods, List.length_map, all.length_eq]
  · exact text_of_draft styled ok
  · intro methods perm
    obtain ⟨parts, all, held⟩ := type.parts_of_draft ok
    obtain ⟨parts', all', perm'⟩ := List.perm_comp_forall₂ perm all
    obtain ⟨c', ok', held'⟩ := ({ type with methods := methods } : TypeDecl).draft_of_parts all'
    exact ⟨c', ok', by rw [held, held']; exact perm'.map Prod.fst⟩
  · rw [compile_eq_mapM, map_eq_error_iff, mapM_eq_error_iff]
    simp only [compile_only_isOk]
    simp only [compile_only, map_eq_error_iff]
    constructor
    · rintro ⟨earlier, type, later, types, fine, failed⟩
      obtain ⟨before, method, after, methods, first, fails⟩ := type.draft_eq_error_iff.mp failed
      exact ⟨earlier, type, later, before, method, after, types, methods, fine, first, fails⟩
    · rintro ⟨earlier, type, later, before, method, after, types, methods, fine, first, fails⟩
      exact ⟨earlier, type, later, types, fine,
        type.draft_eq_error_iff.mpr ⟨before, method, after, methods, first, fails⟩⟩

/-- A class of two methods. -/
def pair : TypeDecl :=
  let f : MethodDecl := ⟨"f", .member, [], .void, [], [], none⟩
  let g : MethodDecl := ⟨"g", .static, [⟨"x", .int⟩], .int, [], [], some (.node (.var "x") .int)⟩
  ⟨"A", .classType none false, [], [], [], [f, g]⟩

/-- A unit with the class, and another class whose second method leaves a loop that is not there. -/
def pairAndFault : CompilationUnit :=
  let f : MethodDecl := ⟨"f", .member, [], .void, [], [], none⟩
  let stray : MethodDecl := ⟨"g", .member, [], .void, [], [], some (.node (.jump .break) .void)⟩
  ⟨"a.mirah", none, [pair, ⟨"B", .classType none false, [], [], [], [f, stray]⟩]⟩

theorem pairAndFault_members :
    (∃ c c', pair.draft (pairAndFault.begun {}) = .ok c ∧
      ({ pair with methods := pair.methods.reverse } : TypeDecl).draft (pairAndFault.begun {}) =
        .ok c' ∧ c'.methods.Perm c.methods) ∧
      pairAndFault.compile {} = .error (.outsideLoop .break) := by
  have ⟨_, _, texts, faults⟩ := members_do_not_interfere pairAndFault {}
  constructor
  · cases ok : pair.draft (pairAndFault.begun {}) with
    | error fault =>
      have accepted : (pair.draft (pairAndFault.begun {})).toOption.isSome = true := by decide +kernel
      rw [ok] at accepted
      cases accepted
    | ok c =>
      obtain ⟨-, -, -, permuted⟩ := texts pair c ok
      obtain ⟨c', ok', perm⟩ := permuted _ (List.reverse_perm _)
      exact ⟨c, c', rfl, ok', perm⟩
  · refine (faults _).mpr ⟨[pair], _, [], [_], _, [], rfl, rfl, ?_, ?_, ?_⟩
    · exact List.forall_mem_singleton.mpr ⟨_, rfl⟩
    · exact List.forall_mem_singleton.mpr ⟨_, rfl⟩
    · decide +kernel

end CompilationUnit

end JavaBackend
