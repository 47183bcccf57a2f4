import JavaBackend.Proofs.Lowering.Appended
import JavaBackend.Proofs.Unit.Acceptance

/-!
# What a compiled unit is written from

A compiled type is written step by step: its header is changed, fields are declared, and each method
adds its finished text and declares the fields that its code refers to. `TypeDecl.draft_keeps` is the
matching proof principle: what holds of a new draft and is kept by each step holds of the draft of
every compiled type.
-/

namespace JavaBackend

open Java (Stmt Code Piece)
open Lower

variable {α σ : Type}

/-- What each step of a fold keeps, the fold keeps. -/
theorem foldlM_keeps {step : σ → α → Except Fault σ} {I : σ → Prop} (items : List α)
    (keeps : ∀ item ∈ items, ∀ s s', I s → step s item = .ok s' → I s') {s s' : σ} (start : I s)
    (ok : items.foldlM step s = .ok s') : I s' := by
  induction items generalizing s with
  | nil =>
    cases ok
    exact start
  | cons item rest ih =>
    rw [List.foldlM_cons] at ok
    cases first : step s item with
    | error fault =>
      rw [first] at ok
      cases ok
    | ok next =>
      rw [first] at ok
      exact ih (fun item mem => keeps item (List.mem_cons_of_mem _ mem))
        (keeps item List.mem_cons_self s next start first) ok

theorem map_eq_ok_iff {g : α → σ} {result : Except Fault α} {c : σ} :
    g <$> result = .ok c ↔ ∃ part, result = .ok part ∧ g part = c := by
  cases result <;> simp [Functor.map, Except.map]

/-! ## Methods -/

namespace ClassDraft

theorem addField_modifyMethod (c : ClassDraft) (index : Nat) (f : MethodDraft → MethodDraft)
    (name : String) (type : JavaType) (isStatic : Bool) (annotations : List AnnotationUse) :
    ((c.modifyMethod index f).addField name type isStatic annotations).2 =
      (c.addField name type isStatic annotations).2.modifyMethod index f := by
  unfold addField sealHeader
  show (if c.hasField name then _ else _ : Bool × ClassDraft).2 =
    (if c.hasField name then _ else _ : Bool × ClassDraft).2.modifyMethod index f
  split
  · rfl
  · show ClassDraft.mk _ _ _ _ _ _ _ _ _ _ _ = _
    cases sealed : c.isSealed <;> simp [modifyMethod, sealed, headerLines, heading]

theorem useFields_modifyMethod (c : ClassDraft) (index : Nat) (f : MethodDraft → MethodDraft)
    (uses : List FieldUse) :
    (c.modifyMethod index f).useFields uses = (c.useFields uses).modifyMethod index f := by
  unfold useFields
  induction uses generalizing c with
  | nil => rfl
  | cons use rest ih => rw [List.foldl_cons, List.foldl_cons, addField_modifyMethod, ih]

@[simp]
theorem sealHeader_simpleName (c : ClassDraft) : c.sealHeader.simpleName = c.simpleName := by
  unfold sealHeader
  split <;> rfl

@[simp]
theorem sealHeader_style (c : ClassDraft) : c.sealHeader.style = c.style := by
  unfold sealHeader
  split <;> rfl

/-- A class with one more method, behind the others. -/
def withMethod (c : ClassDraft) (m : MethodDraft) : ClassDraft :=
  { c.sealHeader with methods := c.methods ++ [m] }

theorem withMethod_modify (c : ClassDraft) (m : MethodDraft) (f : MethodDraft → MethodDraft) :
    (c.withMethod m).modifyMethod c.methods.length f = c.withMethod (f m) := by
  have last : ∀ methods : List MethodDraft,
      (methods ++ [m]).modify methods.length f = methods ++ [f m] := by
    intro methods
    induction methods with
    | nil => rfl
    | cons first rest ih => simp [List.modify_succ_cons, ih]
  simp [withMethod, modifyMethod, last]

theorem withMethod_set (c : ClassDraft) (m m' : MethodDraft) :
    (c.withMethod m).setMethod c.methods.length m' = c.withMethod m' := by
  simp [withMethod, setMethod]

theorem withMethod_found (c : ClassDraft) (m : MethodDraft) :
    (c.withMethod m).methods[c.methods.length]? = some m := by
  simp [withMethod]

/-- The class with one more method, and the fields that its code refers to. -/
def take (c : ClassDraft) (part : MethodDraft × List FieldUse) : ClassDraft :=
  (c.withMethod part.1).useFields part.2

theorem pushMethod_eq (c : ClassDraft) (signature : Signature) :
    c.pushMethod signature =
      (c.methods.length, c.withMethod (.ofSignature signature c.style.indent)) := by
  simp [pushMethod, withMethod, methods_sealHeader]

end ClassDraft

theorem Signature.source_eq (s : Signature) : ∃ rest, s.source = "public" ++ rest := by
  unfold Signature.source
  simp only [String.append_assoc]
  exact ⟨_, rfl⟩

theorem Signature.isEmpty_source (s : Signature) : s.source.isEmpty = false := by
  obtain ⟨rest, same⟩ := s.source_eq
  rw [Bool.eq_false_iff, ne_eq, String.isEmpty_iff, same, String.append_eq_empty_iff]
  exact fun empty => absurd empty.1 (by decide)

namespace MethodDraft

/-- A method without a body is complete with its first line. -/
theorem start_abstract {signature : Signature} (abstract : signature.isAbstract = true)
    (step : Nat) : (ofSignature signature step).start =
      ⟨signature, (Text.Buffer.ofStep step).putLine (signature.source ++ ";"),
        .ofParams signature.params, .sealed⟩ := by
  simp [start, ofSignature, abstract]

theorem start_concrete {signature : Signature} (concrete : signature.isAbstract = false)
    (step : Nat) : (ofSignature signature step).start =
      ⟨signature, layPiece (.ofStep step) (.opening signature.source),
        .ofParams signature.params, .opened⟩ := by
  simp [start, ofSignature, concrete, layPiece, signature.isEmpty_source]

end MethodDraft

namespace MethodDecl

/-- The signature of a declared method in its class. -/
def signature (decl : MethodDecl) (c : ClassDraft) : Signature :=
  match decl.kind with
  | .member =>
    ⟨decl.name, if c.isInterface then .abstract else .member, decl.returns, decl.params,
      decl.exceptions⟩
  | .static => ⟨decl.name, .static, decl.returns, decl.params, decl.exceptions⟩
  | .abstract => ⟨decl.name, .abstract, decl.returns, decl.params, decl.exceptions⟩
  | .constructor _ => ⟨c.simpleName, .constructor, .void, decl.params, decl.exceptions⟩

@[simp]
theorem params_signature (decl : MethodDecl) (c : ClassDraft) :
    (decl.signature c).params = decl.params := by
  unfold signature
  split <;> rfl

theorem declare_ok {decl : MethodDecl} {c : ClassDraft} {declared : Nat × ClassDraft}
    (ok : decl.declare c = .ok declared) : declared = c.pushMethod (decl.signature c) := by
  unfold declare at ok
  unfold signature
  cases kind : decl.kind with
  | member | abstract =>
    rw [kind] at ok
    cases ok
    rfl
  | static =>
    rw [kind] at ok
    simp only [ClassDraft.addStaticMethod] at ok
    split at ok <;> cases ok
    rfl
  | constructor delegate =>
    rw [kind] at ok
    simp only [ClassDraft.addConstructor] at ok
    split at ok <;> cases ok
    rfl

/-- The text of a finished method, the code that it is laid out from, which is what the run of its
    lowering ends with, and the fields that the code refers to. -/
inductive Finished (decl : MethodDecl) (c : ClassDraft) :
    MethodDraft → Option Code → List FieldUse → Prop
  /-- A method without a body ends with its signature. -/
  | sealed {m : MethodDraft} (signature : m.signature = decl.signature c)
    (out : m.out = (Text.Buffer.ofStep c.style.indent).putLine (m.signature.source ++ ";"))
    (abstract : m.signature.isAbstract = true) : Finished decl c m none []
  | closed {m : MethodDraft} {code : Code} {p' : Progress}
    (signature : m.signature = decl.signature c)
    (ends : Ends decl.lower ⟨c.simpleName, m.signature.isStatic, m.signature.returns, []⟩
      ⟨.ofParams decl.params, []⟩ code () p')
    (out : m.out = (.opening m.signature.source :: (Stmt.codePieces code ++ [.closing ""])).foldl
      layPiece (.ofStep c.style.indent))
    (concrete : m.signature.isAbstract = false) : Finished decl c m (some code) p'.fields

/-- A method on its own, and the fields that its code refers to. -/
def finished (decl : MethodDecl) (c : ClassDraft) : Except Fault (MethodDraft × List FieldUse) := do
  let _ ← decl.declare c
  let m := (MethodDraft.ofSignature (decl.signature c) c.style.indent).start
  if m.stage == .sealed then
    return (m, [])
  let run := decl.lower (c.context m []) ⟨m.scope, []⟩
  run.outcome.toExcept
  let m : MethodDraft := { m with scope := run.progress.scope }
  return ((m.lay run.outcome.pieces).stop, run.progress.fields)

/-- A class takes a method as it is on its own. -/
theorem addTo_eq (decl : MethodDecl) (c : ClassDraft) : decl.addTo c = c.take <$> decl.finished c := by
  unfold addTo finished
  cases declared : decl.declare c with
  | error fault => rfl
  | ok found =>
    rw [declare_ok declared, ClassDraft.pushMethod_eq]
    simp only [bind, Except.bind, ClassDraft.withMethod_modify, ClassDraft.withMethod_found]
    simp only [Option.any_some]
    generalize (MethodDraft.ofSignature (decl.signature c) c.style.indent).start = m
    split
    · rfl
    · have same : (c.withMethod m).context m [] = c.context m [] := by
        simp [ClassDraft.context, ClassDraft.withMethod]
      rw [ClassDraft.lower_of_found (c.withMethod_found m), same]
      generalize decl.lower (c.context m []) ⟨m.scope, []⟩ = run
      simp only [ClassDraft.withMethod_set, ← ClassDraft.useFields_modifyMethod,
        ClassDraft.withMethod_modify]
      cases run.outcome.toExcept <;> rfl

/-- What a method is on its own is a finished method, with the fields that it uses. -/
theorem finished_ok {decl : MethodDecl} {c : ClassDraft} {part : MethodDraft × List FieldUse}
    (ok : decl.finished c = .ok part) : ∃ body, decl.Finished c part.1 body part.2 := by
  unfold finished at ok
  cases declared : decl.declare c with
  | error fault =>
    rw [declared] at ok
    cases ok
  | ok found =>
    rw [declared] at ok
    cases abstract : (decl.signature c).isAbstract with
    | true =>
      rw [MethodDraft.start_abstract abstract] at ok
      cases ok
      exact ⟨none, .sealed rfl rfl abstract⟩
    | false =>
      rw [MethodDraft.start_concrete abstract, decl.params_signature] at ok
      simp only [bind, Except.bind, ClassDraft.context] at ok
      cases run : decl.lower ⟨c.simpleName, (decl.signature c).isStatic, (decl.signature c).returns, []⟩
          ⟨.ofParams decl.params, []⟩ with
      | mk outcome p' =>
        rw [run] at ok
        cases outcome with
        | failed written fault => cases ok
        | done code result =>
          cases ok
          exact ⟨some code, .closed rfl run (by simp [MethodDraft.lay, MethodDraft.write,
            MethodDraft.stop, layPiece, Thunk.get, Outcome.pieces]) abstract⟩

/-- A class takes a method with its finished text, and the fields that it refers to. -/
theorem addTo_ok {decl : MethodDecl} {c c' : ClassDraft} (ok : decl.addTo c = .ok c') :
    ∃ m body uses, c' = (c.withMethod m).useFields uses ∧ decl.Finished c m body uses := by
  rw [addTo_eq] at ok
  obtain ⟨part, done, rfl⟩ := map_eq_ok_iff.mp ok
  obtain ⟨body, finished⟩ := finished_ok done
  exact ⟨part.1, body, part.2, rfl, finished⟩

end MethodDecl

/-! ## Types -/

namespace TypeDecl

/-- The shape of a declared type: a class without another superclass is below the root class. -/
def shape (decl : TypeDecl) : Shape :=
  match decl.kind with
  | .classType superclass isAbstract => .classType (superclass.getD .object) isAbstract
  | .interface => .interface

/-- What the steps in which a declared type is written keep. -/
structure Keeps (decl : TypeDecl) (I : ClassDraft → Prop) : Prop where
  annotate : ∀ use ∈ decl.annotations, ∀ c, I c → I { c with annotations := c.annotations ++ [use] }
  addField : ∀ field ∈ decl.fields, ∀ c, I c →
    I (c.addField field.name field.type field.isStatic field.annotations).2
  addMethod : ∀ method ∈ decl.methods, ∀ c m body uses, I c → method.Finished c m body uses →
    I ((c.withMethod m).useFields uses)

/-- The fields of a declared type, on a draft. -/
def addFields (decl : TypeDecl) (c : ClassDraft) : ClassDraft :=
  decl.fields.foldl
    (fun c field => (c.addField field.name field.type field.isStatic field.annotations).2) c

theorem setAbstract_newClass (u : UnitDraft) (name : String) (superclass : Option JavaType)
    (interfaces : List JavaType) (isAbstract : Bool) :
    (u.newClass name superclass interfaces).setAbstract isAbstract =
      .ok (u.newType name (.classType (superclass.getD .object) isAbstract) interfaces) := by
  unfold UnitDraft.newClass ClassDraft.setAbstract
  rw [ClassDraft.change_of_unsealed (u.newType_unsealed _ _ _)]
  simp only [u.newType_shape]
  simp [UnitDraft.newType, ClassDraft.new]

theorem draft_eq (decl : TypeDecl) (u : UnitDraft) :
    decl.draft u = (do
      let c ← decl.annotations.foldlM ClassDraft.annotate
        (u.newType decl.name decl.shape decl.interfaces)
      decl.methods.foldlM (fun c method => method.addTo c) (decl.addFields c)) := by
  unfold draft shape
  cases decl.kind with
  | interface => rfl
  | classType superclass isAbstract =>
    simp only [setAbstract_newClass]
    rfl

/-- What holds of a new draft and is kept by each step holds of the draft of a compiled type. -/
theorem draft_keeps {decl : TypeDecl} {I : ClassDraft → Prop} (keeps : decl.Keeps I) {u : UnitDraft}
    (start : I (u.newType decl.name decl.shape decl.interfaces)) {c : ClassDraft}
    (ok : decl.draft u = .ok c) : I c := by
  rw [draft_eq] at ok
  cases header : decl.annotations.foldlM ClassDraft.annotate
      (u.newType decl.name decl.shape decl.interfaces) with
  | error fault =>
    rw [header] at ok
    cases ok
  | ok begun =>
    rw [header] at ok
    have annotated : I begun := by
      refine foldlM_keeps decl.annotations (fun use mem c c' holds ok => ?_) start header
      unfold ClassDraft.annotate ClassDraft.change at ok
      split at ok <;> cases ok
      exact keeps.annotate use mem c holds
    have declared : I (decl.addFields begun) :=
      List.foldlRecOn decl.fields _ annotated fun c holds field mem => keeps.addField field mem c holds
    refine foldlM_keeps decl.methods (fun method mem c c' holds ok => ?_) declared ok
    obtain ⟨m, body, uses, rfl, finished⟩ := MethodDecl.addTo_ok ok
    exact keeps.addMethod method mem c m body uses holds finished

/-- Fields leave the name, the style and the methods of a class as they are. -/
theorem addField_frame (c : ClassDraft) (name : String) (type : JavaType) (isStatic : Bool)
    (annotations : List AnnotationUse) :
    let c' := (c.addField name type isStatic annotations).2
    c'.simpleName = c.simpleName ∧ c'.style = c.style ∧ c'.methods = c.methods := by
  unfold ClassDraft.addField
  split
  · exact ⟨rfl, rfl, rfl⟩
  · exact ⟨c.sealHeader_simpleName, c.sealHeader_style, c.methods_sealHeader⟩

end TypeDecl

/-! ## Units -/

namespace CompilationUnit

/-- What a unit gives to the drafts of its types. -/
def Starts (unit : CompilationUnit) (style : Style) (u : UnitDraft) : Prop :=
  u.sourceName = unit.sourceName ∧ u.package = unit.package ∧ u.style = style

/-- A class is drafted from one of the unit's types. -/
def Drafts (unit : CompilationUnit) (style : Style) (c : ClassDraft) : Prop :=
  ∃ type ∈ unit.types, ∃ u, unit.Starts style u ∧ type.draft u = .ok c

/-- The draft of a compiled unit has the drafts of its types. -/
theorem draft_ok {unit : CompilationUnit} {style : Style} {u : UnitDraft}
    (ok : unit.draft style = .ok u) : ∀ c ∈ u.classes, unit.Drafts style c := by
  let I (u : UnitDraft) : Prop := unit.Starts style u ∧ ∀ c ∈ u.classes, unit.Drafts style c
  have start : I { UnitDraft.new unit.sourceName style with package := unit.package } :=
    ⟨⟨rfl, rfl, rfl⟩, by simp [UnitDraft.new]⟩
  have kept : I u := by
    refine foldlM_keeps unit.types (fun type mem u u' holds ok => ?_) start ok
    obtain ⟨starts, classes⟩ := holds
    cases drafted : type.draft u with
    | error fault =>
      rw [drafted] at ok
      cases ok
    | ok c =>
      rw [drafted] at ok
      cases ok
      refine ⟨starts, List.forall_mem_append.mpr ⟨classes, ?_⟩⟩
      exact List.forall_mem_singleton.mpr ⟨type, mem, u, starts, drafted⟩
  exact kept.2

/-- The sources of a compiled unit are those of its draft. -/
theorem compile_ok {unit : CompilationUnit} {style : Style}
    {artifacts : List Artifact} (ok : unit.compile style = .ok artifacts) :
    ∃ u, unit.draft style = .ok u ∧ artifacts = u.artifacts := by
  unfold compile at ok
  cases drafted : unit.draft style with
  | error fault =>
    rw [drafted] at ok
    cases ok
  | ok u =>
    rw [drafted] at ok
    cases ok
    exact ⟨u, rfl, rfl⟩

end CompilationUnit

end JavaBackend
