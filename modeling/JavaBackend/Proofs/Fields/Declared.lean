import JavaBackend.Proofs.Fields.Backed
import JavaBackend.Proofs.Fields.Lowering
import JavaBackend.Proofs.Unit.Bodies
import JavaBackend.Proofs.Unit.Independence

/-!
# Declarations of the fields that code refers to

A compiled type declares each field that its code refers to once, in front of all methods, as it is
declared first: by the type itself, or else where the code of a method first refers to it
(`MethodDecl.Refers`). A field that is read for nothing is not referred to.
-/

namespace JavaBackend

open Java (Stmt Code Expr)
open Lower

variable {ctx : Context} {p p' : Progress} {code : Code}

/-! ## Methods -/

namespace MethodDecl

/-- Whether the value of the method's body is not returned. -/
def isVoid (decl : MethodDecl) : Bool := decl.returns.isVoid || decl.kind.isConstructor

/-- The fields that the code of a method refers to, in the order of compilation: the arguments for
    another constructor, and then the body, in front of which variables are declared. -/
def Refers (decl : MethodDecl) (uses : List FieldUse) : Prop :=
  let params : Set String := {name | name ∈ decl.params.map Param.name}
  let locals : Set String := {name | name ∈ decl.locals.map Param.name}
  let args := decl.delegateArgs.map (Visit.of true)
  ∃ first rest, uses = first ++ rest ∧ RefersAll decl.isVoid params args first ∧
    RefersAll decl.isVoid (learned params args ∪ locals)
      (decl.body.toList.map (Visit.of !decl.isVoid)) rest

end MethodDecl

/-- The arguments for another constructor are lowered for their values. -/
theorem Delegates.noted {decl : MethodDecl} (delegates : Delegates ctx p decl.kind code p')
    {known : Set String} (knows : p.KnowsOwn known) :
    Noted ctx.returns.isVoid known (decl.delegateArgs.map (.of true)) p p' := by
  unfold MethodDecl.delegateArgs
  generalize decl.kind = kind at delegates
  cases delegates with
  | none plain =>
    split
    · next delegate => exact absurd rfl (plain delegate)
    · exact .nil knows
  | call operands => exact operands.noted trivial knows

/-- The value of a body is returned, unless the method returns nothing. -/
theorem MethodDecl.noted_task {decl : MethodDecl} (void : ctx.returns.isVoid = decl.isVoid)
    (lowers : Lowers ctx p decl.task code .done p') {known : Set String} (knows : p.KnowsOwn known) :
    Noted decl.isVoid known (decl.body.toList.map (.of !decl.isVoid)) p p' := by
  unfold MethodDecl.task at lowers
  rw [← void]
  cases body : decl.body with
  | none =>
    rw [body] at lowers
    exact lowers.noted trivial knows
  | some tree =>
    simp only [body] at lowers
    split at lowers
    · next plain =>
      have unwanted : (!ctx.returns.isVoid) = false := by
        rw [void, show decl.isVoid = true from plain]
        rfl
      rw [unwanted]
      exact lowers.noted trivial knows
    · exact (lowers.noted trivial knows).of_ret

/-- Variables that are declared are known. -/
theorem Declares.knows {locals : List Param} (declares : Declares locals p code p')
    {known : Set String} (knows : p.KnowsOwn known) :
    p'.fields = p.fields ∧ p'.KnowsOwn (known ∪ {name | name ∈ locals.map Param.name}) := by
  have cons (param : Param) (rest : List Param) (known : Set String) :
      known ∪ {param.name} ∪ {name | name ∈ rest.map Param.name} =
        known ∪ {name | name ∈ (param :: rest).map Param.name} := by
    ext name
    simp only [Set.mem_union, Set.mem_singleton_iff, Set.mem_ofPred_eq, List.map_cons, List.mem_cons,
      or_assoc]
  induction declares generalizing known with
  | nil => exact ⟨rfl, by simpa using knows⟩
  | @known param rest _ _ _ isKnown _ ih =>
    rw [← cons]
    exact ih (knows.union fun _ => isKnown)
  | @new param rest p _ _ scope reserved _ ih =>
    rw [← cons]
    exact ih (knows.declare reserved)

theorem Scope.knowsOwn_ofParams (params : List Param) (fields : List FieldUse) :
    (Progress.mk (.ofParams params) fields).KnowsOwn {name | name ∈ params.map Param.name} := by
  intro name _
  rw [Scope.isLocal_ofParams]
  simp

/-- What the code of a method notes is what the method refers to. -/
theorem MethodDecl.refers_of_ends {decl : MethodDecl} (void : ctx.returns.isVoid = decl.isVoid)
    (ends : Ends decl.lower ctx ⟨.ofParams decl.params, []⟩ code () p') :
    ∃ uses, decl.Refers uses ∧
      p'.fields = (Progress.useFields ⟨.ofParams decl.params, []⟩ uses).fields := by
  obtain ⟨_, _, _, p₁, p₂, -, delegates, declares, body⟩ := decl.derives ends
  have args := delegates.noted (Scope.knowsOwn_ofParams _ _)
  rw [void] at args
  obtain ⟨unmoved, knows⟩ := declares.knows args.known
  have noted := MethodDecl.noted_task void body knows
  obtain ⟨first, refersFirst, fieldsFirst⟩ := args.fields
  obtain ⟨rest, refersRest, fieldsRest⟩ := noted.fields
  refine ⟨first ++ rest, ⟨first, rest, rfl, refersFirst, refersRest⟩, ?_⟩
  rw [fieldsRest, Progress.useFields_append]
  exact Progress.fields_useFields_congr (unmoved.trans fieldsFirst) rest

/-! ## References -/

section

variable {F : String → Prop}

theorem Declares.backed {locals : List Param} (declares : Declares locals p code p')
    (within : p'.Within F) : Backed F p code .done := by
  induction declares with
  | nil => exact ⟨.nil, .nil, within⟩
  | known _ _ ih => exact ih within
  | new _ _ ih =>
    obtain ⟨behind, -, before⟩ := ih within
    exact ⟨by simpa using behind, .nil, before⟩

theorem Delegates.backed {kind : MethodKind} (delegates : Delegates ctx p kind code p')
    (within : p'.Within F) : Backed F p code .done := by
  cases delegates with
  | none _ => exact ⟨.nil, .nil, within⟩
  | call operands =>
    obtain ⟨front, values, before⟩ := operands.backed within
    exact ⟨by simpa using ⟨front, values⟩, .nil, before⟩

end

/-- The code of a method refers to fields that it notes. -/
theorem MethodDecl.backed {decl : MethodDecl} (ends : Ends decl.lower ctx p code () p')
    {name : String} (refers : Word.field name ∈ Stmt.codeWords code) :
    ∃ use ∈ p'.fields, use.name = name := by
  obtain ⟨opening, declared, rest, p₁, p₂, rfl, delegates, declares, body⟩ := decl.derives ends
  have within : p'.Within fun name => ∃ use ∈ p'.fields, use.name = name :=
    fun use mem => ⟨use, mem, rfl⟩
  obtain ⟨last, -, middle⟩ := body.backed within
  obtain ⟨between, -, before⟩ := declares.backed middle
  obtain ⟨front, -, -⟩ := delegates.backed before
  have all : OverAll (Word.Backed fun name => ∃ use ∈ p'.fields, use.name = name)
      (Stmt.codeWords (opening ++ (declared ++ rest))) := by
    simpa using ⟨front, between, last⟩
  exact all _ refers

/-! ## Types -/

/-- A method as it is written: its text, its code if it has a body, and the fields that the code refers
    to, in the order of compilation. -/
structure CompiledMethod where
  text : String
  code : Option Code
  references : List FieldUse

/-- What a declared method of a class is compiled to. -/
structure MethodDecl.Compiles (decl : MethodDecl) (c : ClassDraft) (m : CompiledMethod) : Prop where
  text : m.text = ((methodPieces (decl.signature c) m.code).foldl layPiece (.ofStep c.style.indent)).text
  bodiless : m.code.isNone = (decl.signature c).isAbstract
  silent : m.code = none → m.references = []
  code : ∀ code ∈ m.code, decl.Refers m.references ∧
    ∃ p', Ends decl.lower ⟨c.simpleName, (decl.signature c).isStatic, (decl.signature c).returns, []⟩
      ⟨.ofParams decl.params, []⟩ code () p'

/-- Every field in the code of a method is one that it refers to. -/
def CompiledMethod.Backed (m : CompiledMethod) : Prop :=
  ∀ code ∈ m.code, ∀ name, Word.field name ∈ Stmt.codeWords code → ∃ use ∈ m.references, use.name = name

theorem Progress.mem_of_mem_useFields {uses : List FieldUse} {use : FieldUse}
    (mem : use ∈ (p.useFields uses).fields) : use ∈ p.fields ∨ use ∈ uses := by
  induction uses generalizing p with
  | nil => exact .inl mem
  | cons first rest ih =>
    rcases ih mem with before | later
    · unfold Progress.useField at before
      split at before
      · exact .inl before
      · rcases List.mem_append.mp before with before | here
        · exact .inl before
        · exact .inr (List.mem_cons.mpr (.inl (List.mem_singleton.mp here)))
    · exact .inr (List.mem_cons_of_mem _ later)

theorem MethodDecl.isVoid_signature (decl : MethodDecl) (c : ClassDraft) :
    (decl.signature c).returns.isVoid = decl.isVoid := by
  unfold MethodDecl.signature MethodDecl.isVoid
  cases decl.kind <;> simp [MethodKind.isConstructor, JavaType.isVoid]

/-- A finished method is compiled to what it refers to. -/
theorem MethodDecl.Finished.compiles {decl : MethodDecl} {c : ClassDraft} {m : MethodDraft}
    {body : Option Code} {uses : List FieldUse} (finished : decl.Finished c m body uses) :
    ∃ method : CompiledMethod, (method.Backed ∧ decl.Compiles c method) ∧ m.out.text = method.text ∧
      ∀ other : ClassDraft, other.useFields uses = other.useFields method.references := by
  cases finished with
  | sealed signature out abstract =>
    rw [signature] at out abstract
    refine ⟨⟨m.out.text, none, []⟩, ⟨nofun, ⟨?_, abstract.symm, fun _ => rfl, nofun⟩⟩, rfl, fun _ => rfl⟩
    rw [out]
    rfl
  | @closed code p' signature ends out concrete =>
    rw [signature] at ends out concrete
    obtain ⟨references, refers, noted⟩ := decl.refers_of_ends (decl.isVoid_signature c) ends
    refine ⟨⟨m.out.text, some code, references⟩, ⟨?_, ⟨?_, concrete.symm, nofun, ?_⟩⟩, rfl,
      fun other => ?_⟩
    · rintro _ ⟨⟩ name word
      obtain ⟨use, mem, named⟩ := MethodDecl.backed ends word
      rw [noted] at mem
      rcases Progress.mem_of_mem_useFields mem with none | mem
      · cases none
      · exact ⟨use, mem, named⟩
    · rw [out]
      rfl
    · rintro _ ⟨⟩
      exact ⟨refers, p', ends⟩
    · rw [noted, ClassDraft.useFields_fields]
      rfl

theorem forall₂_choose {α β γ : Type} {R : α → β → Prop} {S : α → γ → Prop} {T : β → γ → Prop}
    {items : List α} {parts : List β} (all : List.Forall₂ R items parts)
    (choose : ∀ item part, R item part → ∃ c, S item c ∧ T part c) :
    ∃ chosen, List.Forall₂ S items chosen ∧ List.Forall₂ T parts chosen := by
  induction all with
  | nil => exact ⟨[], .nil, .nil⟩
  | cons first _ ih =>
    obtain ⟨c, left, right⟩ := choose _ _ first
    obtain ⟨rest, lefts, rights⟩ := ih
    exact ⟨c :: rest, .cons left lefts, .cons right rights⟩

/-- A class takes methods with the fields that they refer to. -/
theorem ClassDraft.adds_compiled {parts : List (MethodDraft × List FieldUse)}
    {methods : List CompiledMethod}
    (same : List.Forall₂ (fun part (m : CompiledMethod) => ∀ other : ClassDraft,
      other.useFields part.2 = other.useFields m.references) parts methods) (c : ClassDraft) :
    c.Adds (methods.flatMap (·.references.map FieldUse.decl)) (parts.foldl take c) := by
  induction same generalizing c with
  | nil => exact .refl c
  | @cons part m parts methods first _ ih =>
    have taken : c.take part = c.take (part.1, m.references) := first (c.withMethod part.1)
    refine Adds.trans ?_ (ih (c.take part))
    rw [taken]
    exact c.adds_take (part.1, m.references)

/-- A name that is declared is declared once, as it is declared first. -/
theorem filter_firstDeclared {fields : List FieldDecl} {field : FieldDecl} (mem : field ∈ fields) :
    ∃ first, fields.find? (·.name = field.name) = some first ∧
      (firstDeclared fields).filter (·.name = field.name) = [first] := by
  induction fields with
  | nil => cases mem
  | cons first rest ih =>
    by_cases same : first.name = field.name
    · refine ⟨first, by simp [same], ?_⟩
      simp [firstDeclared, List.filter_filter, same]
    · have later : field ∈ rest := by
        rcases List.mem_cons.mp mem with rfl | later
        · exact absurd rfl same
        · exact later
      obtain ⟨found, finds, declared⟩ := ih later
      refine ⟨found, by simpa [same] using finds, ?_⟩
      have others : (fun other : FieldDecl => decide (other.name = field.name) &&
          decide (other.name ≠ first.name)) = fun other => decide (other.name = field.name) := by
        funext other
        by_cases named : other.name = field.name
        · simp [named, Ne.symm same]
        · simp [named]
      rw [firstDeclared, List.filter_cons_of_neg (by simpa using same), List.filter_filter, others]
      exact declared

/-- The text of a type with this header: the fields, and behind them the methods. -/
def ClassDraft.textWith (c : ClassDraft) (fields : List FieldDecl) (methods : List String) : String :=
  let front := unlines (fields.flatMap FieldDecl.lines)
  unlines c.headerLines ++ "\n".intercalate
    (((if fields.isEmpty then [] else [front]) ++ methods).map (shift c.style.indent)) ++ "\x7d\n"

namespace TypeDecl

/-- The declarations of the type's fields, in order: its own, and those that its methods refer to. -/
def declared (type : TypeDecl) (methods : List CompiledMethod) : List FieldDecl :=
  type.fields ++ methods.flatMap (·.references.map FieldUse.decl)

/-- The text of the type declares, in front of all methods, each field that these refer to once, as it is
    declared first. -/
def DeclaresReferences (type : TypeDecl) (start : ClassDraft) (text : String) : Prop :=
  ∃ methods : List CompiledMethod,
    List.Forall₂ (fun decl m => decl.Compiles start m) type.methods methods ∧
    text = start.textWith (firstDeclared (type.declared methods)) (methods.map CompiledMethod.text) ∧
    ∀ m ∈ methods, ∀ code ∈ m.code, ∀ name, Word.field name ∈ Stmt.codeWords code →
      ∃ first, (type.declared methods).find? (·.name = name) = some first ∧
        (firstDeclared (type.declared methods)).filter (·.name = name) = [first]

theorem declaresReferences_of_draft {type : TypeDecl} {u : UnitDraft} {c : ClassDraft}
    (ok : type.draft u = .ok c) : type.DeclaresReferences (type.begun u) c.text := by
  have whole := CompilationUnit.wholeLines_of_draft ok
  obtain ⟨parts, finished, written⟩ := type.parts_of_draft ok
  rw [type.draft_eq_mapM, mapM_eq_ok_iff.mpr finished] at ok
  cases ok
  have alike := type.begun_alike u
  obtain ⟨methods, compiled, same⟩ := forall₂_choose finished fun decl part ok => by
    rw [← decl.finished_congr alike] at ok
    exact (MethodDecl.finished_ok ok).elim fun _ finished => finished.compiles
  obtain ⟨backed, compiled⟩ := (List.forall₂_and_left _ _).mp compiled.flip
  have adds := (type.adds_addFields (type.begun u)).trans
    (ClassDraft.adds_compiled (same.imp fun _ _ h => h.2) _)
  refine ⟨methods, compiled.flip, ?_, fun m mem code found name word => ?_⟩
  · have texts : parts.map (fun part => part.1.out.text) = methods.map CompiledMethod.text := by
      rw [← List.forall₂_eq_eq_eq, List.forall₂_map_left_iff, List.forall₂_map_right_iff]
      exact same.imp fun _ _ h => h.1
    rw [adds.text (type.begun_isNew u) whole, written, ClassDraft.textWith, ← texts]
    unfold declared
    split <;> simp [Function.comp_def]
  · obtain ⟨use, used, rfl⟩ := backed m mem code found name word
    have declared : use.decl ∈ type.declared methods :=
      List.mem_append_right _ (List.mem_flatMap.mpr ⟨m, mem, List.mem_map_of_mem used⟩)
    exact filter_firstDeclared declared

end TypeDecl

/-- A compiled type declares each field that its methods refer to once, in front of all methods: as the
    type declares it first, or else as it is first referred to in the order of compilation. -/
theorem references_are_declared_once {unit : CompilationUnit} {style : Style}
    {artifacts : List Artifact} (ok : unit.compile style = .ok artifacts) :
    List.Forall₂ (fun (type : TypeDecl) artifact =>
      type.DeclaresReferences (type.begun (unit.begun style)) artifact.text) unit.types artifacts := by
  rw [CompilationUnit.compile_eq_mapM] at ok
  obtain ⟨classes, drafted, rfl⟩ := map_eq_ok_iff.mp ok
  rw [List.forall₂_map_right_iff]
  exact (mapM_eq_ok_iff.mp drafted).imp fun type c drafted => type.declaresReferences_of_draft drafted

/-- A read of `f` as an `int` for nothing, and the same field printed as a `long`. -/
def readTwice : Tree :=
  .node (.seq [.node (.field "f" false) .int,
    .node (.print (some (.node (.field "f" false) .long)) false) .void]) .void

def readTwiceUnit : CompilationUnit :=
  let run : MethodDecl := ⟨"run", .member, [], .void, [], [], some readTwice⟩
  ⟨"a.mirah", none, [⟨"A", .classType none false, [], [], [], [run]⟩]⟩

def readTwiceText : String :=
  "// Generated from a.mirah\npublic class A extends Object \x7b\n  private long f;\n\n" ++
    "  public void run() \x7b\n    System.out.print(this.f);\n  \x7d\n\x7d\n"

/-- Of the fields that a tree reads, the first is not declared if its value is not wanted. -/
theorem readTwice_declares_second_read :
    readTwice.fieldReads.find? (·.name = "f") = some ⟨"f", .int, false⟩ ∧
      readTwiceUnit.compile {} = .ok [⟨"A.java", readTwiceText⟩] := by
  refine ⟨by decide +kernel, by decide +kernel⟩

/-- A counter with a total, which it declares. Its count is assigned as an `int` in front of the read of
    the value, as a `long`. -/
def counterUnit : CompilationUnit :=
  let count (type : JavaType) : Tree := .node (.field "count" false) type
  let body : Tree := .node (.seq [.node (.setField "count" (count .long) false) .int,
    .node (.setField "total" (count .int) true) .long]) .void
  ⟨"a.mirah", none, [⟨"A", .classType none false, [], [], [⟨"total", .int, true, []⟩],
    [⟨"tick", .member, [], .void, [], [], some body⟩]⟩]⟩

theorem counter_fields_declared :
    let text := "// Generated from a.mirah\npublic class A extends Object \x7b\n" ++
      "  private static int total;\n  private int count;\n\n  public void tick() \x7b\n" ++
      "    this.count = this.count;\n    A.total = this.count;\n  \x7d\n\x7d\n"
    counterUnit.compile {} = .ok [⟨"A.java", text⟩] ∧
      ∃ type ∈ counterUnit.types, type.DeclaresReferences (type.begun (counterUnit.begun {})) text := by
  intro text
  have ok : counterUnit.compile {} = .ok [⟨"A.java", text⟩] := by decide +kernel
  have declares := references_are_declared_once ok
  refine ⟨ok, _, List.mem_cons_self, ?_⟩
  cases declares with
  | cons first _ => exact first

end JavaBackend
