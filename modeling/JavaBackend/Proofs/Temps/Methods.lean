import JavaBackend.Proofs.Temps.Lowering
import JavaBackend.Proofs.Unit.Bodies
import JavaBackend.Proofs.Unit.Independence

/-!
# The temporaries of a method

The lines of every method of a compiled unit comply with the scope of temporaries
(`temporaries_stay_in_their_blocks`), if nothing that the unit is made of holds the mark of their
names.
-/

namespace JavaBackend

open Java (Stmt Code Piece Expr)
open Lower

variable {names : List String} {ctx : Context} {p p' : Progress} {code : Code} {decl : MethodDecl}

/-! ## Bodies -/

theorem Delegates.fits {kind : MethodKind} (delegates : Delegates ctx p kind code p')
    (around : OverAll (·.SeenIn names) ctx.words)
    (free : ∀ delegate, kind = .constructor (some delegate) →
      ∀ arg ∈ delegate.args, arg.Over Word.Unmarked) :
    Fits names p.scope.temps code .done p'.scope.temps := by
  cases delegates with
  | none => exact .nil .nil
  | call operands =>
    have front := operands.fits names around (free _ rfl)
    exact front.append (.line front.values)

theorem Declares.fits {locals : List Param} (declares : Declares locals p code p')
    (free : ∀ param ∈ locals, param.Over Word.Unmarked) (names : List String) :
    Fits names p.scope.temps code .done p'.scope.temps := by
  induction declares generalizing names with
  | nil => exact .nil .nil
  | known _ _ ih => exact ih (List.forall_mem_cons.mp free).2 names
  | @new param _ p _ _ scope reserved _ ih =>
    obtain ⟨first, rest⟩ := List.forall_mem_cons.mp free
    have declared : Fits names p.scope.temps
        [.declare param.type param.name (.literal param.type.defaultValue)] .done scope.temps := by
      rw [Scope.temps_of_reserve? reserved]
      exact .declare (over_default Word.standard_seenIn param.type) (numbered_unmarked first.1 _)
    exact declared.append (ih rest _)

/-- The temporaries of a method's code stay inside their blocks and are numbered in order. -/
theorem MethodDecl.fits (ends : Ends decl.lower ctx p code () p')
    (around : OverAll (·.SeenIn names) ctx.words) (free : decl.Over Word.Unmarked) :
    Fits names p.scope.temps code .done p'.scope.temps := by
  obtain ⟨opening, declared, rest, p₁, p₂, rfl, delegates, declares, lowers⟩ := derives ends
  have first := delegates.fits around fun delegate kind => over_delegate free kind
  have second := declares.fits free.locals (names ++ Stmt.codeDeclared opening)
  have third := lowers.fits _ ((around.after first).after second) (spans_task free)
  exact first.append (second.append third)

/-! ## Methods -/

/-- The temporaries that the body of a method introduces. -/
def bodyIntroduced (body : Option Code) : List String := body.elim [] Stmt.codeIntroduced

/-- No temporary is used outside the block that introduces it, or before it is introduced, and none
    is introduced twice. -/
structure WellScoped (signature : Signature) (body : Option Code) : Prop where
  steps : Steps [] (methodPieces signature body) (bodyIntroduced body) []
  once : (bodyIntroduced body).Nodup

/-- The lines of a finished method comply with the scope of temporaries. -/
theorem MethodDecl.Finished.wellScoped {c : ClassDraft} {m : MethodDraft} {body : Option Code}
    {uses : List FieldUse} (finished : decl.Finished c m body uses) (free : decl.Over Word.Unmarked)
    (owner : (Word.owner c.simpleName).Unmarked) : WellScoped m.signature body := by
  have heading : tempsIn m.signature.source = [] := by
    have same : m.signature = decl.signature c := by cases finished <;> assumption
    rw [same, ← see_tempReading, Reading.see_signature, List.flatMap_eq_nil_iff]
    exact fun word mem => (MethodDecl.over_signature free owner trivial word mem).temps_eq
  cases finished with
  | sealed _ out =>
    refine ⟨.single (.line (Calm.ofUnmarked heading).declaredBy_eq ?_), List.nodup_nil⟩
    rw [← see_tempReading, Reading.see_back _ (by decide), see_tempReading, heading]
    exact .nil
  | @closed code p' _ ends out =>
    have around : OverAll Word.Unmarked (Context.words
        ⟨c.simpleName, m.signature.isStatic, m.signature.returns, []⟩) :=
      OverAll.cons_iff.mpr ⟨owner, .nil⟩
    have fits : Fits [] _ code .done _ := MethodDecl.fits ends around.seenIn free
    have once : OverAll Word.MarkedOnce (Stmt.codeWords code) :=
      (made Word.closed_markedOnce ends (fun word mem => .inl (around word mem))
        (free.mono fun _ => .inl) (List.forall_mem_nil _)).code
    have inside : Steps [[]] (Stmt.codePieces code) _ _ :=
      Stmt.steps_codePieces code once fits.inside .nil
    have numbered : (Stmt.codeIntroduced code ++ []).Nodup := fits.numbered.nodup
    rw [List.append_nil] at numbered
    obtain ⟨rest, starts⟩ := m.signature.source_eq
    have plain : ¬"for (".toList <+: m.signature.source.toList := by simp [starts]
    exact ⟨.block (.opening plain (heading ▸ .nil)) inside .empty, numbered⟩

/-- In every method of a compiled unit each temporary is introduced once, by a declaration or the
    heading of a loop or a handler, and all its other uses stand behind that and inside the block that
    it is introduced in, if the unit's names and texts do not hold the mark of temporaries. -/
theorem temporaries_stay_in_their_blocks {unit : CompilationUnit} {style : Style}
    {artifacts : List Artifact} (ok : unit.compile style = .ok artifacts)
    (free : ∀ type ∈ unit.types, type.Over Word.Unmarked) :
    ∃ classes : List ClassDraft, artifacts = classes.map (fun c => ⟨c.path, c.text⟩) ∧
      List.Forall₂ (fun type c => type.Bodies (unit.begun style) c fun _ m body =>
        WellScoped m.signature body) unit.types classes := by
  refine CompilationUnit.bodies_of_compile ok fun type declared decl mine m body uses finished => ?_
  have ofWords := free type declared
  refine finished.wellScoped (ofWords.methods decl mine) ?_
  rw [UnitDraft.newType_simpleName]
  exact ofWords.name

/-- A method that runs a call for each of its arguments, with temporaries of all three kinds: the loop
    and the handler have to copy what they bind to a variable that exists already. -/
def copyingMethod : MethodDecl :=
  let log : Tree := .node (.call .implicit "log" [] .void) .void
  let x : Tree := .node (.var "x") .object
  let send : Tree := .node (.call .implicit "send" [.node (.seq [log, x]) .object, x] .void) .void
  let clause : RescueClause Tree := ⟨[.reference "java.io.IOException"], some "x", none⟩
  let attempt : Tree := .node (.rescue (some send) [clause] none) .void
  let xs : Tree := .node (.var "xs") (.array .object)
  let loop : Tree := .node (.forEach ⟨"x", xs, some attempt, true⟩) .void
  ⟨"run", .member, [⟨"xs", .array .object⟩, ⟨"x", .object⟩], .void, [], [], some loop⟩

def copyingType : TypeDecl := ⟨"A", .classType none false, [], [], [], [copyingMethod]⟩

def copyingUnit : CompilationUnit := ⟨"a.mirah", none, [copyingType]⟩

/-- The temporaries that a run introduces. -/
def Outcome.introduced : Outcome Unit → List String
  | .done code _ => Stmt.codeIntroduced code
  | .failed _ _ => []

theorem copyingUnit_wellScoped :
    (∀ type ∈ copyingUnit.types, type.Over Word.Unmarked) ∧
      ∃ (c : ClassDraft) (m : MethodDraft) (code : Code) (uses : List FieldUse),
        copyingUnit.compile {} = .ok [⟨c.path, c.text⟩] ∧
        copyingType.draft (copyingUnit.begun {}) = .ok c ∧ c.methods = [m] ∧
        copyingMethod.Finished ((copyingUnit.begun {}).newType "A" copyingType.shape []) m (some code)
          uses ∧
        Stmt.codeIntroduced code = ["temp$1", "temp$2", "temp$3", "temp$4", "temp$5"] ∧
        WellScoped m.signature (some code) := by
  have plain {text : List Char} (free : '$' ∉ text) : ¬tempMark <:+: text :=
    fun found => free (found.subset (by decide))
  have free : ∀ type ∈ copyingUnit.types, type.Over Word.Unmarked := by
    refine List.forall_mem_singleton.mpr ⟨plain (by decide), nofun, nofun, nofun,
      List.forall_mem_singleton.mpr ⟨plain (by decide), ?_, trivial, nofun, nofun, nofun, ?_⟩⟩
    · refine List.forall_mem_cons.mpr ⟨⟨plain (by decide), trivial⟩, List.forall_mem_singleton.mpr
        ⟨plain (by decide), trivial⟩⟩
    · rintro _ ⟨⟩
      simp [Tree.over_node, Kind.children, Kind.words, Receiver.toList, Word.Unmarked, plain]
  refine ⟨free, ?_⟩
  cases ok : copyingUnit.compile {} with
  | error fault =>
    have accepted : (copyingUnit.compile {}).toOption.isSome = true := by decide +kernel
    rw [ok] at accepted
    cases accepted
  | ok artifacts =>
    obtain ⟨classes, rfl, all⟩ := temporaries_stay_in_their_blocks ok free
    obtain ⟨c, _, ⟨drafted, methods⟩, none, rfl⟩ := List.forall₂_cons_left_iff.mp all
    cases none
    obtain ⟨m, _, ⟨body, uses, finished, fits⟩, none, listed⟩ :=
      List.forall₂_cons_left_iff.mp methods
    cases none
    refine ⟨c, m, ?_⟩
    cases finished with
    | sealed signature out abstract =>
      rw [signature] at abstract
      cases abstract
    | closed signature ends out concrete =>
      have introduced : (copyingMethod.lower ⟨"A", false, .void, []⟩
          ⟨.ofParams copyingMethod.params, []⟩).outcome.introduced =
            ["temp$1", "temp$2", "temp$3", "temp$4", "temp$5"] := by
        decide +kernel
      refine ⟨_, _, rfl, drafted, listed, .closed signature ends out concrete, ?_, fits⟩
      rw [signature, UnitDraft.newType_simpleName,
        show (splitName copyingType.name).2 = "A" by decide +kernel] at ends
      rwa [show copyingMethod.lower ⟨"A", false, .void, []⟩ _ = _ from ends] at introduced

end JavaBackend
