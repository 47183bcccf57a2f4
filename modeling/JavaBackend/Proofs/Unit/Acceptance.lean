import JavaBackend.Proofs.Lowering.Acceptance
import JavaBackend.Unit

/-!
# Which units can be compiled

A unit is compiled just if each of its methods can stand in its type, the arguments for another
constructor are expressions while only the parameters are known, and the jumps of all code that is
compiled are well placed. `MethodDecl.Acceptable` says that of one method.
-/

namespace JavaBackend

open Java (Stmt Code Expr)
open Lower

variable {α β : Type} {ctx : Context} {p : Progress}

/-! ## Runs that succeed -/

namespace Lower

/-- The computation ends without a fault. -/
def Succeeds (m : Lower α) (ctx : Context) (p : Progress) : Prop :=
  ∃ code a p', Ends m ctx p code a p'

theorem Accepts.succeeds_iff {m : Lower α} {ok : Prop} (accepts : Accepts m ctx ok) (p : Progress) :
    m.Succeeds ctx p ↔ ok := by
  have atP := accepts p
  unfold Succeeds Ends
  cases run : m ctx p with
  | mk outcome p' =>
    rw [run] at atP
    cases outcome with
    | done code a => exact iff_of_true ⟨code, a, p', rfl⟩ atP
    | failed written fault =>
      refine iff_of_false ?_ atP.1
      rintro ⟨_, _, _, ends⟩
      cases ends

/-- After a computation that lays out nothing and leaves the scope alone, the rest decides. -/
theorem succeeds_bind_of_accepts {m : Lower α} {f : α → Lower β} {ok : Prop}
    (next : ∀ a, Accepts (f a) ctx ok) : (m >>= f).Succeeds ctx p ↔ m.Succeeds ctx p ∧ ok := by
  constructor
  · rintro ⟨code, b, p', ends⟩
    obtain ⟨code₁, a, p₁, code₂, first, rest, -⟩ := ends_bind.mp ends
    exact ⟨⟨code₁, a, p₁, first⟩, ((next a).succeeds_iff p₁).mp ⟨code₂, b, p', rest⟩⟩
  · rintro ⟨⟨code₁, a, p₁, first⟩, holds⟩
    obtain ⟨code₂, b, p', rest⟩ := ((next a).succeeds_iff p₁).mpr holds
    exact ⟨code₁ ++ code₂, b, p', ends_bind.mpr ⟨code₁, a, p₁, code₂, first, rest, rfl⟩⟩

theorem toExcept_isOk_iff {m : Lower α} :
    (∃ a, (m ctx p).outcome.toExcept = .ok a) ↔ m.Succeeds ctx p := by
  unfold Succeeds Ends
  cases run : m ctx p with
  | mk outcome p' =>
    cases outcome with
    | done code a => simp [Outcome.toExcept]
    | failed written fault => simp [Outcome.toExcept]

end Lower

/-! ## Methods -/

theorem Locals.contains_foldl_insert (params : List Param) (locals : Locals) (name : String) :
    (params.foldl (fun locals param => locals.insert param.name param.type) locals).contains name =
      (locals.contains name || params.any (·.name == name)) := by
  induction params generalizing locals with
  | nil => simp
  | cons param rest ih =>
    rw [List.foldl_cons, ih, List.any_cons]
    unfold Locals.contains
    rw [Locals.type?_insert]
    by_cases same : param.name = name
    · simp [same]
    · simp [same, beq_eq_false_iff_ne.mpr same]

theorem Scope.isLocal_ofParams (params : List Param) :
    (Scope.ofParams params).isLocal = fun name => params.any (·.name == name) := by
  funext name
  unfold Scope.isLocal Scope.ofParams
  rw [Locals.contains_foldl_insert]
  simp [Locals.contains]

theorem delegateArg_apply (arg : Tree) (ctx : Context) (p : Progress) :
    delegateArg arg ctx p =
      if arg.isExpression p.scope.isLocal then arg.toInline ctx p
      else ⟨.failed [] (.invalidDelegateArgument arg.kind.name), p⟩ := by
  unfold delegateArg
  rw [Part.isExpression_bind]
  show (if arg.isExpression p.scope.isLocal then _ else _ : Lower Expr) ctx p = _
  split <;> rfl

/-- The arguments for another constructor are taken just if each is an expression. -/
theorem succeeds_mapM_delegateArg (args : List Tree) (scope : Scope) (fields : List FieldUse) :
    (args.mapM delegateArg).Succeeds ctx ⟨scope, fields⟩ ↔
      ∀ arg ∈ args, arg.isExpression scope.isLocal = true := by
  have each : ∀ (arg : Tree) fields, arg.isExpression scope.isLocal = true →
      delegateArg arg ctx ⟨scope, fields⟩ = arg.toInline ctx ⟨scope, fields⟩ := by
    intro arg fields expression
    rw [delegateArg_apply, if_pos expression]
  constructor
  · intro succeeds
    induction args generalizing fields with
    | nil => simp
    | cons arg rest ih =>
      rw [List.mapM_cons] at succeeds
      obtain ⟨_, _, _, ends⟩ := succeeds
      obtain ⟨_, a, p₁, _, first, more, -⟩ := ends_bind.mp ends
      obtain ⟨code, as, p₂, _, others, -, -⟩ := ends_bind.mp more
      by_cases expression : arg.isExpression scope.isLocal = true
      · obtain ⟨fields', gives⟩ := Tree.gives_toInline arg ctx scope expression fields
        have same := (each arg fields expression).symm.trans first
        rw [show arg.toInline ctx _ = _ from gives] at same
        cases same
        exact List.forall_mem_cons.mpr ⟨expression, ih _ ⟨code, as, p₂, others⟩⟩
      · rw [Ends, delegateArg_apply, if_neg expression] at first
        cases first
  · intro expressions
    have gives : Gives (args.mapM delegateArg) ctx scope (args.map (Tree.expr ctx)) := by
      refine gives_mapM fun arg mem => ?_
      have expression := expressions arg mem
      exact (Tree.gives_toInline arg ctx scope expression).congr fun fields =>
        each arg fields expression
    obtain ⟨fields', ends⟩ := gives fields
    exact ⟨[], _, _, ends⟩

namespace MethodDecl

/-- Whether the method has a body in Java: in an interface no method has one. -/
def hasCode (decl : MethodDecl) (inInterface : Bool) : Bool :=
  match decl.kind with
  | .abstract => false
  | _ => !inInterface

/-- Whether the method can be declared in an interface. -/
def fitsInterface (decl : MethodDecl) : Bool :=
  match decl.kind with
  | .member | .abstract => true
  | .static | .constructor _ => false

/-- The arguments for the other constructor that opens a constructor. -/
def delegateArgs (decl : MethodDecl) : List Tree :=
  match decl.kind with
  | .constructor (some delegate) => delegate.args
  | _ => []

/-- What makes a method acceptable in a class or an interface. -/
structure Acceptable (decl : MethodDecl) (inInterface : Bool) : Prop where
  declared : inInterface = true → decl.fitsInterface = true
  delegate : ∀ arg ∈ decl.delegateArgs,
    arg.isExpression (fun name => decl.params.any (·.name == name)) = true
  placed : decl.hasCode inInterface = true → ∀ body ∈ decl.body, body.wellPlaced none = true

theorem succeeds_lowerDelegate (decl : MethodDecl) (scope : Scope) (fields : List FieldUse) :
    decl.kind.lowerDelegate.Succeeds ctx ⟨scope, fields⟩ ↔
      ∀ arg ∈ decl.delegateArgs, arg.isExpression scope.isLocal = true := by
  have nothing : (pure () : Lower Unit).Succeeds ctx ⟨scope, fields⟩ ↔
      ∀ arg ∈ ([] : List Tree), arg.isExpression scope.isLocal = true := by
    refine iff_of_true ⟨[], (), _, ends_pure.mpr ⟨rfl, rfl, rfl⟩⟩ ?_
    simp
  unfold delegateArgs
  cases decl.kind with
  | member | static | abstract => exact nothing
  | constructor delegate =>
    cases delegate with
    | none => exact nothing
    | some delegate =>
      rw [MethodKind.lowerDelegate, Delegate.lower,
        succeeds_bind_of_accepts fun _ => accepts_emit _, and_true]
      exact succeeds_mapM_delegateArg delegate.args scope fields

/-- The body of a method, as a statement or as what the method returns. -/
theorem accepts_body (decl : MethodDecl) (outside : ctx.inside = none) :
    Accepts (match decl.body with
      | none => pure ()
      | some body =>
        if decl.returns.isVoid || decl.kind.isConstructor then body.toStatement .discard
        else Tree.toReturn (some body)) ctx (∀ body ∈ decl.body, body.wellPlaced none = true) := by
  rw [← outside]
  cases decl.body with
  | none => exact (accepts_pure ()).congr (by simp)
  | some body =>
    rw [show (∀ other ∈ some body, other.wellPlaced ctx.inside = true) ↔ body.part.Placed ctx by
      simp [Part.Placed]; rfl]
    dsimp only
    split
    · exact (body.fits ctx).statement .discard
    · exact body.accepts_toReturn ctx

/-- What follows the call of another constructor: the variables and the code. -/
def lowerCode (decl : MethodDecl) : Lower Unit := do
  decl.locals.forM fun param =>
    Lower.declareLocal param.type param.name (.literal param.type.defaultValue)
  match decl.body with
  | none => return
  | some body =>
    if decl.returns.isVoid || decl.kind.isConstructor then
      body.toStatement .discard
    else
      Tree.toReturn (some body)

theorem lower_eq (decl : MethodDecl) :
    decl.lower = (do decl.kind.lowerDelegate; decl.lowerCode) := rfl

theorem accepts_lowerCode (decl : MethodDecl) (inside : ctx.loops = []) :
    Accepts decl.lowerCode ctx (∀ body ∈ decl.body, body.wellPlaced none = true) := by
  have outside : ctx.inside = none := by
    unfold Context.inside
    rw [inside]
    rfl
  have declared : Accepts (decl.locals.forM fun param =>
      declareLocal param.type param.name (.literal param.type.defaultValue)) ctx
      (∀ param ∈ decl.locals, True) :=
    accepts_forM _ fun param _ => accepts_declareLocal _ _ _
  exact (declared.bind fun _ => accepts_body decl outside).congr (by simp)

/-- The code of a method: the call of another constructor is all that depends on the scope. -/
theorem succeeds_lower (decl : MethodDecl) (inside : ctx.loops = []) (scope : Scope)
    (fields : List FieldUse) :
    decl.lower.Succeeds ctx ⟨scope, fields⟩ ↔
      (∀ arg ∈ decl.delegateArgs, arg.isExpression scope.isLocal = true) ∧
        ∀ body ∈ decl.body, body.wellPlaced none = true := by
  rw [lower_eq, succeeds_bind_of_accepts fun _ => accepts_lowerCode decl inside, succeeds_lowerDelegate]

end MethodDecl

/-! ## Drafts -/

/-- The result is there just if `ok` holds, and then `post` holds of it. -/
structure Settles {σ : Type} (result : Except Fault σ) (ok : Prop) (post : σ → Prop) : Prop where
  isOk_iff : (∃ s, result = .ok s) ↔ ok
  holds : ∀ s, result = .ok s → post s

namespace Settles

variable {σ τ : Type} {ok ok' : Prop} {post : σ → Prop} {post' : τ → Prop}

theorem of_ok {s : σ} (there : ok) (holds : post s) : Settles (.ok s) ok post where
  isOk_iff := iff_of_true ⟨s, rfl⟩ there
  holds _ found := by
    cases found
    exact holds

theorem of_error {fault : Fault} (missing : ¬ ok) : Settles (.error fault) ok post where
  isOk_iff := iff_of_false (fun ⟨_, found⟩ => nomatch found) missing
  holds _ found := nomatch found

theorem congr {result : Except Fault σ} (settles : Settles result ok post) (same : ok ↔ ok') :
    Settles result ok' post :=
  ⟨settles.isOk_iff.trans same, settles.holds⟩

theorem mono {post' : σ → Prop} {result : Except Fault σ} (settles : Settles result ok post)
    (weaker : ∀ s, post s → post' s) : Settles result ok post' :=
  ⟨settles.isOk_iff, fun s found => weaker s (settles.holds s found)⟩

theorem bind {result : Except Fault σ} {next : σ → Except Fault τ}
    (first : Settles result ok post) (rest : ∀ s, post s → Settles (next s) ok' post') :
    Settles (result >>= next) (ok ∧ ok') post' := by
  cases result with
  | error fault =>
    have missing : ¬ ok := fun holds => nomatch first.isOk_iff.mpr holds
    exact of_error fun both => missing both.1
  | ok s =>
    have there : ok := first.isOk_iff.mp ⟨s, rfl⟩
    exact (rest s (first.holds s rfl)).congr (iff_of_eq (by rw [eq_true there, true_and]))

/-- Steps in order: all of them are there just if each is, and what each keeps is kept. -/
theorem foldlM {step : σ → α → Except Fault σ} {each : α → Prop} (items : List α)
    (settles : ∀ s, post s → ∀ item ∈ items, Settles (step s item) (each item) post) {s : σ}
    (start : post s) : Settles (items.foldlM step s) (∀ item ∈ items, each item) post := by
  induction items generalizing s with
  | nil => exact of_ok (by simp) start
  | cons item rest ih =>
    rw [List.foldlM_cons, List.forall_mem_cons]
    refine (settles s start item List.mem_cons_self).bind fun s' holds => ?_
    exact ih (fun s holds other mem => settles s holds other (List.mem_cons_of_mem _ mem)) holds

end Settles

namespace ClassDraft

@[simp]
theorem sealHeader_shape (c : ClassDraft) : c.sealHeader.shape = c.shape := by
  unfold sealHeader
  split <;> rfl

theorem addField_shape (c : ClassDraft) (name : String) (type : JavaType) (isStatic : Bool)
    (annotations : List AnnotationUse) :
    (c.addField name type isStatic annotations).2.shape = c.shape := by
  unfold addField
  split
  · rfl
  · exact sealHeader_shape c

theorem useFields_shape (uses : List FieldUse) (c : ClassDraft) :
    (c.useFields uses).shape = c.shape := by
  unfold useFields
  induction uses generalizing c with
  | nil => rfl
  | cons use rest ih =>
    rw [List.foldl_cons, ih, addField_shape]

theorem lower_shape (c : ClassDraft) (index : Nat) (loops : List EnclosingLoop) (code : Lower α) :
    (c.lower index loops code).2.shape = c.shape := by
  unfold lower
  split
  · rfl
  · exact useFields_shape _ _

end ClassDraft

/-- A method as it stands in a class once it is declared. -/
structure MethodDecl.DeclaredAt (decl : MethodDecl) (c : ClassDraft) (declared : Nat × ClassDraft) :
    Prop where
  shape : declared.2.shape = c.shape
  pending : ∃ m, declared.2.methods[declared.1]? = some m ∧ m.stage = .pending ∧
    m.scope = .ofParams decl.params ∧ m.signature.isAbstract = !decl.hasCode c.isInterface

namespace MethodDecl

theorem declaredAt_pushMethod (decl : MethodDecl) (c : ClassDraft) {signature : Signature}
    (params : signature.params = decl.params)
    (abstract : signature.isAbstract = !decl.hasCode c.isInterface) :
    decl.DeclaredAt c (c.pushMethod signature) where
  shape := c.sealHeader_shape
  pending := by
    refine ⟨.ofSignature signature c.sealHeader.style.indent, ?_, rfl, ?_, abstract⟩
    · simp [ClassDraft.pushMethod]
    · rw [← params]
      rfl

/-- What a class takes with its code, and an interface refuses. -/
theorem settles_refused {decl : MethodDecl} {signature : Signature} (c : ClassDraft) (fault : Fault)
    (refused : decl.fitsInterface = false) (code : decl.hasCode false = true)
    (params : signature.params = decl.params) (concrete : signature.isAbstract = false) :
    Settles (if c.isInterface then .error fault else .ok (c.pushMethod signature))
      (c.isInterface = true → decl.fitsInterface = true) (decl.DeclaredAt c) := by
  have pushed := @declaredAt_pushMethod decl c signature params
  cases interface : c.isInterface with
  | true =>
    refine Settles.of_error fun fits => ?_
    rw [refused] at fits
    exact Bool.false_ne_true (fits rfl)
  | false =>
    rw [interface, code] at pushed
    exact Settles.of_ok (fun inInterface => absurd inInterface Bool.false_ne_true) (pushed concrete)

theorem settles_declare (decl : MethodDecl) (c : ClassDraft) :
    Settles (decl.declare c) (c.isInterface = true → decl.fitsInterface = true)
      (decl.DeclaredAt c) := by
  unfold declare
  cases kind : decl.kind with
  | member =>
    refine Settles.of_ok (fun _ => by simp [fitsInterface, kind]) (declaredAt_pushMethod decl c rfl ?_)
    unfold hasCode
    rw [kind]
    cases c.isInterface <;> rfl
  | abstract =>
    refine Settles.of_ok (fun _ => by simp [fitsInterface, kind]) (declaredAt_pushMethod decl c rfl ?_)
    unfold hasCode
    rw [kind]
    rfl
  | static =>
    exact settles_refused c _ (by simp [fitsInterface, kind]) (by simp [hasCode, kind]) rfl rfl
  | constructor delegate =>
    exact settles_refused c _ (by simp [fitsInterface, kind]) (by simp [hasCode, kind]) rfl rfl

theorem acceptable_iff_of_hasCode {decl : MethodDecl} {inInterface : Bool}
    (code : decl.hasCode inInterface = true) :
    decl.Acceptable inInterface ↔
      (inInterface = true → decl.fitsInterface = true) ∧
        (∀ arg ∈ decl.delegateArgs,
          arg.isExpression (fun name => decl.params.any (·.name == name)) = true) ∧
        ∀ body ∈ decl.body, body.wellPlaced none = true :=
  ⟨fun h => ⟨h.declared, h.delegate, h.placed code⟩, fun h => ⟨h.1, h.2.1, fun _ => h.2.2⟩⟩

/-- A method without code is acceptable wherever it can be declared: it has no other constructor to
    call. -/
theorem acceptable_iff_of_not_hasCode {decl : MethodDecl} {inInterface : Bool}
    (code : decl.hasCode inInterface = false) :
    decl.Acceptable inInterface ↔ (inInterface = true → decl.fitsInterface = true) := by
  refine ⟨fun h => h.declared, fun declared => ⟨declared, ?_, fun h => ?_⟩⟩
  · unfold hasCode at code
    unfold fitsInterface at declared
    unfold delegateArgs
    cases kind : decl.kind with
    | member | static | abstract => simp
    | constructor delegate => simp_all
  · rw [code] at h
    exact absurd h Bool.false_ne_true

/-- A method whose body is open is written to the end if its code can be lowered. -/
theorem settles_write {decl : MethodDecl} {c : ClassDraft} {index : Nat} {m : MethodDraft}
    (found : c.methods[index]? = some m) (scope : m.scope = .ofParams decl.params) :
    Settles (do
        let (result, c) := c.lower index [] decl.lower
        result
        return c.modifyMethod index MethodDraft.stop)
      ((∀ arg ∈ decl.delegateArgs,
          arg.isExpression (fun name => decl.params.any (·.name == name)) = true) ∧
        ∀ body ∈ decl.body, body.wellPlaced none = true)
      (fun c' => c'.shape = c.shape) := by
  have isOk : (∃ done, (c.lower index [] decl.lower).1 = .ok done) ↔
      decl.lower.Succeeds (c.context m []) ⟨m.scope, []⟩ := by
    unfold ClassDraft.lower
    rw [found]
    exact toExcept_isOk_iff
  rw [succeeds_lower decl rfl, scope, Scope.isLocal_ofParams] at isOk
  have lowered : Settles (c.lower index [] decl.lower).1 _ (fun _ => True) := ⟨isOk, fun _ _ => trivial⟩
  refine (lowered.bind fun _ _ => ?_).congr (iff_of_eq (and_true _))
  exact Settles.of_ok trivial (c.lower_shape index [] decl.lower)

theorem settles_addTo (decl : MethodDecl) (c : ClassDraft) :
    Settles (decl.addTo c) (decl.Acceptable c.isInterface) (fun c' => c'.shape = c.shape) := by
  have declared := decl.settles_declare c
  unfold addTo
  cases code : decl.hasCode c.isInterface with
  | true =>
    rw [acceptable_iff_of_hasCode code]
    refine declared.bind fun ⟨index, c'⟩ ⟨shape, m, found, pending, scope, concrete⟩ => ?_
    rw [code] at concrete
    have started : (c'.modifyMethod index MethodDraft.start).methods[index]? = some m.start := by
      simp [ClassDraft.modifyMethod, found]
    have opened : m.start.stage = .opened := by simp [MethodDraft.start, pending, concrete]
    have kept : m.start.scope = .ofParams decl.params := by
      simp [MethodDraft.start, pending, concrete, scope]
    have written := settles_write started kept
    dsimp only
    rw [started, if_neg (by simp [opened])]
    rw [show (c'.modifyMethod index MethodDraft.start).shape = c.shape from shape] at written
    exact written
  | false =>
    rw [acceptable_iff_of_not_hasCode code, ← and_true (c.isInterface = true → _)]
    refine declared.bind fun ⟨index, c'⟩ ⟨shape, m, found, pending, scope, abstract⟩ => ?_
    rw [code] at abstract
    have started : (c'.modifyMethod index MethodDraft.start).methods[index]? = some m.start := by
      simp [ClassDraft.modifyMethod, found]
    have sealed : m.start.stage = .sealed := by simp [MethodDraft.start, pending, abstract]
    dsimp only
    rw [started, if_pos (by simp [sealed])]
    exact Settles.of_ok trivial shape

end MethodDecl

/-! ## Units -/

/-- Whether the type is an interface. -/
def TypeDecl.isInterface (decl : TypeDecl) : Bool :=
  match decl.kind with
  | .interface => true
  | .classType _ _ => false

theorem ClassDraft.isInterface_of_shape {c c' : ClassDraft} (same : c'.shape = c.shape) :
    c'.isInterface = c.isInterface := by
  unfold isInterface
  rw [same]

theorem ClassDraft.change_of_unsealed {c : ClassDraft} (unsealed : c.isSealed = false)
    (part : HeaderPart) (f : ClassDraft → Except Fault ClassDraft) : c.change part f = f c := by
  unfold change
  rw [unsealed]
  rfl

theorem UnitDraft.newType_unsealed (u : UnitDraft) (name : String) (shape : Shape)
    (interfaces : List JavaType) : (u.newType name shape interfaces).isSealed = false := by
  simp [newType, ClassDraft.new]

theorem UnitDraft.newType_shape (u : UnitDraft) (name : String) (shape : Shape)
    (interfaces : List JavaType) : (u.newType name shape interfaces).shape = shape := by
  simp [newType, ClassDraft.new]

/-- A type whose header can still be changed. -/
def TypeDecl.Begun (decl : TypeDecl) (c : ClassDraft) : Prop :=
  c.isSealed = false ∧ c.isInterface = decl.isInterface

theorem ClassDraft.settles_setAbstract {c : ClassDraft} {superclass : JavaType} {wasAbstract : Bool}
    (unsealed : c.isSealed = false) (shape : c.shape = .classType superclass wasAbstract)
    (isAbstract : Bool) :
    Settles (c.setAbstract isAbstract) True fun c' =>
      c'.isSealed = false ∧ c'.isInterface = false := by
  unfold setAbstract
  rw [change_of_unsealed unsealed, shape]
  exact Settles.of_ok trivial ⟨unsealed, rfl⟩

theorem TypeDecl.settles_newClass {decl : TypeDecl} {superclass : Option JavaType}
    {isAbstract : Bool} (kind : decl.kind = .classType superclass isAbstract) (u : UnitDraft) :
    Settles ((u.newClass decl.name superclass decl.interfaces).setAbstract isAbstract) True
      decl.Begun := by
  have isClass : decl.isInterface = false := by
    unfold isInterface
    rw [kind]
  unfold Begun
  rw [isClass]
  exact ClassDraft.settles_setAbstract (u.newType_unsealed _ _ _) (u.newType_shape _ _ _) isAbstract

theorem TypeDecl.begun_newInterface {decl : TypeDecl} (kind : decl.kind = .interface)
    (u : UnitDraft) : decl.Begun (u.newInterface decl.name decl.interfaces) := by
  unfold UnitDraft.newInterface Begun isInterface ClassDraft.isInterface
  rw [kind, u.newType_shape, u.newType_unsealed]
  exact ⟨rfl, rfl⟩

/-- Nothing but its methods can keep a type from being drafted: its header is changed before it is
    written. -/
theorem TypeDecl.settles_draft (decl : TypeDecl) (u : UnitDraft) :
    Settles (decl.draft u) (∀ method ∈ decl.methods, method.Acceptable decl.isInterface)
      (fun _ => True) := by
  have annotated : ∀ c, decl.Begun c → Settles (decl.annotations.foldlM ClassDraft.annotate c)
      (∀ use ∈ decl.annotations, True) decl.Begun := by
    intro c begun
    refine Settles.foldlM decl.annotations (fun c begun use _ => ?_) begun
    unfold ClassDraft.annotate
    rw [ClassDraft.change_of_unsealed begun.1]
    exact Settles.of_ok trivial begun
  have fields : ∀ (fields : List FieldDecl) (c : ClassDraft),
      (fields.foldl (fun c field =>
        (c.addField field.name field.type field.isStatic field.annotations).2) c).shape = c.shape := by
    intro fields
    induction fields with
    | nil => exact fun _ => rfl
    | cons field rest ih =>
      intro c
      rw [List.foldl_cons, ih, ClassDraft.addField_shape]
  have methods : ∀ c, decl.Begun c → Settles (decl.methods.foldlM (fun c method => method.addTo c)
      (decl.fields.foldl (fun c field =>
        (c.addField field.name field.type field.isStatic field.annotations).2) c))
      (∀ method ∈ decl.methods, method.Acceptable decl.isInterface)
      (fun c => c.isInterface = decl.isInterface) := by
    intro c begun
    refine Settles.foldlM decl.methods (fun c interface method _ => ?_) ?_
    · rw [← interface]
      exact (method.settles_addTo c).mono fun c' shape => ClassDraft.isInterface_of_shape shape
    · rw [ClassDraft.isInterface_of_shape (fields decl.fields c)]
      exact begun.2
  have rest := fun c begun => (annotated c begun).bind methods
  unfold draft
  cases kind : decl.kind with
  | classType superclass isAbstract =>
    have begun := settles_newClass kind u
    dsimp only
    exact ((begun.bind rest).mono fun _ _ => trivial).congr (by simp)
  | interface =>
    have begun := Settles.of_ok trivial (begun_newInterface kind u)
    dsimp only
    exact ((begun.bind rest).mono fun _ _ => trivial).congr (by simp)

/-- A unit is compiled just if all of its methods are acceptable. -/
theorem CompilationUnit.compile_isOk_iff (unit : CompilationUnit) (style : Style) :
    (∃ artifacts, unit.compile style = .ok artifacts) ↔
      ∀ type ∈ unit.types, ∀ method ∈ type.methods, method.Acceptable type.isInterface := by
  have types : Settles (unit.draft style)
      (∀ type ∈ unit.types, ∀ method ∈ type.methods, method.Acceptable type.isInterface)
      (fun _ => True) := by
    refine Settles.foldlM unit.types (fun u _ type _ => ?_) trivial
    refine ((type.settles_draft u).bind fun c _ => ?_).congr (iff_of_eq (and_true _))
    exact Settles.of_ok trivial trivial
  rw [← types.isOk_iff]
  unfold compile
  cases unit.draft style with
  | error fault => exact iff_of_false (fun ⟨_, found⟩ => nomatch found) (by simp)
  | ok u => exact iff_of_true ⟨u.artifacts, rfl⟩ ⟨u, rfl⟩

/-! ## The condition -/

/-- The condition decides whether there is a result, and without it the fault is over a jump. -/
def DecidedBy (result : Except Fault α) (ok : Bool) : Prop :=
  match result with
  | .ok _ => ok = true
  | .error fault => ok = false ∧ fault.isMisplacedJump = true

theorem Lower.Accepts.decidedBy {code : Lower α} {ok : Bool} {c : ClassDraft} {index : Nat}
    {m : MethodDraft} (found : c.methods[index]? = some m)
    (accepts : Accepts code (c.context m []) (ok = true)) :
    DecidedBy (c.lower index [] code).1 ok := by
  have atScope := accepts ⟨m.scope, []⟩
  unfold ClassDraft.lower
  rw [found]
  cases run : code (c.context m []) ⟨m.scope, []⟩ with
  | mk outcome p' =>
    rw [run] at atScope
    simp only [run]
    cases outcome with
    | done written a => exact atScope
    | failed written fault => exact ⟨Bool.eq_false_iff.mpr atScope.1, atScope.2⟩

/-- Whatever a method's variables, its supplies of names and its stage, and whatever becomes of the
    value, a tree with no loop around it is lowered just if its jumps are well placed, and is refused
    over a jump otherwise. A unit is compiled just if all of its methods are acceptable. -/
theorem lowers_iff_wellPlaced :
    (∀ (tree : Tree) (c : ClassDraft) (index : Nat) (m : MethodDraft),
      c.methods[index]? = some m →
        (∀ dest, DecidedBy (c.lower index [] (tree.toStatement dest)).1 (tree.wellPlaced none)) ∧
          DecidedBy (c.lower index [] tree.toExpr).1 (tree.wellPlaced none)) ∧
      ∀ (unit : CompilationUnit) (style : Style),
        (∃ artifacts, unit.compile style = .ok artifacts) ↔
          ∀ type ∈ unit.types, ∀ method ∈ type.methods, method.Acceptable type.isInterface := by
  refine ⟨fun tree c index m found => ?_, CompilationUnit.compile_isOk_iff⟩
  have fits := tree.fits (c.context m [])
  exact ⟨fun dest => (fits.statement dest).decidedBy found,
    (tree.accepts_toExpr _).decidedBy found⟩

/-- A `redo` in a loop that has none is refused, in a method that is not even open. -/
theorem redo_in_plain_loop_refused :
    let redo : Tree := .node (.jump .redo) .void
    let loop : Tree := .node (.loop ⟨.node (.literal (.bool true)) .boolean, true, false, some redo,
      false, none, none, none⟩) .void
    let m : MethodDraft := .ofSignature ⟨"run", .member, .void, [], []⟩ 2
    let c : ClassDraft := ⟨"a.mirah", none, "A", .classType .object false, [], [], .ofStep 2, [], [m],
      true, {}⟩
    c.methods[0]? = some m ∧ DecidedBy (c.lower 0 [] (loop.toStatement .discard)).1 false :=
  ⟨rfl, (lowers_iff_wellPlaced.1 _ _ 0 _ rfl).1 .discard⟩

end JavaBackend
