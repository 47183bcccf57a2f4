import JavaBackend.Proofs.Unit.Written
import JavaBackend.Proofs.Words.Lowering
import JavaBackend.Proofs.Words.Reading

/-!
# The code of a method

The body of a method starts with the call of another constructor, whose arguments stand in place,
and with the declarations of the variables that it starts with; the rest is the code of a tree.
`MethodDecl.derives` takes a run that ends well apart into these three, and `MethodDecl.made` says
which words its code is made of.
-/

namespace JavaBackend

open Java (Stmt Code Piece Expr)
open Lower

/-- Declarations of variables, of which those that are known are left out. -/
inductive Declares : List Param → Progress → Code → Progress → Prop where
  | nil {p} : Declares [] p [] p
  | known {param rest p code p'} (known : p.scope.isLocal param.name = true)
    (others : Declares rest p code p') : Declares (param :: rest) p code p'
  | new {param rest p code p' scope} (reserved : p.scope.reserve? param.name param.type = some scope)
    (others : Declares rest { p with scope := scope } code p') :
    Declares (param :: rest) p
      (.declare param.type param.name (.literal param.type.defaultValue) :: code) p'

/-- The call of another constructor. -/
inductive Delegates (ctx : Context) (p : Progress) : MethodKind → Code → Progress → Prop where
  | none {kind} (plain : ∀ delegate, kind ≠ .constructor (some delegate)) : Delegates ctx p kind [] p
  | call {delegate code exprs p'}
    (operands : Lowers ctx p (.operands .inline delegate.args) code (.values exprs) p') :
    Delegates ctx p (.constructor (some delegate)) (code ++ [.delegate delegate.toSuper exprs]) p'

variable {ctx : Context} {p p' : Progress} {code : Code}

theorem declares_of_ends {locals : List Param} (ends : Ends (locals.forM fun param =>
      declareLocal param.type param.name (.literal param.type.defaultValue)) ctx p code () p') :
    Declares locals p code p' := by
  induction locals generalizing p code with
  | nil =>
    obtain ⟨rfl, -, rfl⟩ := ends_pure.mp ends
    exact .nil
  | cons param rest ih =>
    change Ends (_ >>= fun _ => rest.forM _) ctx p code () p' at ends
    obtain ⟨_, _, p₁, _, first, others, rfl⟩ := ends_bind.mp ends
    have declared := ends_declareLocal.mp first
    cases reserved : p.scope.reserve? param.name param.type with
    | none =>
      rw [reserved] at declared
      obtain ⟨rfl, rfl⟩ := declared
      refine .known ?_ (ih others)
      unfold Scope.reserve? at reserved
      split at reserved
      · assumption
      · cases reserved
    | some scope =>
      rw [reserved] at declared
      obtain ⟨rfl, rfl⟩ := declared
      exact .new reserved (ih others)

theorem follows_delegateArg (arg : Tree) : Follows (delegateArg arg) (.operand .inline arg) .value := by
  intro ctx p code expr p' ends
  rw [Ends, delegateArg_apply] at ends
  split at ends
  · exact arg.derives.inline ends
  · cases ends

theorem follows_delegateArgs (args : List Tree) :
    Follows (args.mapM delegateArg) (.operands .inline args) .values := by
  induction args with
  | nil =>
    intro ctx p code exprs p' ends
    obtain ⟨rfl, rfl, rfl⟩ := ends_pure.mp ends
    exact .operandsNil
  | cons arg rest ih =>
    intro ctx p code exprs p' ends
    rw [List.mapM_cons] at ends
    obtain ⟨_, expr, _, _, first, next, rfl⟩ := ends_bind.mp ends
    obtain ⟨_, exprs, _, _, others, last, rfl⟩ := ends_bind.mp next
    obtain ⟨rfl, rfl, rfl⟩ := ends_pure.mp last
    rw [List.append_nil]
    exact .operandsCons (follows_delegateArg arg first) (ih others)

theorem delegates_of_ends {kind : MethodKind} (ends : Ends kind.lowerDelegate ctx p code () p') :
    Delegates ctx p kind code p' := by
  have nothing {kind : MethodKind} (plain : ∀ delegate, kind ≠ .constructor (some delegate))
      (ends : Ends (pure () : Lower Unit) ctx p code () p') : Delegates ctx p kind code p' := by
    obtain ⟨rfl, -, rfl⟩ := ends_pure.mp ends
    exact .none plain
  cases kind with
  | member | static | abstract => exact nothing nofun ends
  | constructor delegate =>
    cases delegate with
    | none => exact nothing nofun ends
    | some delegate =>
      obtain ⟨_, exprs, _, _, operands, last, rfl⟩ := ends_bind.mp ends
      obtain ⟨rfl, rfl⟩ := ends_emit.mp last
      exact .call (follows_delegateArgs delegate.args operands)

/-! ## Words -/

variable {L : Word → Prop}

/-- The words of a parameter, or of a variable to declare. -/
def Param.Over (L : Word → Prop) (param : Param) : Prop := L (.var param.name) ∧ L (.type param.type)

/-- A declared method is made of words of `L`. -/
structure MethodDecl.Over (L : Word → Prop) (decl : MethodDecl) : Prop where
  name : L (.method decl.name)
  params : ∀ param ∈ decl.params, param.Over L
  returns : L (.type decl.returns)
  exceptions : ∀ type ∈ decl.exceptions, L (.type type)
  locals : ∀ param ∈ decl.locals, param.Over L
  delegate : ∀ arg ∈ decl.delegateArgs, arg.Over L
  body : ∀ body ∈ decl.body, body.Over L

/-- A declared type is made of words of `L`, its annotations apart. -/
structure TypeDecl.Over (L : Word → Prop) (decl : TypeDecl) : Prop where
  name : L (.owner (splitName decl.name).2)
  superclass : ∀ superclass isAbstract, decl.kind = .classType (some superclass) isAbstract →
    L (.type superclass)
  interfaces : ∀ type ∈ decl.interfaces, L (.type type)
  fields : ∀ field ∈ decl.fields, L (.field field.name) ∧ L (.type field.type)
  methods : ∀ method ∈ decl.methods, method.Over L

/-! Words of `L` that are all words of another set. -/

theorem Tree.Over.mono {M : Word → Prop} (weaker : ∀ word, L word → M word) {tree : Tree}
    (ofWords : tree.Over L) : tree.Over M :=
  Tree.Every.mono (fun _ _ own => ⟨weaker _ own.1, fun word mem => weaker word (own.2 word mem)⟩) ofWords

theorem Param.Over.mono {M : Word → Prop} (weaker : ∀ word, L word → M word) {param : Param}
    (ofWords : param.Over L) : param.Over M :=
  ⟨weaker _ ofWords.1, weaker _ ofWords.2⟩

theorem MethodDecl.Over.mono {M : Word → Prop} (weaker : ∀ word, L word → M word)
    {decl : MethodDecl} (ofWords : decl.Over L) : decl.Over M where
  name := weaker _ ofWords.name
  params param mem := (ofWords.params param mem).mono weaker
  returns := weaker _ ofWords.returns
  exceptions type mem := weaker _ (ofWords.exceptions type mem)
  locals param mem := (ofWords.locals param mem).mono weaker
  delegate arg mem := (ofWords.delegate arg mem).mono weaker
  body tree mem := (ofWords.body tree mem).mono weaker

theorem Declares.made (closed : Word.Closed L) {locals : List Param}
    (declares : Declares locals p code p') (ofWords : ∀ param ∈ locals, param.Over L)
    (kept : p.Over L) : Made L code .done p' := by
  induction declares with
  | nil => exact ⟨.nil, .nil, kept⟩
  | known _ _ ih => exact ih (List.forall_mem_cons.mp ofWords).2 kept
  | @new param _ _ _ _ _ _ _ ih =>
    obtain ⟨first, rest⟩ := List.forall_mem_cons.mp ofWords
    obtain ⟨others, -, kept⟩ := ih rest kept
    exact ⟨by simpa [first.1, first.2, closed.defaultValue] using others, .nil, kept⟩

/-- The lines of a method: its signature, and the body if it has one. -/
def methodPieces (signature : Signature) : Option Code → List Piece
  | none => [.line (signature.source ++ ";")]
  | some code => .opening signature.source :: (Stmt.codePieces code ++ [.closing ""])

namespace MethodDecl

/-- What the code behind the declarations of variables is to do. -/
def task (decl : MethodDecl) : Task :=
  match decl.body with
  | none => .maybe none .discard
  | some body =>
    if decl.returns.isVoid || decl.kind.isConstructor then .statement body .discard
    else .statement (.node (.ret (some body)) body.type) .discard

/-- The code of a method, part by part. -/
theorem derives {decl : MethodDecl} (ends : Ends decl.lower ctx p code () p') :
    ∃ opening declared rest p₁ p₂, code = opening ++ (declared ++ rest) ∧
      Delegates ctx p decl.kind opening p₁ ∧ Declares decl.locals p₁ declared p₂ ∧
      Lowers ctx p₂ decl.task rest .done p' := by
  unfold MethodDecl.lower at ends
  obtain ⟨opening, _, p₁, _, first, others, rfl⟩ := ends_bind.mp ends
  obtain ⟨declared, _, p₂, rest, second, last, rfl⟩ := ends_bind.mp others
  refine ⟨opening, declared, rest, p₁, p₂, rfl, delegates_of_ends first, declares_of_ends second, ?_⟩
  unfold task
  cases body : decl.body with
  | none =>
    rw [body] at last
    obtain ⟨rfl, -, rfl⟩ := ends_pure.mp last
    exact .maybeNone
  | some tree =>
    rw [body] at last
    dsimp only at last ⊢
    split at last
    · next plain =>
      rw [if_pos plain]
      exact tree.derives.statement .discard last
    · next returns =>
      rw [if_neg returns]
      refine follows_lowerReturn ?_ tree.type .discard last
      simpa using tree.derives

theorem spans_task {W : Word → Prop} {decl : MethodDecl} (ofWords : decl.Over L) :
    decl.task.Spans L W := by
  unfold task
  cases body : decl.body with
  | none => exact ⟨by simp, .nil⟩
  | some tree =>
    have treeOver := ofWords.body tree body
    dsimp only
    split
    · exact ⟨treeOver, .nil⟩
    · refine ⟨Tree.over_node.mpr ⟨treeOver.type, .nil, ?_⟩, .nil⟩
      simpa [Kind.children] using treeOver

theorem over_delegate {decl : MethodDecl} (ofWords : decl.Over L) {delegate : Delegate}
    (kind : decl.kind = .constructor (some delegate)) : ∀ arg ∈ delegate.args, arg.Over L := by
  have args := ofWords.delegate
  unfold delegateArgs at args
  rwa [kind] at args

/-- The code of a method is made of the words around it and of its own. -/
theorem made (closed : Word.Closed L) {decl : MethodDecl} (ends : Ends decl.lower ctx p code () p')
    (around : OverAll L ctx.words) (ofWords : decl.Over L) (kept : p.Over L) :
    Made L code .done p' := by
  obtain ⟨opening, declared, rest, p₁, p₂, rfl, delegates, declares, lowers⟩ := derives ends
  have first : Made L opening .done p₁ := by
    cases kind : decl.kind with
    | member | static | abstract =>
      rw [kind] at delegates
      cases delegates
      exact ⟨.nil, .nil, kept⟩
    | constructor delegate =>
      rw [kind] at delegates
      cases delegates with
      | none => exact ⟨.nil, .nil, kept⟩
      | @call delegate _ _ _ operands =>
        have args := over_delegate ofWords kind
        obtain ⟨front, values, kept⟩ := operands.ofWords closed around args kept
        exact ⟨by simpa using ⟨front, values⟩, .nil, kept⟩
  have second := declares.made closed ofWords.locals first.fields
  have third := lowers.ofWords closed around (spans_task ofWords) second.fields
  exact ⟨by simpa using ⟨first.code, second.code, third.code⟩, .nil, third.fields⟩

/-- The words of a declared signature are those of the method and its class. -/
theorem over_signature {decl : MethodDecl} {c : ClassDraft} (ofWords : decl.Over L)
    (owner : L (.method c.simpleName)) (void : L (.type .void)) :
    OverAll L (Reading.signatureWords (decl.signature c)) := by
  have params : OverAll L (decl.params.flatMap Reading.paramWords) :=
    OverAll.flatMap_iff.mpr fun param mem =>
      OverAll.cons_iff.mpr ⟨(ofWords.params param mem).2, OverAll.cons_iff.mpr
        ⟨(ofWords.params param mem).1, .nil⟩⟩
  have exceptions : OverAll L (decl.exceptions.map .type) := List.forall_mem_map.mpr ofWords.exceptions
  have returned {typed : Bool} {returns : JavaType} (listed : L (.type returns)) :
      OverAll L (if typed then [] else [Word.type returns]) := by
    cases typed <;> simp [listed]
  unfold signature Reading.signatureWords
  split <;>
    simp only [OverAll.append_iff, OverAll.cons_iff, params, exceptions, owner, ofWords.name, and_self,
      returned ofWords.returns, returned void]

end MethodDecl

end JavaBackend
