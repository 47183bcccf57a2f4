import JavaBackend.Proofs.Draft.Lifecycle
import JavaBackend.Proofs.Lowering.Silence
import JavaBackend.Proofs.Unit.Independence

/-!
# The call of another constructor

Java takes the call of another constructor as the first statement of a constructor and nowhere else. Its
arguments are lowered while only the parameters are known: each of them has to be an expression, and
then nothing is laid out for it, no name is handed out, and the call is the first line of the body.
`ends_delegateArgs` and `delegateArgs_refused` say that of the arguments; what follows the call is
`MethodDecl.lowerCode`, which can fail, but only over a jump.
-/

namespace JavaBackend

open Java (Stmt Code Piece Expr)
open Lower

variable {α β : Type} {ctx : Context} {p p' : Progress}

/-! ## One computation after another -/

namespace Lower

/-- The pieces of what comes second stand behind those of the first, and it decides how both end. -/
theorem bind_apply_of_ends {m : Lower α} {code : Code} {a : α} (ends : Ends m ctx p code a p')
    (f : α → Lower β) :
    ((m >>= f) ctx p).outcome.pieces = Stmt.codePieces code ++ (f a ctx p').outcome.pieces ∧
      ((m >>= f) ctx p).outcome.toExcept = (f a ctx p').outcome.toExcept := by
  have both : (m >>= f) ctx p = Lower.bind m f ctx p := rfl
  rw [both]
  unfold Ends at ends
  simp only [Lower.bind, ends]
  cases f a ctx p' with
  | mk outcome p₁ => cases outcome <;> simp [Outcome.pieces, Outcome.toExcept, Stmt.codePieces_append]

/-- A computation that is accepted or not only fails over a jump. -/
theorem Accepts.fault {m : Lower α} {ok : Prop} (accepts : Accepts m ctx ok) {fault : Fault}
    (failed : (m ctx p).outcome.toExcept = .error fault) : ¬ ok ∧ fault.isMisplacedJump = true := by
  have atP := accepts p
  generalize (m ctx p).outcome = outcome at atP failed
  cases outcome with
  | done code a => cases failed
  | failed written other =>
    cases failed
    exact atP

end Lower

/-! ## Arguments -/

theorem ends_delegateArg {arg : Tree} (expression : arg.isExpression p.scope.isLocal = true) :
    Ends (delegateArg arg) ctx p [] (arg.expr ctx) (p.useFields arg.fieldReads) := by
  unfold Ends
  rw [delegateArg_apply, if_pos expression]
  exact Tree.ends_toInline expression

/-- Arguments that are expressions are written in place: only the fields that they read are noted. -/
theorem ends_delegateArgs {args : List Tree}
    (expressions : ∀ arg ∈ args, arg.isExpression p.scope.isLocal = true) :
    Ends (args.mapM delegateArg) ctx p [] (args.map (Tree.expr ctx))
      (p.useFields (args.flatMap Tree.fieldReads)) := by
  induction args generalizing p with
  | nil => exact ends_pure.mpr ⟨rfl, rfl, rfl⟩
  | cons arg rest ih =>
    obtain ⟨expression, others⟩ := List.forall_mem_cons.mp expressions
    rw [← Progress.scope_useFields p arg.fieldReads] at others
    have first : Ends (delegateArg arg) ctx p [] _ _ := ends_delegateArg expression
    unfold Ends
    rw [List.mapM_cons, bind_apply_of_ends_nil first, bind_apply_of_ends_nil (ih others),
      List.flatMap_cons, Progress.useFields_append]
    rfl

/-- The first argument that is no expression is refused, and nothing is laid out before. -/
theorem delegateArgs_refused {args : List Tree} {arg : Tree}
    (found : args.find? (!·.isExpression p.scope.isLocal) = some arg) :
    ∃ p', args.mapM delegateArg ctx p =
      ⟨.failed [] (.invalidDelegateArgument arg.kind.name), p'⟩ := by
  induction args generalizing p with
  | nil => cases found
  | cons first rest ih =>
    rw [List.mapM_cons]
    cases expression : first.isExpression p.scope.isLocal with
    | true =>
      rw [List.find?_cons_of_neg (by simp [expression])] at found
      rw [← Progress.scope_useFields p first.fieldReads] at found
      obtain ⟨p', refused⟩ := ih found
      exact ⟨p', (bind_apply_of_ends_nil (ends_delegateArg expression) _).trans
        (bind_apply_of_failed refused _)⟩
    | false =>
      rw [List.find?_cons_of_pos (by simp [expression])] at found
      cases found
      refine ⟨p, bind_apply_of_failed ?_ _⟩
      rw [delegateArg_apply, if_neg (by simp [expression])]

namespace Delegate

/-- The line that calls the other constructor. -/
def line (delegate : Delegate) (ctx : Context) : String :=
  (if delegate.toSuper then "super" else "this") ++ "(" ++
    ", ".intercalate (delegate.args.map fun arg => (arg.expr ctx).text) ++ ");"

theorem ends_lower {delegate : Delegate}
    (expressions : ∀ arg ∈ delegate.args, arg.isExpression p.scope.isLocal = true) :
    Ends delegate.lower ctx p [.delegate delegate.toSuper (delegate.args.map (Tree.expr ctx))] ()
      (p.useFields (delegate.args.flatMap Tree.fieldReads)) := by
  unfold Ends
  rw [Delegate.lower, bind_apply_of_ends_nil (ends_delegateArgs expressions)]
  rfl

theorem codePieces_call (delegate : Delegate) (ctx : Context) :
    Stmt.codePieces [.delegate delegate.toSuper (delegate.args.map (Tree.expr ctx))] =
      [.line (delegate.line ctx)] := by
  simp [Stmt.codePieces, Stmt.pieces, Expr.texts_eq, line, Function.comp_def]

end Delegate

/-! ## Constructors -/

/-- A method that is open: its signature is written, and the next line goes one level deeper. -/
theorem layPiece_opening (signature : Signature) (step : Nat) :
    layPiece (.ofStep step) (.opening signature.source) =
      ⟨signature.source ++ " \x7b\n", step, step, true⟩ := by
  have written : (Text.Buffer.ofStep step).putLine (signature.source ++ " \x7b") =
      ⟨signature.source ++ " \x7b\n", 0, step, true⟩ := by
    rw [Text.Buffer.putLine_ofStep, String.append_assoc]
    rfl
  simp only [layPiece, signature.isEmpty_source, Bool.false_eq_true, if_false]
  rw [written]
  simp [Text.Buffer.indent]

theorem text_of_next_line {b : Text.Buffer} (start : b.atLineStart = true) (line : String)
    (rest : List Piece) : ∃ more, ((.line line :: rest).foldl layPiece b).text =
      b.text ++ shift b.depth (line ++ "\n") ++ more := by
  obtain ⟨more, same⟩ := extends_layPieces rest (b.putLine line)
  refine ⟨more, same.trans ?_⟩
  rw [Text.Buffer.putLine_at_start start]

/-- What stands around the code of a constructor. -/
def ClassDraft.constructorContext (c : ClassDraft) : Context := ⟨c.simpleName, false, .void, []⟩

namespace MethodDecl

/-- What is known at the start of a method: its parameters. -/
def atStart (decl : MethodDecl) : Progress := ⟨.ofParams decl.params, []⟩

variable {decl : MethodDecl} {delegate : Delegate} {c : ClassDraft}

theorem lower_of_delegates (delegates : decl.kind = .constructor (some delegate)) :
    decl.lower = (do delegate.lower; decl.lowerCode) := by
  rw [lower_eq, delegates]
  rfl

/-- Behind arguments that are expressions, the call is laid out first, and what follows it decides how
    the constructor ends. -/
theorem lower_of_expressions (ctx : Context) (p : Progress)
    (delegates : decl.kind = .constructor (some delegate))
    (expressions : ∀ arg ∈ delegate.args, arg.isExpression p.scope.isLocal = true) :
    ∃ p' rest, (decl.lower ctx p).outcome.pieces = .line (delegate.line ctx) :: rest ∧
      (decl.lower ctx p).outcome.toExcept = (decl.lowerCode ctx p').outcome.toExcept := by
  rw [lower_of_delegates delegates]
  obtain ⟨pieces, result⟩ :=
    bind_apply_of_ends (delegate.ends_lower expressions) fun _ => decl.lowerCode
  rw [delegate.codePieces_call] at pieces
  exact ⟨_, _, pieces, result⟩

theorem lower_of_refused (delegates : decl.kind = .constructor (some delegate)) {arg : Tree}
    (found : delegate.args.find? (!·.isExpression p.scope.isLocal) = some arg) :
    (decl.lower ctx p).outcome.toExcept = .error (.invalidDelegateArgument arg.kind.name) := by
  obtain ⟨p', refused⟩ : ∃ p', delegate.args.mapM delegateArg ctx p = _ := delegateArgs_refused found
  have called : delegate.lower ctx p = _ := bind_apply_of_failed refused _
  rw [lower_of_delegates delegates, bind_apply_of_failed called]
  rfl

theorem signature_of_delegates (delegates : decl.kind = .constructor (some delegate)) :
    decl.signature c = ⟨c.simpleName, .constructor, .void, decl.params, decl.exceptions⟩ := by
  simp [signature, delegates]

/-- How a constructor ends in a class is how its code does. -/
theorem addTo_constructor (delegates : decl.kind = .constructor (some delegate))
    (inClass : c.isInterface = false) (fault : Fault) :
    decl.addTo c = .error fault ↔
      (decl.lower c.constructorContext decl.atStart).outcome.toExcept = .error fault := by
  have declared : ∃ found, decl.declare c = .ok found := by
    simp [declare, delegates, ClassDraft.addConstructor, inClass]
  obtain ⟨found, declared⟩ := declared
  rw [addTo_eq, map_eq_error_iff]
  unfold finished
  rw [declared, signature_of_delegates delegates, MethodDraft.start_concrete rfl]
  show (do
    (decl.lower c.constructorContext decl.atStart).outcome.toExcept
    return _ : Except Fault (MethodDraft × List FieldUse)) = .error fault ↔ _
  generalize (decl.lower _ _).outcome.toExcept = result
  cases result <;> simp [bind, Except.bind, pure, Except.pure]

theorem addTo_interface (delegates : decl.kind = .constructor (some delegate))
    (inInterface : c.isInterface = true) :
    decl.addTo c = .error (.interfaceConstructor c.simpleName) := by
  simp [addTo, declare, delegates, ClassDraft.addConstructor, inInterface, bind, Except.bind]

/-- The code of a constructor fails over an argument just if one is no expression. -/
theorem lower_refused_iff (delegates : decl.kind = .constructor (some delegate))
    (inside : ctx.loops = []) (name : String) :
    (decl.lower ctx p).outcome.toExcept = .error (.invalidDelegateArgument name) ↔
      ∃ arg, delegate.args.find? (!·.isExpression p.scope.isLocal) = some arg ∧
        arg.kind.name = name := by
  cases found : delegate.args.find? (!·.isExpression p.scope.isLocal) with
  | some arg =>
    rw [lower_of_refused delegates found]
    simp
  | none =>
    have expressions : ∀ arg ∈ delegate.args, arg.isExpression p.scope.isLocal = true := by
      simpa using found
    obtain ⟨p', rest, -, same⟩ := lower_of_expressions ctx p delegates expressions
    rw [same]
    refine iff_of_false (fun failed => ?_) (by simp)
    exact absurd ((accepts_lowerCode decl inside).fault failed).2 Bool.false_ne_true

/-- A class that takes a constructor has its call as the first line of the body. -/
theorem text_of_addTo (delegates : decl.kind = .constructor (some delegate))
    (expressions : ∀ arg ∈ delegate.args, arg.isExpression decl.atStart.scope.isLocal = true)
    {c' : ClassDraft} (ok : decl.addTo c = .ok c') :
    ∃ m rest, c'.methods = c.methods ++ [m] ∧
      m.out.text = (decl.signature c).source ++ " \x7b\n" ++
        shift c.style.indent (delegate.line c.constructorContext ++ "\n") ++ rest := by
  obtain ⟨m, _, uses, rfl, finished⟩ := addTo_ok ok
  have methods : ((c.withMethod m).useFields uses).methods = c.methods ++ [m] :=
    ClassDraft.methods_useFields _ _
  cases finished with
  | sealed same out abstract =>
    rw [same, signature_of_delegates delegates] at abstract
    cases abstract
  | @closed code _ same ends out =>
    rw [same, signature_of_delegates delegates] at ends
    change decl.lower c.constructorContext decl.atStart = _ at ends
    obtain ⟨_, rest, pieces, -⟩ :=
      lower_of_expressions c.constructorContext decl.atStart delegates expressions
    rw [ends] at pieces
    change Stmt.codePieces code = _ at pieces
    rw [same, pieces, List.foldl_cons, layPiece_opening] at out
    obtain ⟨more, text⟩ := text_of_next_line (b := ⟨(decl.signature c).source ++ " \x7b\n",
      c.style.indent, c.style.indent, true⟩) rfl (delegate.line c.constructorContext)
      (rest ++ [.closing ""])
    exact ⟨m, more, methods, (congrArg Text.Buffer.text out).trans text⟩

end MethodDecl

/-- The call of another constructor. An interface refuses the constructor itself. In a class, an argument
    that is no expression while the parameters are all that is known is refused, the first of them by its
    kind. If there is none, nothing but the call is laid out and no name is handed out for it, and its
    line is the first of the body, whatever becomes of the rest; only a jump can make that fail. -/
theorem delegation_comes_first {decl : MethodDecl} {delegate : Delegate}
    (delegates : decl.kind = .constructor (some delegate)) (c : ClassDraft) :
    let isParam : String → Bool := fun name => decl.params.any (·.name == name)
    let ctx := c.constructorContext
    (c.isInterface = true → decl.addTo c = .error (.interfaceConstructor c.simpleName)) ∧
      (c.isInterface = false →
        (∀ name, decl.addTo c = .error (.invalidDelegateArgument name) ↔
          ∃ arg, delegate.args.find? (!·.isExpression isParam) = some arg ∧ arg.kind.name = name) ∧
        ((∀ arg ∈ delegate.args, arg.isExpression isParam = true) →
          (∃ left, Ends delegate.lower ctx decl.atStart
              [.delegate delegate.toSuper (delegate.args.map (Tree.expr ctx))] () left ∧
            left.scope = .ofParams decl.params ∧ left.scope.supply = ⟨0, 0⟩) ∧
          (∃ rest, (decl.lower ctx decl.atStart).outcome.pieces = .line (delegate.line ctx) :: rest) ∧
          match decl.addTo c with
          | .ok c' => ∃ m rest, c'.methods = c.methods ++ [m] ∧
            m.out.text = (decl.signature c).source ++ " \x7b\n" ++
              shift c.style.indent (delegate.line ctx ++ "\n") ++ rest
          | .error fault => fault.isMisplacedJump = true ∧
            ∃ body ∈ decl.body, body.wellPlaced none = false)) := by
  intro isParam ctx
  have known : decl.atStart.scope.isLocal = isParam := Scope.isLocal_ofParams decl.params
  refine ⟨MethodDecl.addTo_interface delegates, fun inClass => ⟨fun name => ?_, fun expressions => ?_⟩⟩
  · rw [MethodDecl.addTo_constructor delegates inClass, MethodDecl.lower_refused_iff delegates rfl, known]
  · rw [← known] at expressions
    have kept := decl.atStart.scope_useFields (delegate.args.flatMap Tree.fieldReads)
    obtain ⟨p', rest, pieces, same⟩ :=
      MethodDecl.lower_of_expressions ctx decl.atStart delegates expressions
    refine ⟨⟨_, delegate.ends_lower expressions, kept, ?_⟩, ⟨rest, pieces⟩, ?_⟩
    · rw [kept]
      rfl
    · cases added : decl.addTo c with
      | ok c' => exact MethodDecl.text_of_addTo delegates expressions added
      | error fault =>
        have failed := same.symm.trans ((MethodDecl.addTo_constructor delegates inClass fault).mp added)
        obtain ⟨refused, jump⟩ := (MethodDecl.accepts_lowerCode decl rfl).fault failed
        exact ⟨jump, by simpa using refused⟩

/-- A constructor that calls the superclass's, and starts with a variable. -/
def forwarding (args : List Tree) : MethodDecl :=
  ⟨"", .constructor (some ⟨true, args⟩), [⟨"c", .boolean⟩, ⟨"x", .object⟩], .void, [], [⟨"y", .int⟩], none⟩

/-- A conditional that assigns a parameter is passed in place. Behind it, a body is the first of two
    arguments that are refused. -/
theorem guardedCall_delegated :
    let c : ClassDraft := .new {} "a.mirah" none "A" (.classType .object false) []
    (∃ c' m rest, (forwarding [guardedCall]).addTo c = .ok c' ∧ c'.methods = [m] ∧
      m.out.text =
        "public A(boolean c, Object x) \x7b\n  super((c ? this.f(this.count) : (x = null)));\n" ++ rest) ∧
      (forwarding [guardedCall, loggedCall, .node (.jump .next) .void]).addTo c =
        .error (.invalidDelegateArgument "body") := by
  intro c
  have passed := (delegation_comes_first (show (forwarding [guardedCall]).kind = _ from rfl) c).2 rfl
  have refused := (delegation_comes_first
    (show (forwarding [guardedCall, loggedCall, .node (.jump .next) .void]).kind = _ from rfl) c).2 rfl
  obtain ⟨-, -, written⟩ := passed.2 (by decide)
  refine ⟨?_, (refused.1 "body").mpr ⟨loggedCall, rfl, rfl⟩⟩
  split at written
  · next c' added =>
    obtain ⟨m, rest, methods, text⟩ := written
    have front : ((forwarding [guardedCall]).signature c).source ++ " \x7b\n" ++
        shift 2 (Delegate.line ⟨true, [guardedCall]⟩ c.constructorContext ++ "\n") =
        "public A(boolean c, Object x) \x7b\n  super((c ? this.f(this.count) : (x = null)));\n" := by decide
    exact ⟨c', m, rest, added, methods, text.trans (congrArg (· ++ rest) front)⟩
  · obtain ⟨-, body, mem, -⟩ := written
    cases mem

/-- An interface does not look at the arguments. -/
theorem constructor_refused_before_delegate :
    let decl := forwarding [loggedCall]
    let c : ClassDraft := .new {} "a.mirah" none "A" .interface []
    loggedCall.isExpression (fun name => decl.params.any (·.name == name)) = false ∧
      ∀ name, decl.addTo c ≠ .error (.invalidDelegateArgument name) := by
  refine ⟨rfl, fun name => ?_⟩
  rw [MethodDecl.addTo_interface rfl rfl]
  nofun

end JavaBackend
