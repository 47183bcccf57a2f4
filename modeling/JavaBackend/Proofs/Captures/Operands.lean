import JavaBackend.Proofs.Captures.Runs
import JavaBackend.Proofs.Effects.Calls

/-!
# Operands that are captured in order

Once one operand of a list needs statements, the value of each is captured before the next one is
evaluated, unless it is constant. The value of an assignment is captured in the variable that it
assigns, and any other in a temporary: both can be overwritten by the code of a later operand, if its
tree assigns that variable or if the variable has the name of a temporary.
`operands_keep_values_unless_set` says that there is no other way. `void_call_gives_receiver_unless_set`
says the same about the receiver of a call that stands for the value of the call.
-/

namespace JavaBackend

open Java (Stmt Code Expr Sink Runs Vars)
open Java.Stmt (codeWrites)
open Lower

/-- A tree whose value is the same at all times. -/
def Tree.isConstant (tree : Tree) : Bool :=
  match tree.kind with
  | .literal _ | .self => true
  | _ => false

/-- What became of an operand: its code, an expression for its value, and the progress in front of
    the code and behind it. -/
structure Capture where
  tree : Tree
  before : Progress
  code : Code
  value : Expr
  after : Progress

namespace Capture

variable {ctx : Context} {p p' : Progress} {c d : Capture} {captures : List Capture} {name : String}

/-- The operand is lowered so. -/
def Made (ctx : Context) (c : Capture) : Prop :=
  Ends c.tree.part.toFixed ctx c.before c.code c.value c.after

/-- The operands are lowered so, one after another. -/
def Chain (ctx : Context) : Progress → List Capture → Progress → Prop
  | p, [], p' => p = p'
  | p, c :: rest, p' => c.before = p ∧ c.Made ctx ∧ Chain ctx c.after rest p'

/-- The variable is that of an assignment that needs statements. -/
def Aliases (c : Capture) (name : String) : Prop :=
  (∃ value type, c.tree = .node (.assign name value) type) ∧
    c.tree.isExpression c.before.scope.isLocal = false

/-- The name is that of a temporary that is handed out for the operand. -/
def Takes (c : Capture) (name : String) : Prop :=
  HandedOut c.before.scope.temps c.after.scope.temps name

/-! ## One operand -/

theorem Made.lowers (made : c.Made ctx) :
    Lowers ctx c.before (.operand .fixed c.tree) c.code (.value c.value) c.after :=
  c.tree.derives.toFixed made

theorem Made.temps_le (made : c.Made ctx) : c.before.scope.temps ≤ c.after.scope.temps :=
  made.lowers.temps_le

theorem Made.constant (made : c.Made ctx) (constant : c.tree.isConstant = true) :
    c.code = [] ∧ (c.value = .this ∨ ∃ value, c.value = .literal value) := by
  obtain ⟨⟨kind, type⟩, before, code, value, after⟩ := c
  cases kind with
  | literal own =>
    obtain ⟨none, given, -⟩ := ends_pure.mp made
    exact ⟨none, .inr ⟨own, given.symm⟩⟩
  | self =>
    obtain ⟨none, given, -⟩ := ends_pure.mp made
    exact ⟨none, .inl given.symm⟩
  | _ => cases constant

/-- A value that is not constant is in a variable. -/
theorem Made.holder (made : c.Made ctx) (varies : c.tree.isConstant = false) :
    ∃ name, c.value = .var name ∧ (c.Aliases name ∨ c.Takes name) := by
  obtain ⟨tree, before, code, value, after⟩ := c
  have ends : Ends tree.part.toFixed ctx before code value after := made
  unfold Part.toFixed at ends
  split at ends
  · next literal =>
    rw [Tree.isConstant, show tree.kind = _ from literal] at varies
    cases varies
  · next self =>
    rw [Tree.isConstant, show tree.kind = _ from self] at varies
    cases varies
  obtain ⟨temp, ran, rfl⟩ := ends_map.mp ends
  refine ⟨temp.name, rfl, ?_⟩
  unfold Ends at ran
  rw [Part.toFreshTemp_apply] at ran
  split at ran
  · -- an expression is evaluated into the next temporary
    obtain ⟨_, init, q, _, inline, rest, rfl⟩ := ends_bind.mp ran
    obtain ⟨name, declared, rfl⟩ := ends_map.mp rest
    obtain ⟨-, rfl, rfl⟩ := ends_newTemp.mp declared
    have lower : before.scope.temps ≤ q.scope.temps := (tree.derives.inline inline).temps_le
    exact .inr ⟨q.scope.temps + 1, Nat.lt_succ_of_le lower, Nat.le_refl _, rfl⟩
  · next unplaced =>
    have lowered : Lowers ctx before (.temp tree) code (.value (.var temp.name)) after :=
      Tree.follows_toTemp tree.derives.statement ran
    generalize temp.name = name at lowered ⊢
    cases lowered with
    | tempLoop _ loop => exact .inr ⟨_, Nat.lt_succ_of_le loop.temps_le, Nat.le_refl _, rfl⟩
    | tempAssign assigned => exact .inl ⟨⟨_, _, rfl⟩, Bool.eq_false_iff.mpr unplaced⟩
    | tempStore stored => exact .inr ⟨_, Nat.lt_succ_self _, stored.temps_le, rfl⟩

/-- The code of an operand writes what its tree sets and the temporaries that are handed out for
    it. -/
theorem Made.writes (made : c.Made ctx) (around : ctx.flag? ≠ some name) :
    name ∈ codeWrites c.code ↔ name ∈ c.tree.setNames ∨ c.Takes name := by
  have pure : c.value.assigned = [] := by
    cases constant : c.tree.isConstant with
    | true =>
      rcases (made.constant constant).2 with this | ⟨value, literal⟩
      · rw [this, Expr.assigned]
      · rw [literal, Expr.assigned]
    | false =>
      obtain ⟨name, var, -⟩ := made.holder constant
      rw [var, Expr.assigned]
  have fair := (made.lowers.writes (by simp) around).written_iff
  simpa [pure, Takes] using fair

/-! ## Operands in order -/

theorem exists_chain {trees : List Tree} {code : Code} {exprs : List Expr}
    (ends : Ends ((trees.map Tree.part).mapM Part.toFixed) ctx p code exprs p') :
    ∃ captures : List Capture, captures.map tree = trees ∧ captures.map value = exprs ∧
      code = captures.flatMap Capture.code ∧ Chain ctx p captures p' := by
  induction trees generalizing p code exprs with
  | nil =>
    obtain ⟨rfl, rfl, rfl⟩ := ends_pure.mp ends
    exact ⟨[], rfl, rfl, rfl, rfl⟩
  | cons tree rest ih =>
    rw [List.map_cons, List.mapM_cons] at ends
    obtain ⟨first, value, q, _, ran, others, rfl⟩ := ends_bind.mp ends
    obtain ⟨later, values, p', _, moreRan, last, rfl⟩ := ends_bind.mp others
    obtain ⟨rfl, rfl, rfl⟩ := ends_pure.mp last
    obtain ⟨captures, trees, exprs, codes, chain⟩ := ih moreRan
    refine ⟨⟨tree, p, first, value, q⟩ :: captures, ?_, ?_, ?_, rfl, ran, chain⟩
    · rw [List.map_cons, trees]
    · rw [List.map_cons, exprs]
    · rw [List.flatMap_cons, ← codes, List.append_nil]

theorem Chain.made (chain : Chain ctx p captures p') : ∀ c ∈ captures, c.Made ctx := by
  induction captures generalizing p with
  | nil => simp
  | cons first rest ih => exact List.forall_mem_cons.mpr ⟨chain.2.1, ih chain.2.2⟩

/-- Temporaries for later operands have later numbers. -/
theorem Chain.temps_le (chain : Chain ctx p captures p') :
    ∀ c ∈ captures, p.scope.temps ≤ c.before.scope.temps := by
  induction captures generalizing p with
  | nil => simp
  | cons first rest ih =>
    obtain ⟨rfl, made, later⟩ := chain
    refine List.forall_mem_cons.mpr ⟨Nat.le_refl _, fun c mem => ?_⟩
    exact Nat.le_trans made.temps_le (ih later c mem)

theorem Chain.behind {front back : List Capture} (chain : Chain ctx p (front ++ c :: back) p') :
    Chain ctx c.after back p' := by
  induction front generalizing p with
  | nil => exact chain.2.2
  | cons first rest ih => exact ih chain.2.2

theorem not_takes_of_takes (first : c.Takes name) (order : c.after.scope.temps ≤ d.before.scope.temps) :
    ¬d.Takes name := by
  rintro ⟨k, above, -, same⟩
  obtain ⟨l, -, below, rfl⟩ := first
  have := tempName_inj same
  omega

/-- The code of captures writes what the code of one of them does. -/
theorem mem_codeWrites : name ∈ codeWrites (captures.flatMap Capture.code) ↔
    ∃ c ∈ captures, name ∈ codeWrites c.code := by
  induction captures with
  | nil => simp
  | cons first rest ih => simp [ih]

end Capture

open Capture in
/-- Operands of which one needs statements: the code captures their values in order, each in a variable
    unless it is constant. A variable is written behind its capture exactly if a later operand sets it,
    or if it is an assigned variable with the name of a temporary for a later operand. If neither is so,
    it holds its value however the later code runs. The flag of the loop around (`ctx.flag?`), which an
    operand that runs the loop's body again sets, is left out. -/
theorem operands_keep_values_unless_set {ctx : Context} {p p' : Progress} {trees : List Tree}
    {code : Code} {exprs : List Expr}
    (needed : ∃ tree ∈ trees, tree.isExpression p.scope.isLocal = false)
    (ends : Ends (operandValues (trees.map Tree.part)) ctx p code exprs p') :
    ∃ captures : List Capture,
      captures.map Capture.tree = trees ∧ captures.map Capture.value = exprs ∧
      code = captures.flatMap Capture.code ∧ Chain ctx p captures p' ∧
      (∀ c ∈ captures, if c.tree.isConstant then
          c.code = [] ∧ (c.value = .this ∨ ∃ value, c.value = .literal value)
        else ∃ name, c.value = .var name ∧ (c.Aliases name ∨ c.Takes name)) ∧
      ∀ front c back, captures = front ++ c :: back → ∀ name, c.value = .var name →
        ctx.flag? ≠ some name →
        (∀ d ∈ back, name ∈ codeWrites d.code ↔
          name ∈ d.tree.setNames ∨ (c.Aliases name ∧ d.Takes name)) ∧
        ((∀ d ∈ back, name ∉ d.tree.setNames ∧ ¬(c.Aliases name ∧ d.Takes name)) →
          ∀ self σ events exit σ',
            Runs self σ (.code (back.flatMap Capture.code)) events exit σ' → σ' name = σ name) := by
  have fixed : placing p.scope.isLocal trees = .fixed := by
    obtain ⟨tree, mem, needs⟩ := needed
    refine if_neg fun all => ?_
    rw [List.all_eq_true.mp all tree mem] at needs
    cases needs
  have ran := ends_operandRule_bind ends
  rw [fixed] at ran
  obtain ⟨captures, sameTrees, sameExprs, sameCode, chain⟩ := exists_chain ran
  refine ⟨captures, sameTrees, sameExprs, sameCode, chain, fun c mem => ?_, ?_⟩
  · have made := chain.made c mem
    cases constant : c.tree.isConstant with
    | true => exact made.constant constant
    | false => exact made.holder constant
  · rintro front c back rfl name held around
    have made : c.Made ctx := chain.made c (by simp)
    have varies : c.tree.isConstant = false := by
      refine Bool.eq_false_iff.mpr fun constant => ?_
      rcases (made.constant constant).2 with this | ⟨value, literal⟩
      · cases held.symm.trans this
      · cases held.symm.trans literal
    obtain ⟨own, same, source⟩ := made.holder varies
    cases held.symm.trans same
    have written : ∀ d ∈ back, name ∈ codeWrites d.code ↔
        name ∈ d.tree.setNames ∨ (c.Aliases name ∧ d.Takes name) := by
      intro d mem
      rw [(chain.behind.made d mem).writes around]
      refine or_congr_right ⟨fun taken => ⟨?_, taken⟩, And.right⟩
      refine source.resolve_right fun first => ?_
      exact not_takes_of_takes first (chain.behind.temps_le d mem) taken
    refine ⟨written, fun apart self σ events exit σ' runs => runs.unwritten fun mem => ?_⟩
    obtain ⟨d, later, mem⟩ := mem_codeWrites.mp mem
    exact ((written d later).mp mem).elim (apart d later).1 (apart d later).2

/-- Two assignments to one variable. -/
def twoAssignments : List Tree :=
  [.node (.assign "x" (.node (.literal (.int 1)) .int)) .int,
    .node (.assign "x" (.node (.literal (.int 2)) .int)) .int]

/-- The second assignment overwrites the variable that the first one is captured in. -/
theorem assignment_overwrites_capture :
    ∃ first second : Capture,
      Ends (operandValues (twoAssignments.map Tree.part)) ⟨"A", false, .void, []⟩ ⟨⟨.empty, 0, 0⟩, []⟩
        (first.code ++ second.code) [.var "x", .var "temp$1"] second.after ∧
      "x" ∈ codeWrites second.code ∧
      ∀ self σ, ∃ σ₁ σ₂, Runs self σ (.code first.code) [] .done σ₁ ∧
        Runs self σ₁ (.code second.code) [] .done σ₂ ∧
        σ₁ "x" = .literal (.int 1) ∧ σ₂ "x" = .literal (.int 2) := by
  have ends : Ends (operandValues (twoAssignments.map Tree.part)) ⟨"A", false, .void, []⟩
      ⟨⟨.empty, 0, 0⟩, []⟩
      [.declare .int "x" (.literal (.int 1)), .declare .int "temp$1" (.assign "x" (.literal (.int 2)))]
      [.var "x", .var "temp$1"]
      ⟨⟨(Locals.empty.insert "x" .int).insert "temp$1" .int, 1, 0⟩, []⟩ := by rfl
  obtain ⟨captures, sameTrees, sameValues, sameCode, chain, -, overwritten⟩ :=
    operands_keep_values_unless_set ⟨_, List.mem_cons_self, rfl⟩ ends
  obtain ⟨first, rest, rfl, firstTree, restTrees⟩ := List.map_eq_cons_iff.mp sameTrees
  obtain ⟨second, rest, rfl, secondTree, restTrees⟩ := List.map_eq_cons_iff.mp restTrees
  obtain rfl := List.map_eq_nil_iff.mp restTrees
  obtain ⟨start, made, -, -, last⟩ := chain
  have firstCode : first.code = [.declare .int "x" (.literal (.int 1))] := by
    have run : Ends first.tree.part.toFixed _ first.before first.code first.value first.after := made
    rw [start, firstTree] at run
    exact (Outcome.done.inj (Run.mk.inj run).1).1.symm
  have codes : first.code ++ second.code = _ := (by simpa using sameCode.symm)
  refine ⟨first, second, ?_, ?_, ?_⟩
  · rw [codes, last]
    exact ends
  · have held : first.value = .var "x" := (List.cons.inj sameValues).1
    refine ((overwritten [] first [second] rfl "x" held (by decide)).1 second (by simp)).mpr (.inl ?_)
    rw [secondTree, Tree.setNames_node]
    exact List.mem_cons_self
  · intro self σ
    rw [firstCode] at codes ⊢
    rw [show second.code = _ from (List.cons.inj codes).2]
    exact ⟨_, _, .codeCons (.declare .literal) .codeNil,
      .codeCons (.declare (.assign .literal)) .codeNil, Vars.set_self _ _ _, rfl⟩

/-! ## Receivers of calls that return nothing -/

theorem Lowers.kept_forms {ctx : Context} {p p' : Progress} {tree : Tree} {code : Code} {expr : Expr}
    (lowers : Lowers ctx p (.kept tree) code (.value expr) p') :
    expr = .this ∨ ∃ name, expr = .var name := by
  cases lowers with
  | keptTemp temp =>
    obtain ⟨name, held⟩ := temp.freshTemp_var
    cases held
    exact .inr ⟨name, rfl⟩
  | keptInline constant inline =>
    cases inline with
    | inlineTemp temp =>
      obtain ⟨name, held⟩ := temp.temp_var
      cases held
      exact .inr ⟨name, rfl⟩
    | inlineOwn placed own =>
      cases own with
      | own operands built =>
        rcases constant with same | ⟨name, same⟩ <;> cases same <;> cases operands <;> cases built
        · exact .inl rfl
        · exact .inr ⟨name, rfl⟩

/-- A call that returns nothing, where its value is wanted: the receiver is evaluated once, in front of
    the arguments, and then read by `target`. A variable that it is read from is written in between
    exactly if an argument sets it, or if it has the name of a temporary for the arguments. If nothing
    writes it, the call is made on the receiver, which is also what is put as the value of the call. Of
    what is written in between, the flag of the loop around (`ctx.flag?`) is left out. -/
theorem void_call_gives_receiver_unless_set {ctx : Context} {p p' : Progress} {tree : Tree}
    {method : String} {args : List Tree} {returns type : JavaType} {sink : Sink} {code : Code}
    (void : returns.isVoid = true)
    (ends : Ends ((Tree.node (.call (.value tree) method args returns) type).part.toStatement
      (.store sink)) ctx p code () p') :
    ∃ received target q argsCode exprs,
      Ends (voidReceiver (.value tree.part)) ctx p received (target, target) q ∧
      Ends (operandValues (args.map Tree.part)) ctx q argsCode exprs p' ∧
      code = received ++ (argsCode ++ [.eval (.call target method exprs)] ++ [.store sink target]) ∧
      (target = .this ∨ ∃ name, target = .var name) ∧
      (∀ name, target = .var name → ctx.flag? ≠ some name →
        (name ∈ codeWrites (argsCode ++ [.eval (.call target method exprs)]) ↔
          name ∈ args.flatMap Tree.setNames ∨ HandedOut q.scope.temps p'.scope.temps name)) ∧
      ∀ self σ value, target.read? self σ = some value →
        ∀ events σ₁, Runs self σ (.code (argsCode ++ [.eval (.call target method exprs)])) events .done
          σ₁ →
        ((∀ name, target = .var name → name ∉ codeWrites argsCode) →
          ∃ before values, events = before ++ [.call value method values]) ∧
        ((∀ name, target = .var name →
            name ∉ codeWrites (argsCode ++ [.eval (.call target method exprs)])) →
          ∀ last exit σ', Runs self σ₁ (.stmt [] (.store sink target)) last exit σ' →
            last = [.put sink.text value]) := by
  change Ends ((Tree.node (.call (.value tree) method args returns) type).lowering.statement
    (.store sink)) ctx p code () p' at ends
  rw [Tree.lowering_node] at ends
  change Ends (lowerCall (.value tree.part) method (args.map Tree.part) returns (.store sink)) ctx p code
    () p' at ends
  unfold lowerCall at ends
  rw [if_pos (by rw [void]; rfl)] at ends
  obtain ⟨received, ⟨target, value⟩, q, _, capture, rest, rfl⟩ := ends_bind.mp ends
  obtain ⟨argsCode, exprs, _, _, evaluated, others, rfl⟩ := ends_bind.mp rest
  obtain ⟨_, _, _, _, called, last, rfl⟩ := ends_bind.mp others
  obtain ⟨rfl, rfl⟩ := ends_emit.mp called
  obtain ⟨rfl, rfl⟩ := ends_putValue last
  obtain ⟨_, kept, same⟩ := ends_map.mp (voidReceiver_value tree.part ▸ capture)
  cases same
  have form := (tree.derives.toKept kept).kept_forms
  have operands := ends_operandValues (fun tree _ => tree.derives) evaluated
  refine ⟨received, target, q, argsCode, exprs, capture, evaluated, ?_, form, ?_, ?_⟩
  · simp [Destination.put]
  · rintro name rfl around
    have fair := (operands.writes (by simp) around).written_iff
    simpa using fair
  · intro self σ value read events σ₁ runs
    refine ⟨fun kept => ?_, fun kept last exit σ' put => ?_⟩
    · rcases Java.runs_append runs with ⟨left, -⟩ | ⟨first, second, σ₀, rfl, argsRun, callRun⟩
      · cases left rfl
      have readThere : target.read? self σ₀ = some value := by
        rw [← read]
        exact Expr.read?_congr fun name same => argsRun.unwritten (kept name same)
      cases callRun with
      | codeCons call done =>
        cases done
        obtain ⟨before, values, -, rfl⟩ := call.call_made readThere
        exact ⟨first ++ before, values, by simp⟩
      | codeLeaves _ left => cases left rfl
    · have readThere : target.read? self σ₁ = some value := by
        rw [← read]
        exact Expr.read?_congr fun name same => runs.unwritten (kept name same)
      exact (put.put_read readThere).1

/-- A call on a variable that its argument assigns. -/
def reassigningCall : Tree :=
  .node (.call (.value (.node (.var "x") .object)) "add"
    [.node (.assign "x" (.node (.var "y") .object)) .object] .void) .void

/-- The argument overwrites the receiver: the call is made on the receiver, but another value is put as
    that of the call. -/
theorem argument_overwrites_receiver :
    ∃ p' between,
      Ends (reassigningCall.part.toStatement (.store (.into "r"))) ⟨"A", false, .void, []⟩
        ⟨⟨(Locals.empty.insert "x" .object).insert "y" .object, 0, 0⟩, []⟩
        (between ++ [.store (.into "r") (.var "x")]) () p' ∧
      "x" ∈ codeWrites between ∧
      ∀ self σ, ∃ σ', Runs self σ (.code (between ++ [.store (.into "r") (.var "x")]))
        [.call (σ "x") "add" [σ "y"], .put "r = " (σ "y")] .done σ' := by
  have ends : Ends (reassigningCall.part.toStatement (.store (.into "r"))) ⟨"A", false, .void, []⟩
      ⟨⟨(Locals.empty.insert "x" .object).insert "y" .object, 0, 0⟩, []⟩
      [.eval (.call (.var "x") "add" [.assign "x" (.var "y")]), .store (.into "r") (.var "x")] ()
      ⟨⟨(Locals.empty.insert "x" .object).insert "y" .object, 0, 0⟩, []⟩ := by rfl
  obtain ⟨received, target, q, argsCode, exprs, kept, -, code, -, written, -⟩ :=
    void_call_gives_receiver_unless_set rfl ends
  obtain ⟨noCode, named⟩ := Outcome.done.inj (Run.mk.inj kept).1
  cases (Prod.mk.inj named).1
  cases noCode
  have between : [.eval (.call (.var "x") "add" [.assign "x" (.var "y")])] =
      argsCode ++ [.eval (.call (.var "x") "add" exprs)] := List.append_cancel_right code
  refine ⟨_, [.eval (.call (.var "x") "add" [.assign "x" (.var "y")])], ends, ?_, fun self σ => ?_⟩
  · rw [between]
    refine (written "x" rfl (by decide)).mpr (.inl ?_)
    rw [List.flatMap_singleton, Tree.setNames_node]
    exact List.mem_cons_self
  · have call : Runs self σ (.expr (.call (.var "x") "add" [.assign "x" (.var "y")]))
        [.call (σ "x") "add" [σ "y"]] (.value .null) (σ.set "x" (σ "y")) :=
      .operation rfl (.exprsCons .var (.exprsCons (.assign .var) .exprsNil)) trivial
    have evaluated : Runs self σ (.stmt [] (.eval (.call (.var "x") "add" [.assign "x" (.var "y")])))
        [.call (σ "x") "add" [σ "y"]] .done (σ.set "x" (σ "y")) :=
      .effect rfl (.exprsCons call .exprsNil)
    have put : Runs self (σ.set "x" (σ "y")) (.stmt [] (.store (.into "r") (.var "x")))
        [.put "r = " (σ "y")] .done ((σ.set "x" (σ "y")).set "r" (σ "y")) :=
      .store .var
    exact ⟨_, .codeCons evaluated (.codeCons put .codeNil)⟩

end JavaBackend
