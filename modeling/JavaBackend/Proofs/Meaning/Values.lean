import JavaBackend.Proofs.Meaning.Simulation

/-!
# The code of values

What is known of the code of a tree carries over to all the ways in which a parent asks for the tree's
value: as an expression, in a variable, or as one of several operands. `Setting.Evaluates` is what is
known of the tree: its own expression has its value, and so does its code that puts the value
somewhere.
-/

namespace JavaBackend

open Java (Stmt Code Expr Sink Exec)
open Lower

variable {β γ : Type} {S : Setting} {ctx : Context} {p p' : Progress} {code : Code}

namespace Setting

/-- What the tree means in the setting. -/
def meaning (S : Setting) (tree : Tree) : Meaning Value := tree.meaning S.world S.n

theorem meaning_node (S : Setting) (kind : Kind Tree) (type : JavaType) :
    S.meaning (.node kind type) = (kind.map S.meaning).meaning S.world S.n type :=
  Tree.meaning_node S.world S.n kind type

end Setting

/-- A node's value in a variable that is there for the node. -/
def Part.intoTemp (part : Part) : Lower Temp := do
  let name ← Lower.newDefaultTemp part.tree.type.held
  part.toStatement (.store (.into name))
  return ⟨name, some part⟩

namespace Setting

/-- The tree's code puts the tree's value where it belongs. -/
structure Stores (S : Setting) (tree : Tree) : Prop where
  store : ∀ {ctx p code sink p'}, S.Outer p.scope.temps sink →
    Ends (tree.part.toStatement (.store sink)) ctx p code () p' →
    S.Delivers ctx p.scope.temps p'.scope.temps code sink (S.meaning tree)
  temp : tree.part.toTemp = tree.part.intoTemp

/-- The tree's code has the tree's value, however a parent asks for it. -/
structure Evaluates (S : Setting) (tree : Tree) : Prop extends S.Stores tree where
  inline : ∀ {ctx p code expr p'}, Ends tree.part.toInline ctx p code expr p' →
    S.Yields ctx p.scope.temps p'.scope.temps code (expr.eval S.world) (S.meaning tree)

end Setting

theorem Lower.ends_newDefaultTemp {type : JavaType} {name : String}
    (ends : Ends (newDefaultTemp type) ctx p code name p') :
    code = [.declare type (tempName (p.scope.temps + 1)) (.literal type.defaultValue)] ∧
      name = tempName (p.scope.temps + 1) ∧ p'.scope.temps = p.scope.temps + 1 := by
  obtain ⟨rfl, rfl, rfl⟩ := ends_newTemp.mp ends
  exact ⟨rfl, rfl, rfl⟩

namespace Setting

variable {tree : Tree}

theorem Stores.toTemp (stores : S.Stores tree) {temp : Temp}
    (ends : Ends tree.part.toTemp ctx p code temp p') :
    S.Fixes ctx p.scope.temps p'.scope.temps code (Expr.eval S.world (.var temp.name))
      (S.meaning tree) := by
  rw [stores.temp] at ends
  obtain ⟨_, name, p₁, _, declared, rest, rfl⟩ := ends_bind.mp ends
  obtain ⟨rfl, rfl, grown⟩ := ends_newDefaultTemp declared
  obtain ⟨stored, _, p₂, _, put, last, rfl⟩ := ends_bind.mp rest
  obtain ⟨rfl, rfl, rfl⟩ := ends_pure.mp last
  have outer : S.Outer p₁.scope.temps (.into (tempName (p.scope.temps + 1))) :=
    .inr ⟨p.scope.temps + 1, Nat.le_of_eq grown.symm, rfl⟩
  have delivers := stores.store outer put
  rw [grown] at delivers
  rw [List.append_nil]
  exact delivers.intoTemp _ _

theorem Stores.toTempVar (stores : S.Stores tree) {expr : Expr}
    (ends : Ends tree.part.toTempVar ctx p code expr p') :
    S.Fixes ctx p.scope.temps p'.scope.temps code (expr.eval S.world) (S.meaning tree) := by
  obtain ⟨temp, held, rfl⟩ := ends_map.mp ends
  exact stores.toTemp held

namespace Evaluates

/-- The value of a tree that is written in place. -/
theorem inPlace (evaluates : S.Evaluates tree)
    (expression : tree.isExpression p.scope.isLocal = true) {expr : Expr}
    (ends : Ends tree.part.toInline ctx p code expr p') :
    code = [] ∧ p'.scope = p.scope ∧
      S.Yields ctx p.scope.temps p.scope.temps [] (expr.eval S.world) (S.meaning tree) := by
  have yields := evaluates.inline ends
  obtain ⟨rfl, same⟩ := Tree.inPlace_of_isExpression expression ends
  rw [same] at yields
  exact ⟨rfl, same, yields⟩

theorem toExpr (evaluates : S.Evaluates tree) {expr : Expr}
    (ends : Ends tree.part.toExpr ctx p code expr p') :
    S.Yields ctx p.scope.temps p'.scope.temps code (expr.eval S.world) (S.meaning tree) := by
  unfold Ends at ends
  rw [Part.toExpr_apply] at ends
  split at ends
  · exact evaluates.inline ends
  · exact (evaluates.toTempVar ends).yields

theorem toFreshTemp (evaluates : S.Evaluates tree) {temp : Temp}
    (ends : Ends tree.part.toFreshTemp ctx p code temp p') :
    S.Fixes ctx p.scope.temps p'.scope.temps code (Expr.eval S.world (.var temp.name))
      (S.meaning tree) := by
  unfold Ends at ends
  rw [Part.toFreshTemp_apply] at ends
  split at ends
  · next expression =>
    obtain ⟨_, init, p₁, _, inline, rest, rfl⟩ := ends_bind.mp ends
    obtain ⟨_, name, p₂, _, declared, last, rfl⟩ := ends_bind.mp rest
    obtain ⟨rfl, rfl, rfl⟩ := ends_newTemp.mp declared
    obtain ⟨rfl, rfl, rfl⟩ := ends_pure.mp last
    rw [List.append_nil]
    exact (evaluates.inline inline).declare _
  · exact evaluates.toTemp ends

/-- The value of an operand that is evaluated before those that follow it. -/
theorem toFixed (evaluates : S.Evaluates tree) {expr : Expr}
    (ends : Ends tree.part.toFixed ctx p code expr p') :
    S.Fixes ctx p.scope.temps p'.scope.temps code (expr.eval S.world) (S.meaning tree) := by
  obtain ⟨kind, type⟩ := tree
  have fresh : Ends (do return Expr.var (← (Tree.node kind type).part.toFreshTemp).name) ctx p code
      expr p' → S.Fixes ctx p.scope.temps p'.scope.temps code (expr.eval S.world)
        (S.meaning (.node kind type)) := by
    intro ends
    obtain ⟨_, temp, _, _, held, last, rfl⟩ := ends_bind.mp ends
    obtain ⟨rfl, rfl, rfl⟩ := ends_pure.mp last
    rw [List.append_nil]
    exact evaluates.toFreshTemp held
  cases kind with
  | literal value =>
    obtain ⟨rfl, rfl, rfl⟩ := ends_pure.mp ends
    rw [S.meaning_node]
    exact fixes_pure fun _ _ => rfl
  | self =>
    obtain ⟨rfl, rfl, rfl⟩ := ends_pure.mp ends
    rw [S.meaning_node]
    exact fixes_pure fun _ _ => rfl
  | _ => exact fresh ends

end Evaluates

end Setting

/-! ## Operands -/

theorem Receiver.toList_map {α : Type} (f : α → β) (receiver : Receiver α) :
    (receiver.map f).toList = receiver.toList.map f := by
  cases receiver <;> rfl

/-- What several trees mean, one after the other. -/
def Setting.meanings (S : Setting) (trees : List Tree) : Meaning (List Value) :=
  (trees.map S.meaning).mapM id

theorem Setting.meanings_cons (S : Setting) (tree : Tree) (trees : List Tree) :
    S.meanings (tree :: trees) = (do
      let value ← S.meaning tree
      let values ← S.meanings trees
      return value :: values) := by
  unfold meanings
  rw [List.map_cons, List.mapM_cons]
  rfl

namespace Setting

/-- Operands that are written in place. -/
theorem yields_inPlace {trees : List Tree} (evaluates : ∀ tree ∈ trees, S.Evaluates tree)
    (expressions : ∀ tree ∈ trees, tree.isExpression p.scope.isLocal = true) {exprs : List Expr}
    (ends : Ends ((trees.map Tree.part).mapM Part.toInline) ctx p code exprs p') :
    code = [] ∧ p'.scope = p.scope ∧
      S.Yields ctx p.scope.temps p.scope.temps [] (Expr.evalAll S.world exprs)
        (S.meanings trees) := by
  induction trees generalizing p code exprs with
  | nil =>
    obtain ⟨rfl, rfl, rfl⟩ := ends_pure.mp ends
    exact ⟨rfl, rfl, yields_pure []⟩
  | cons tree trees ih =>
    rw [List.map_cons, List.mapM_cons] at ends
    obtain ⟨_, expr, p₁, _, first, others, rfl⟩ := ends_bind.mp ends
    obtain ⟨_, exprs, p₂, _, rest, last, rfl⟩ := ends_bind.mp others
    obtain ⟨rfl, rfl, rfl⟩ := ends_pure.mp last
    obtain ⟨rfl, same, yields⟩ := (evaluates tree List.mem_cons_self).inPlace
      (expressions tree List.mem_cons_self) first
    obtain ⟨rfl, same', yieldsRest⟩ := ih
      (fun other mem => evaluates other (List.mem_cons_of_mem tree mem))
      (fun other mem => by rw [same]; exact expressions other (List.mem_cons_of_mem tree mem)) rest
    rw [same] at same' yieldsRest
    refine ⟨rfl, same', ?_⟩
    rw [S.meanings_cons]
    exact yields.bind fun value => yieldsRest.map (value :: ·)

/-- Operands that are evaluated before they are used. -/
theorem fixes_before {trees : List Tree} (evaluates : ∀ tree ∈ trees, S.Evaluates tree)
    {exprs : List Expr} (ends : Ends ((trees.map Tree.part).mapM Part.toFixed) ctx p code exprs p') :
    S.Fixes ctx p.scope.temps p'.scope.temps code (Expr.evalAll S.world exprs)
      (S.meanings trees) := by
  induction trees generalizing p code exprs with
  | nil =>
    obtain ⟨rfl, rfl, rfl⟩ := ends_pure.mp ends
    exact fixes_pure fun _ _ => rfl
  | cons tree trees ih =>
    rw [List.map_cons, List.mapM_cons] at ends
    obtain ⟨_, expr, p₁, _, first, others, rfl⟩ := ends_bind.mp ends
    obtain ⟨_, exprs, p₂, _, rest, last, rfl⟩ := ends_bind.mp others
    obtain ⟨rfl, rfl, rfl⟩ := ends_pure.mp last
    have fixes := (evaluates tree List.mem_cons_self).toFixed first
    have fixesRest := ih (fun other mem => evaluates other (List.mem_cons_of_mem tree mem)) rest
    rw [S.meanings_cons, List.append_nil]
    exact fixes.both (· :: ·) fixesRest

/-- Operands are all written in place, or all evaluated before they are used. -/
def Operands (S : Setting) (ctx : Context) (lo hi : Nat) (code : Code) (rest : Exec β)
    (meaning : Meaning β) : Prop :=
  (code = [] ∧ hi = lo ∧ S.Yields ctx lo lo [] rest meaning) ∨ S.Fixes ctx lo hi code rest meaning

theorem Operands.yields {lo hi : Nat} {rest : Exec β} {meaning : Meaning β}
    (operands : S.Operands ctx lo hi code rest meaning) : S.Yields ctx lo hi code rest meaning := by
  rcases operands with ⟨rfl, rfl, yields⟩ | fixes
  · exact yields
  · exact fixes.yields

theorem operands_mapM {trees : List Tree} (evaluates : ∀ tree ∈ trees, S.Evaluates tree)
    {inPlace : Bool}
    (expressions : inPlace = true → ∀ tree ∈ trees, tree.isExpression p.scope.isLocal = true)
    {exprs : List Expr} (ends : Ends ((trees.map Tree.part).mapM
      (if inPlace then Part.toInline else Part.toFixed)) ctx p code exprs p') :
    S.Operands ctx p.scope.temps p'.scope.temps code (Expr.evalAll S.world exprs)
      (S.meanings trees) := by
  cases inPlace with
  | true =>
    obtain ⟨rfl, same, yields⟩ := yields_inPlace evaluates (expressions rfl) ends
    exact .inl ⟨rfl, congrArg Scope.temps same, yields⟩
  | false => exact .inr (fixes_before evaluates ends)

theorem operands_operandValues {trees : List Tree} (evaluates : ∀ tree ∈ trees, S.Evaluates tree)
    {exprs : List Expr} (ends : Ends (operandValues (trees.map Tree.part)) ctx p code exprs p') :
    S.Operands ctx p.scope.temps p'.scope.temps code (Expr.evalAll S.world exprs)
      (S.meanings trees) := by
  unfold operandValues Ends at ends
  rw [operandRule_bind] at ends
  refine operands_mapM evaluates (fun all => ?_) ends
  exact List.forall_mem_map.mp (List.all_eq_true.mp all)

/-- A value that is at hand, and operands after it. -/
theorem Fixes.pair {lo mid hi : Nat} {code₁ code₂ : Code} {rest₁ : Exec β} {rest₂ : Exec γ}
    {meaning₁ : Meaning β} {meaning₂ : Meaning γ} (first : S.Fixes ctx lo mid code₁ rest₁ meaning₁)
    (second : S.Operands ctx mid hi code₂ rest₂ meaning₂) :
    S.Yields ctx lo hi (code₁ ++ code₂) (do let a ← rest₁; let b ← rest₂; return (a, b))
      (do let a ← meaning₁; let b ← meaning₂; return (a, b)) := by
  rcases second with ⟨rfl, rfl, yields⟩ | fixes
  · rw [List.append_nil]
    exact first.yields.bind fun a => yields.map (a, ·)
  · exact (first.both Prod.mk fixes).yields

/-! ## Calls -/

/-- The expression of the receiver that a call has if it names none. -/
theorem fixes_ownReceiver {expr : Expr} (ends : Ends ownReceiver ctx p code expr p') :
    code = [] ∧ p = p' ∧
      S.Fixes ctx p.scope.temps p.scope.temps [] (expr.eval S.world) (pure S.world.ownTarget) := by
  obtain ⟨_, _, _, _, around, last, rfl⟩ := ends_bind.mp ends
  obtain ⟨rfl, rfl, rfl⟩ := ends_context.mp around
  obtain ⟨rfl, rfl, rfl⟩ := ends_pure.mp last
  refine ⟨rfl, rfl, Nat.le_refl _, fun _ ρ h ready => ?_⟩
  refine ⟨(), ρ, rfl, Frame.refl _ _ ρ, fun ρ' h' _ => ?_⟩
  unfold World.ownTarget
  rw [ready.static, ready.owner]
  cases S.world.isStatic <;> rfl

/-- What a call answers. -/
def callMeaning (S : Setting) (receiver : Receiver Tree) (method : String) (args : List Tree) :
    Meaning Value := do
  let (target, _) ← (receiver.map S.meaning).meaning S.world
  let args ← S.meanings args
  S.world.ask (.call target method args)

/-- A call, once its receiver and its arguments are evaluated. -/
theorem Yields.call {lo hi : Nat} {target : Expr} {args : List Expr} {receiver : Meaning Value}
    {arguments : Meaning (List Value)} (method : String)
    (yields : S.Yields ctx lo hi code
      (do let a ← target.eval S.world; let b ← Expr.evalAll S.world args; return (a, b))
      (do let a ← receiver; let b ← arguments; return (a, b))) :
    S.Yields ctx lo hi code (Expr.eval S.world (.call target method args))
      (do let a ← receiver; let b ← arguments; S.world.ask (.call a method b)) := by
  have answered := yields.bind fun pair => yields_ask (.call pair.1 method pair.2)
  simp only [bind_assoc, pure_bind] at answered
  exact answered

theorem ends_call {first : Lower Expr} {rest : Lower (List Expr)} {method : String} {expr : Expr}
    (ends : Ends (do let target ← first; return Expr.call target method (← rest)) ctx p code expr p') :
    ∃ code₁ target p₁ code₂ args, Ends first ctx p code₁ target p₁ ∧
      Ends rest ctx p₁ code₂ args p' ∧ code = code₁ ++ code₂ ∧ expr = .call target method args := by
  obtain ⟨code₁, target, p₁, _, evaluated, others, rfl⟩ := ends_bind.mp ends
  obtain ⟨code₂, args, _, _, operands, last, rfl⟩ := ends_bind.mp others
  obtain ⟨rfl, rfl, rfl⟩ := ends_pure.mp last
  exact ⟨code₁, target, p₁, code₂, args, evaluated, operands, by rw [List.append_nil], rfl⟩

theorem yields_callExpr {receiver : Receiver Tree} {args : List Tree}
    (evaluates : ∀ tree ∈ receiver.toList ++ args, S.Evaluates tree) (method : String) {expr : Expr}
    (ends : Ends (callExpr (receiver.map Tree.part) method (args.map Tree.part)) ctx p code expr p') :
    S.Yields ctx p.scope.temps p'.scope.temps code (expr.eval S.world)
      (S.callMeaning receiver method args) := by
  unfold callExpr Ends at ends
  rw [operandRule_bind, Receiver.toList_map, ← List.map_append] at ends
  generalize inPlace : List.all _ (fun part : Part => part.tree.isExpression p.scope.isLocal) = all
    at ends
  have expressions : all = true → ∀ tree ∈ receiver.toList ++ args,
      tree.isExpression p.scope.isLocal = true := by
    rintro rfl
    exact List.forall_mem_map.mp (List.all_eq_true.mp inPlace)
  have argsEvaluate := fun tree mem => evaluates tree (List.mem_append_right receiver.toList mem)
  have argsExpressions : all = true → ∀ tree ∈ args, tree.isExpression p.scope.isLocal = true :=
    fun holds tree mem => expressions holds tree (List.mem_append_right _ mem)
  unfold callMeaning
  cases receiver with
  | implicit =>
    obtain ⟨_, target, p₁, _, exprs, first, operands, rfl, rfl⟩ := ends_call ends
    obtain ⟨rfl, rfl, own⟩ := fixes_ownReceiver first
    exact (own.pair (operands_mapM argsEvaluate argsExpressions operands)).call method
  | named owner =>
    obtain ⟨_, target, p₁, _, exprs, first, operands, rfl, rfl⟩ := ends_call ends
    obtain ⟨rfl, rfl, rfl⟩ := ends_pure.mp first
    have type : S.Fixes ctx p.scope.temps p.scope.temps [] (Expr.eval S.world (.owner owner.source))
        (pure (.owner owner.source)) := fixes_pure fun _ _ => rfl
    exact (type.pair (operands_mapM argsEvaluate argsExpressions operands)).call method
  | value tree =>
    obtain ⟨_, target, p₁, _, exprs, first, operands, rfl, rfl⟩ := ends_call ends
    have evaluated := evaluates tree List.mem_cons_self
    have meaning : ∀ rest : Value → Meaning Value,
        ((Receiver.value (S.meaning tree)).meaning S.world >>= fun pair => rest pair.1) =
          S.meaning tree >>= rest := by
      intro rest
      simp [Receiver.meaning]
    refine Eq.mp (congrArg _ (meaning _).symm) (Yields.call method ?_)
    cases all with
    | true =>
      obtain ⟨rfl, same, yields⟩ := evaluated.inPlace (expressions rfl tree List.mem_cons_self) first
      rw [← same] at argsExpressions
      obtain ⟨rfl, same', yieldsArgs⟩ := yields_inPlace argsEvaluate (argsExpressions rfl) operands
      rw [same] at yieldsArgs
      rw [same', same]
      exact yields.bind fun a => yieldsArgs.map (a, ·)
    | false =>
      exact (evaluated.toFixed first).pair (.inr (fixes_before argsEvaluate operands))

/-- The receiver of a call that returns nothing, and the value of the call, are both at hand. -/
def Keeps (S : Setting) (ctx : Context) (lo hi : Nat) (code : Code) (target value : Expr)
    (meaning : Meaning (Value × Value)) : Prop :=
  S.Simulates ctx lo hi [] meaning (S.exec code) fun ρ => Reaches fun pair _ ρ' =>
    Frame lo hi ρ ρ' ∧ S.Settled hi (target.eval S.world) pair.1 ρ' ∧
      S.Settled hi (value.eval S.world) pair.2 ρ'

theorem Fixes.keeps {lo hi : Nat} {expr : Expr} {meaning : Meaning Value}
    (fixes : S.Fixes ctx lo hi code (expr.eval S.world) meaning) :
    S.Keeps ctx lo hi code expr expr (do let value ← meaning; return (value, value)) where
  grows := fixes.grows
  agrees below ρ h ready := by
    rw [bind_pure_comp]
    refine (fixes.agrees below ρ h ready).map _ ?_
    rintro value _ ρ' h' ⟨frame, settled⟩
    exact ⟨(), ρ', rfl, frame, settled, settled⟩

/-- A variable that nobody else changes is at hand at any time. -/
theorem fixes_stable {lo : Nat} {name : String} (known : name ∈ S.names)
    (stable : S.world.isVolatile name = false) :
    S.Fixes ctx lo lo [] (Expr.eval S.world (.var name)) (S.world.read name) := by
  have reads : S.world.read name = pure (S.world.value name) := by
    unfold World.read
    rw [stable]
    rfl
  rw [reads]
  refine ⟨Nat.le_refl lo, fun below ρ h ready => ⟨(), ρ, rfl, Frame.refl lo lo ρ, ?_⟩⟩
  intro ρ' h' frame
  have above := ready.above
  have unbound : ρ' name = none := by
    rw [frame name fun k low high => S.clean name known k (by omega) high]
    exact ready.names name known
  show Exec.readVar S.world name ρ' h' = _
  unfold Exec.readVar
  rw [unbound, reads]
  rfl

theorem keeps_voidReceiver {receiver : Receiver Tree}
    (evaluates : ∀ tree ∈ receiver.toList, S.Evaluates tree)
    (stable : ∀ name type, receiver = .value (.node (.var name) type) →
      name ∈ S.names ∧ S.world.isVolatile name = false) {target value : Expr}
    (ends : Ends (voidReceiver (receiver.map Tree.part)) ctx p code (target, value) p') :
    S.Keeps ctx p.scope.temps p'.scope.temps code target value
      ((receiver.map S.meaning).meaning S.world) := by
  cases receiver with
  | implicit =>
    obtain ⟨_, _, _, _, around, rest, rfl⟩ := ends_bind.mp ends
    obtain ⟨rfl, rfl, rfl⟩ := ends_context.mp around
    obtain ⟨_, own, _, _, first, last, rfl⟩ := ends_bind.mp rest
    obtain ⟨rfl, same, rfl⟩ := ends_pure.mp last
    cases same
    obtain ⟨rfl, rfl, fixes⟩ := fixes_ownReceiver first
    refine ⟨Nat.le_refl _, fun below ρ h ready => ?_⟩
    obtain ⟨_, ρ', reached, frame, settled⟩ := fixes.agrees below ρ h ready
    refine ⟨(), ρ', reached, frame, settled, fun ρ'' h'' _ => ?_⟩
    unfold World.ownValue
    rw [ready.static]
    cases S.world.isStatic <;> rfl
  | named owner =>
    obtain ⟨rfl, same, rfl⟩ := ends_pure.mp ends
    cases same
    refine ⟨Nat.le_refl _, fun below ρ h ready => ⟨(), ρ, rfl, Frame.refl _ _ ρ, ?_, ?_⟩⟩
    · exact fun _ _ _ => rfl
    · exact fun _ _ _ => rfl
  | value tree =>
    have evaluated := evaluates tree (List.mem_singleton_self tree)
    change Ends (voidReceiver (.value tree.part)) ctx p code (target, value) p' at ends
    rw [voidReceiver_value] at ends
    obtain ⟨kept, first, same⟩ := ends_map.mp ends
    cases same
    refine Fixes.keeps ?_
    obtain ⟨kind, type⟩ := tree
    have fresh : Ends ((fun temp : Temp => Expr.var temp.name) <$>
        (Tree.node kind type).part.toFreshTemp) ctx p code target p' →
        S.Fixes ctx p.scope.temps p'.scope.temps code (target.eval S.world)
          (S.meaning (.node kind type)) := by
      intro ends
      obtain ⟨temp, held, rfl⟩ := ends_map.mp ends
      exact evaluated.toFreshTemp held
    cases kind with
    | var name =>
      obtain ⟨rfl, rfl, rfl⟩ := ends_pure.mp first
      obtain ⟨known, unchanged⟩ := stable name type rfl
      rw [S.meaning_node]
      exact fixes_stable known unchanged
    | self =>
      obtain ⟨rfl, rfl, rfl⟩ := ends_pure.mp first
      rw [S.meaning_node]
      exact fixes_pure fun _ _ => rfl
    | _ => exact fresh first

/-- A call whose receiver is at hand, and its value after it. -/
theorem exec_call_store {target value : Expr} {args : List Expr} {callee : Value} {ρ : Java.Env}
    {lo : Nat} (settled : S.Settled lo (target.eval S.world) callee ρ) (method : String) (sink : Sink)
    (h : History) :
    S.exec [.eval (.call target method args), .store sink value] ρ h =
      (do
        let args ← Expr.evalAll S.world args
        let _ ← Exec.ofMeaning (S.world.ask (.call callee method args))
        let value ← value.eval S.world
        Exec.deliver S.world sink value) ρ h := by
  have unfolded : S.exec [.eval (.call target method args), .store sink value] = (do
      let callee ← target.eval S.world
      let args ← Expr.evalAll S.world args
      let _ ← Exec.ofMeaning (S.world.ask (.call callee method args))
      let value ← value.eval S.world
      Exec.deliver S.world sink value) := by
    unfold exec
    simp only [Stmt.execCode, Stmt.exec, Expr.eval, bind_assoc, pure_bind, bind_pure_unit]
  rw [unfolded, Exec.bind_apply, settled ρ h (Frame.refl lo S.top ρ)]

theorem Keeps.call {lo mid hi : Nat} {code₁ code₂ : Code} {target value : Expr} {args : List Expr}
    {receiver : Meaning (Value × Value)} {arguments : Meaning (List Value)}
    (keeps : S.Keeps ctx lo mid code₁ target value receiver)
    (operands : S.Operands ctx mid hi code₂ (Expr.evalAll S.world args) arguments)
    (method : String) (sink : Sink) :
    S.Delivers ctx lo hi
      (code₁ ++ (code₂ ++ [.eval (.call target method args), .store sink value])) sink (do
        let pair ← receiver
        let args ← arguments
        let _ ← S.world.ask (.call pair.1 method args)
        return pair.2) where
  grows := Nat.le_trans keeps.grows operands.yields.grows
  agrees below ρ h ready := by
    have low := keeps.grows
    have high := operands.yields.grows
    rw [exec_append]
    refine ((keeps.agrees (by omega) ρ h ready).mono (fun _ _ _ done => done)
      fun _ near => near.mono (Nat.le_refl lo) high).bind ?_
    rintro ⟨callee, kept⟩ _ ρ₁ h₁ ⟨frame₁, settledCallee, settledKept⟩
    have ready₁ := ready.frame frame₁ low (by omega)
    have across := frame₁.mono (Nat.le_refl lo) high
    -- What is left once the arguments are at hand, or next in turn.
    have last : ∀ (vs : List Value) ρ₂ h₂, Frame mid hi ρ₁ ρ₂ →
        Matches [] (fun value h result => ∃ ρ', Frame lo hi ρ ρ' ∧
          result = Exec.deliver S.world sink value ρ' h) (Frame lo hi ρ)
          ((do let _ ← S.world.ask (.call callee method vs); return kept) h₂)
          ((do
            let _ ← Exec.ofMeaning (S.world.ask (.call callee method vs))
            let v ← value.eval S.world
            Exec.deliver S.world sink v) ρ₂ h₂) := by
      intro vs ρ₂ h₂ frame₂
      refine ⟨ρ₂, across.trans (frame₂.mono low (Nat.le_refl hi)), ?_⟩
      show (value.eval S.world >>= Exec.deliver S.world sink) ρ₂ _ = _
      rw [Exec.bind_apply, settledKept ρ₂ _ (frame₂.mono (Nat.le_refl mid) below)]
    rcases operands with ⟨rfl, rfl, yields⟩ | fixes
    · rw [List.nil_append, exec_call_store settledCallee]
      refine (yields.agrees below ρ₁ h₁ ready₁ |>.mono (fun _ _ _ done => done)
        fun _ near => across.trans (near.mono low (Nat.le_refl _))).bind ?_
      rintro _ vs ρ₂ h₂ ⟨rfl, frame₂⟩
      exact last vs ρ₂ h₂ frame₂
    · rw [exec_append]
      refine (fixes.agrees below ρ₁ h₁ ready₁ |>.mono (fun _ _ _ done => done)
        fun _ near => across.trans (near.mono low (Nat.le_refl _))).bind ?_
      rintro vs _ ρ₂ h₂ ⟨frame₂, settledArgs⟩
      rw [exec_call_store (settledCallee.mono frame₂ high below), Exec.bind_apply,
        settledArgs ρ₂ h₂ (Frame.refl hi S.top ρ₂)]
      exact last vs ρ₂ h₂ frame₂

end Setting

end JavaBackend
