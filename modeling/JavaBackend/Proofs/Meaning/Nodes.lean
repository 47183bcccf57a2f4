import JavaBackend.Proofs.Meaning.Values

/-!
# The code of nodes

One rule for each kind of node without loops and jumps: if the code of the children does what the
children mean, then the code of the node does what the node means. A node is lowered for its value
(`Setting.Evaluates`) or for its effects (`Setting.Acts`), and the rules come in pairs.
-/

namespace JavaBackend

open Java (Stmt Code Expr Sink Exec)
open Lower

variable {α β : Type} {S : Setting} {ctx : Context} {p p' : Progress} {code : Code} {jumps : Bool}
  {type : JavaType}

/-- The value of the left operand that decides a logical operator. -/
def BinaryOp.decides (op : BinaryOp) : Bool := op == .or

/-- The loops that a jump can leave. -/
def Context.reach (ctx : Context) (jumps : Bool) : List EnclosingLoop :=
  if jumps then ctx.loops else []

theorem Context.head?_reach (ctx : Context) (jumps : Bool) :
    ∀ loop ∈ (ctx.reach jumps).head?, loop ∈ ctx.loops.head? := by
  intro loop mem
  cases jumps with
  | true => exact mem
  | false => cases mem

namespace Setting

/-- The tree's code does what the tree does. If `jumps` holds, a jump may leave it. -/
def Acts (S : Setting) (jumps : Bool) (tree : Tree) : Prop :=
  ∀ ⦃ctx p code p'⦄, Ends (tree.part.toStatement .discard) ctx p code () p' →
    S.Performs ctx p.scope.temps p'.scope.temps (ctx.reach jumps) code (S.meaning tree)

/-! ## Nodes with an expression of their own -/

/-- A node is evaluated in place if it can be, and else by the code that puts its value somewhere. -/
theorem Stores.evaluates {kind : Kind Tree} (stores : S.Stores (.node kind type))
    (own : ∀ value ∈ ((kind.map Tree.part).lowering type).inline, ∀ {ctx p code expr p'},
      (Tree.node kind type).isInline p.scope.isLocal = true → Ends value ctx p code expr p' →
      S.Yields ctx p.scope.temps p'.scope.temps code (expr.eval S.world)
        (S.meaning (.node kind type))) :
    S.Evaluates (.node kind type) where
  toStores := stores
  inline {ctx p code expr p'} ends := by
    change Ends (Tree.node kind type).toInline ctx p code expr p' at ends
    unfold Ends at ends
    rw [Tree.toInline_node] at ends
    split at ends
    · next value found =>
      split at ends
      · next placed => exact own value found placed ends
      · exact (stores.toTempVar ends).yields
    · exact (stores.toTempVar ends).yields

/-- A node that is an operator on its operands. -/
theorem evaluates_ofValue {kind : Kind Tree} {children : List Part} {value : Lower Expr}
    (lowered : (kind.map Tree.part).lowering type = .ofValue children value)
    (temp : (Tree.node kind type).part.toTemp = (Tree.node kind type).part.intoTemp)
    (yields : ∀ {ctx p code expr p'}, Ends value ctx p code expr p' →
      S.Yields ctx p.scope.temps p'.scope.temps code (expr.eval S.world)
        (S.meaning (.node kind type))) :
    S.Evaluates (.node kind type) := by
  refine Stores.evaluates ⟨fun {ctx p code sink p'} _ ends => ?_, temp⟩ fun value' own => ?_
  · rw [Tree.toStatement_node, lowered] at ends
    obtain ⟨_, expr, _, _, evaluated, last, rfl⟩ := ends_bind.mp ends
    obtain ⟨rfl, rfl⟩ := ends_emit.mp last
    exact (yields evaluated).store sink
  · rw [lowered] at own
    cases own
    exact fun _ ends => yields ends

theorem evaluates_literal (value : Literal) : S.Evaluates (.node (.literal value) type) := by
  refine evaluates_ofValue rfl rfl fun ends => ?_
  obtain ⟨rfl, rfl, rfl⟩ := ends_pure.mp ends
  rw [S.meaning_node]
  exact yields_pure _

theorem evaluates_self : S.Evaluates (.node .self type) := by
  refine evaluates_ofValue rfl rfl fun ends => ?_
  obtain ⟨rfl, rfl, rfl⟩ := ends_pure.mp ends
  rw [S.meaning_node]
  exact yields_pure _

/-- A variable of the method is read as the source reads it. -/
theorem yields_read {name : String} (known : name ∈ S.names) {lo : Nat} :
    S.Yields ctx lo lo [] (Expr.eval S.world (.var name)) (S.world.read name) where
  grows := Nat.le_refl lo
  agrees below ρ h ready := by
    show Matches [] _ _ _ (Exec.readVar S.world name ρ h)
    unfold Exec.readVar
    rw [ready.names name known]
    unfold World.read
    split
    · exact ⟨_, ρ, rfl, rfl, Frame.refl lo lo ρ⟩
    · exact ⟨_, ρ, rfl, rfl, Frame.refl lo lo ρ⟩

theorem evaluates_var {name : String} (known : name ∈ S.names) :
    S.Evaluates (.node (.var name) type) := by
  refine evaluates_ofValue rfl rfl fun ends => ?_
  obtain ⟨rfl, rfl, rfl⟩ := ends_pure.mp ends
  rw [S.meaning_node]
  exact yields_read known

/-- The value of one operand, with something around it. -/
theorem Evaluates.around {tree : Tree} (evaluates : S.Evaluates tree) {build : Expr → Expr}
    {f : Value → Value}
    (built : ∀ expr, (build expr).eval S.world = (do return f (← expr.eval S.world))) {expr : Expr}
    (ends : Ends (do return build (← tree.part.toExpr)) ctx p code expr p') :
    S.Yields ctx p.scope.temps p'.scope.temps code (expr.eval S.world)
      (do return f (← S.meaning tree)) := by
  obtain ⟨_, operand, _, _, evaluated, last, rfl⟩ := ends_bind.mp ends
  obtain ⟨rfl, rfl, rfl⟩ := ends_pure.mp last
  rw [List.append_nil, built]
  exact (evaluates.toExpr evaluated).map f

theorem evaluates_unary {operand : Tree} (op : UnaryOp) (evaluates : S.Evaluates operand) :
    S.Evaluates (.node (.unary op operand) type) := by
  refine evaluates_ofValue rfl rfl fun ends => ?_
  rw [S.meaning_node]
  exact evaluates.around (fun expr => by rw [Expr.eval]) ends

theorem evaluates_isNull {value : Tree} (evaluates : S.Evaluates value) :
    S.Evaluates (.node (.isNull value) type) := by
  refine evaluates_ofValue rfl rfl fun ends => ?_
  rw [S.meaning_node]
  exact evaluates.around (fun expr => by rw [Expr.eval]) ends

theorem evaluates_cast {value : Tree} (target : JavaType) (evaluates : S.Evaluates value) :
    S.Evaluates (.node (.cast target value) type) := by
  refine evaluates_ofValue rfl rfl fun ends => ?_
  rw [S.meaning_node]
  exact evaluates.around (fun expr => by rw [Expr.eval]) ends

theorem evaluates_concat {parts : List Tree} (evaluates : ∀ tree ∈ parts, S.Evaluates tree) :
    S.Evaluates (.node (.concat parts) type) := by
  refine evaluates_ofValue rfl rfl fun {ctx p code expr p'} ends => ?_
  obtain ⟨_, exprs, _, _, operands, last, rfl⟩ := ends_bind.mp ends
  obtain ⟨rfl, rfl, rfl⟩ := ends_pure.mp last
  rw [List.append_nil, S.meaning_node]
  exact (operands_operandValues evaluates operands).yields.map S.world.concat

/-! ## Calls -/

theorem meaning_call (receiver : Receiver Tree) (method : String) (args : List Tree)
    (returns : JavaType) :
    S.meaning (.node (.call receiver method args returns) type) = (do
      let pair ← (receiver.map S.meaning).meaning S.world
      let args ← S.meanings args
      let answer ← S.world.ask (.call pair.1 method args)
      return if returns.isVoid then pair.2 else answer) :=
  S.meaning_node _ type

theorem meaning_call_value {receiver : Receiver Tree} {method : String} {args : List Tree}
    {returns : JavaType} (nonvoid : returns.isVoid = false) :
    S.meaning (.node (.call receiver method args returns) type) =
      S.callMeaning receiver method args := by
  rw [meaning_call]
  simp only [nonvoid, Bool.false_eq_true, if_false, bind_pure]
  rfl

theorem evaluates_call {receiver : Receiver Tree} {args : List Tree} (method : String)
    (returns : JavaType) (evaluates : ∀ tree ∈ receiver.toList ++ args, S.Evaluates tree)
    (stable : returns.isVoid = true → ∀ name type, receiver = .value (.node (.var name) type) →
      name ∈ S.names ∧ S.world.isVolatile name = false) :
    S.Evaluates (.node (.call receiver method args returns) type) := by
  have receiverEvaluates := fun tree mem => evaluates tree (List.mem_append_left args mem)
  have argsEvaluate := fun tree mem => evaluates tree (List.mem_append_right receiver.toList mem)
  refine Stores.evaluates ⟨fun {ctx p code sink p'} _ ends => ?_, rfl⟩ fun value own => ?_
  · rw [Tree.toStatement_node] at ends
    change Ends (lowerCall _ _ _ _ _) ctx p code () p' at ends
    unfold lowerCall at ends
    cases void : returns.isVoid with
    | true =>
      rw [void] at ends
      obtain ⟨_, ⟨target, value⟩, _, _, first, rest, rfl⟩ := ends_bind.mp ends
      obtain ⟨_, exprs, _, _, operands, last, rfl⟩ := ends_bind.mp rest
      obtain ⟨_, _, _, _, called, put, rfl⟩ := ends_bind.mp last
      obtain ⟨rfl, rfl⟩ := ends_emit.mp called
      obtain ⟨rfl, rfl⟩ := ends_emit.mp put
      have keeps := keeps_voidReceiver receiverEvaluates (stable void) first
      have delivers := keeps.call (operands_operandValues argsEvaluate operands) method sink
      rw [meaning_call]
      simp only [void, if_true]
      exact delivers
    | false =>
      rw [void] at ends
      obtain ⟨_, expr, _, _, evaluated, last, rfl⟩ := ends_bind.mp ends
      obtain ⟨rfl, rfl⟩ := ends_emit.mp last
      rw [meaning_call_value void]
      exact (yields_callExpr evaluates method evaluated).store sink
  · intro ctx p code expr p' _ ends
    change value ∈ (if returns.isVoid then none else some _ : Option (Lower Expr)) at own
    cases void : returns.isVoid with
    | true =>
      rw [void] at own
      cases own
    | false =>
      rw [void] at own
      cases own
      rw [meaning_call_value void]
      exact yields_callExpr evaluates method ends

/-! ## Operators -/

theorem ends_binaryExpr {op : BinaryOp} {left right : Tree} {expr : Expr}
    (ends : Ends (binaryExpr op left.part right.part) ctx p code expr p') :
    ∃ inPlace : Bool, inPlace = ((left.isExpression p.scope.isLocal) &&
        right.isExpression p.scope.isLocal) ∧
      ∃ code₁ l p₁ code₂ r,
        Ends ((if inPlace then Part.toInline else Part.toFixed) left.part) ctx p code₁ l p₁ ∧
        Ends ((if inPlace then Part.toInline else Part.toFixed) right.part) ctx p₁ code₂ r p' ∧
        code = code₁ ++ code₂ ∧ expr = .binary op l r := by
  unfold binaryExpr Ends at ends
  rw [operandRule_bind] at ends
  obtain ⟨code₁, l, p₁, _, first, rest, rfl⟩ := ends_bind.mp ends
  obtain ⟨code₂, r, p₂, _, second, last, rfl⟩ := ends_bind.mp rest
  obtain ⟨rfl, rfl, rfl⟩ := ends_pure.mp last
  rw [List.append_nil]
  refine ⟨_, ?_, code₁, l, p₁, code₂, r, first, second, rfl, rfl⟩
  rw [List.all_cons, List.all_cons, List.all_nil, Bool.and_true]
  rfl

/-- Both operands are written in place. -/
theorem yields_binary_inPlace {left right : Tree} (leftEvaluates : S.Evaluates left)
    (rightEvaluates : S.Evaluates right) {l r : Expr} {p₁ : Progress} {code₁ code₂ : Code}
    (leftExpression : left.isExpression p.scope.isLocal = true)
    (rightExpression : right.isExpression p.scope.isLocal = true)
    (first : Ends left.part.toInline ctx p code₁ l p₁)
    (second : Ends right.part.toInline ctx p₁ code₂ r p') :
    code₁ ++ code₂ = [] ∧ p'.scope.temps = p.scope.temps ∧
      S.Yields ctx p.scope.temps p.scope.temps [] (l.eval S.world) (S.meaning left) ∧
      S.Yields ctx p.scope.temps p.scope.temps [] (r.eval S.world) (S.meaning right) := by
  obtain ⟨rfl, same, yields⟩ := leftEvaluates.inPlace leftExpression first
  rw [← same] at rightExpression
  obtain ⟨rfl, same', yields'⟩ := rightEvaluates.inPlace rightExpression second
  rw [same] at yields'
  exact ⟨rfl, by rw [same', same], yields, yields'⟩

theorem meaning_binary {op : BinaryOp} (plain : op.isLogical = false) (left right : Tree) :
    S.meaning (.node (.binary op left right) type) = (do
      let left ← S.meaning left
      let right ← S.meaning right
      return S.world.binary op left right) := by
  rw [S.meaning_node]
  cases op with
  | and | or => cases plain
  | _ => rfl

theorem evaluates_binary {op : BinaryOp} (plain : op.isLogical = false) {left right : Tree}
    (leftEvaluates : S.Evaluates left) (rightEvaluates : S.Evaluates right) :
    S.Evaluates (.node (.binary op left right) type) := by
  have lowered : ((Kind.binary op left right).map Tree.part).lowering type =
      .ofValue [left.part, right.part] (binaryExpr op left.part right.part) := by
    cases op with
    | and | or => cases plain
    | _ => rfl
  refine evaluates_ofValue lowered rfl fun {ctx p code expr p'} ends => ?_
  obtain ⟨inPlace, all, _, l, p₁, _, r, first, second, rfl, rfl⟩ := ends_binaryExpr ends
  rw [Expr.eval_binary S.world plain, meaning_binary plain]
  cases inPlace with
  | true =>
    obtain ⟨leftExpression, rightExpression⟩ := Bool.and_eq_true_iff.mp all.symm
    obtain ⟨none, same, yieldsLeft, yieldsRight⟩ := yields_binary_inPlace leftEvaluates
      rightEvaluates leftExpression rightExpression first second
    rw [none, same]
    exact yieldsLeft.bind fun left => yieldsRight.map (S.world.binary op left)
  | false =>
    have fixesLeft := leftEvaluates.toFixed first
    have fixesRight := rightEvaluates.toFixed second
    exact (fixesLeft.both (S.world.binary op) fixesRight).yields

/-! ## Branches -/

theorem delivers_literal {value : Literal} {sink : Sink}
    (ends : Ends (putValue (.store sink) (.literal value)) ctx p code () p') :
    S.Delivers ctx p.scope.temps p'.scope.temps code sink (pure (.literal value)) := by
  obtain ⟨rfl, rfl⟩ := ends_emit.mp ends
  have yields : S.Yields ctx p.scope.temps p.scope.temps [] (Expr.eval S.world (.literal value))
      (pure (.literal value)) := yields_pure _
  exact yields.store sink

/-- A test for a value that is not true, with the two sides in the other order. -/
theorem branch_bne_true (cond : Meaning Value) (yes no : Meaning α) :
    (do if (← cond).isTrue != true then yes else no) = (do if (← cond).isTrue then no else yes) :=
  bind_congr fun value => by cases value.isTrue <;> rfl

theorem eval_logical (w : World) {op : BinaryOp} (logical : op.isLogical = true) (l r : Expr) :
    Expr.eval w (.binary op l r) = (do
      if (← l.eval w).isTrue != op.decides then r.eval w else return .bool op.decides) := by
  cases op with
  | and =>
    rw [Expr.eval]
    exact bind_congr fun value => by cases value.isTrue <;> rfl
  | or =>
    rw [Expr.eval]
    exact bind_congr fun value => by cases value.isTrue <;> rfl
  | _ => cases logical

theorem meaning_logical {op : BinaryOp} (logical : op.isLogical = true) (left right : Tree) :
    S.meaning (.node (.binary op left right) type) = (do
      if (← S.meaning left).isTrue != op.decides then S.meaning right
      else return .bool op.decides) := by
  rw [S.meaning_node]
  cases op with
  | and | or => exact bind_congr fun value => by cases value.isTrue <;> rfl
  | _ => cases logical

theorem lowering_logical {op : BinaryOp} (logical : op.isLogical = true) (left right : Tree) :
    ((Kind.binary op left right).map Tree.part).lowering type =
      { inline := some (binaryExpr op left.part right.part)
        statement := lowerLogical op.decides left.part right.part } := by
  cases op with
  | and | or => rfl
  | _ => cases logical

theorem evaluates_logical {op : BinaryOp} (logical : op.isLogical = true) {left right : Tree}
    (leftEvaluates : S.Evaluates left) (rightEvaluates : S.Evaluates right) :
    S.Evaluates (.node (.binary op left right) type) := by
  refine Stores.evaluates ⟨fun {ctx p code sink p'} outer ends => ?_, rfl⟩ fun value own => ?_
  · rw [Tree.toStatement_node, lowering_logical logical] at ends
    obtain ⟨_, l, p₁, _, first, rest, rfl⟩ := ends_bind.mp ends
    obtain ⟨yes, p₂, yesEnds, others⟩ := ends_blockBind.mp rest
    obtain ⟨no, p₃, noEnds, last⟩ := ends_blockBind.mp others
    obtain ⟨rfl, rfl⟩ := ends_emit.mp last
    have tested := leftEvaluates.toExpr first
    have outer₁ := outer.mono tested.grows
    rw [meaning_logical logical]
    generalize op.decides = decides at yesEnds noEnds ⊢
    cases decides with
    | true =>
      have skip := delivers_literal (S := S) yesEnds
      have run := rightEvaluates.store (outer₁.mono skip.grows) noEnds
      rw [branch_bne_true]
      exact tested.deliver_ifElse outer₁ skip run
    | false =>
      have run := rightEvaluates.store outer₁ yesEnds
      have skip := delivers_literal (S := S) noEnds
      simp only [Bool.bne_false]
      exact tested.deliver_ifElse outer₁ run skip
  · intro ctx p code expr p' placed ends
    rw [lowering_logical logical] at own
    cases own
    have expression : (Tree.node (.binary op left right) type).isExpression p.scope.isLocal = true := by
      change (!op.isLogical || _) = true at placed
      rwa [logical] at placed
    obtain ⟨inPlace, all, _, l, p₁, _, r, first, second, rfl, rfl⟩ := ends_binaryExpr ends
    obtain rfl : inPlace = true := all.trans expression
    obtain ⟨leftExpression, rightExpression⟩ := Bool.and_eq_true_iff.mp expression
    obtain ⟨none, same, yieldsLeft, yieldsRight⟩ := yields_binary_inPlace leftEvaluates
      rightEvaluates leftExpression rightExpression first second
    rw [none, same, eval_logical S.world logical, meaning_logical logical]
    refine yieldsLeft.bind fun value => ?_
    split
    · exact yieldsRight
    · exact yields_pure _

/-- What a branch of a conditional means. -/
def armMeaning (S : Setting) (type : JavaType) (arm : Option Tree) : Meaning Value :=
  (arm.map S.meaning).getD (return type.missing)

theorem meaning_cond (test : Tree) (yes no : Option Tree) :
    S.meaning (.node (.cond test yes no) type) = (do
      if (← S.meaning test).isTrue then S.armMeaning type yes else S.armMeaning type no) :=
  S.meaning_node _ type

theorem delivers_lowerArm {arm : Option Tree} (evaluates : ∀ tree ∈ arm, S.Evaluates tree)
    {sink : Sink} (outer : S.Outer p.scope.temps sink)
    (ends : Ends (lowerArm (arm.map Tree.part) (.store sink) type.held) ctx p code () p') :
    S.Delivers ctx p.scope.temps p'.scope.temps code sink (S.armMeaning type arm) := by
  cases arm with
  | none => exact delivers_literal ends
  | some tree => exact (evaluates tree rfl).store outer ends

theorem yields_armExpr {arm : Option Tree} (evaluates : ∀ tree ∈ arm, S.Evaluates tree)
    (expressions : ∀ tree ∈ arm, tree.isExpression p.scope.isLocal = true) {expr : Expr}
    (ends : Ends (armExpr type (arm.map Tree.part)) ctx p code expr p') :
    code = [] ∧ p'.scope = p.scope ∧
      S.Yields ctx p.scope.temps p.scope.temps [] (expr.eval S.world) (S.armMeaning type arm) := by
  cases arm with
  | none =>
    obtain ⟨rfl, rfl, rfl⟩ := ends_pure.mp ends
    exact ⟨rfl, rfl, yields_pure _⟩
  | some tree => exact (evaluates tree rfl).inPlace (expressions tree rfl) ends

theorem evaluates_cond {test : Tree} {yes no : Option Tree} (testEvaluates : S.Evaluates test)
    (yesEvaluates : ∀ tree ∈ yes, S.Evaluates tree) (noEvaluates : ∀ tree ∈ no, S.Evaluates tree) :
    S.Evaluates (.node (.cond test yes no) type) := by
  refine Stores.evaluates ⟨fun {ctx p code sink p'} outer ends => ?_, rfl⟩ fun value own => ?_
  · rw [Tree.toStatement_node] at ends
    change Ends (lowerCond _ _ _ _ _) ctx p code () p' at ends
    obtain ⟨_, cond, p₁, _, first, rest, rfl⟩ := ends_bind.mp ends
    obtain ⟨yesCode, p₂, yesEnds, others⟩ := ends_blockBind.mp rest
    rw [if_pos (by exact Bool.or_true _)] at others
    obtain ⟨noCode, p₃, noEnds, last⟩ := ends_blockBind.mp others
    obtain ⟨rfl, rfl⟩ := ends_emit.mp last
    have tested := testEvaluates.toExpr first
    have outer₁ := outer.mono tested.grows
    have onTrue := delivers_lowerArm yesEvaluates outer₁ yesEnds
    have onFalse := delivers_lowerArm noEvaluates (outer₁.mono onTrue.grows) noEnds
    rw [meaning_cond]
    exact tested.deliver_ifElse outer₁ onTrue onFalse
  · intro ctx p code expr p' placed ends
    cases own
    change (Tree.node (.cond test yes no) type).isExpression p.scope.isLocal = true at placed
    simp only [Tree.isExpression, Kind.isExpression, isExpressionIfAny_eq, Bool.and_eq_true,
      Option.all_eq_true] at placed
    obtain ⟨⟨testExpression, yesExpression⟩, noExpression⟩ := placed
    obtain ⟨_, cond, p₁, _, first, rest, rfl⟩ := ends_bind.mp ends
    obtain ⟨_, yesExpr, p₂, _, second, others, rfl⟩ := ends_bind.mp rest
    obtain ⟨_, noExpr, p₃, _, third, last, rfl⟩ := ends_bind.mp others
    obtain ⟨rfl, rfl, rfl⟩ := ends_pure.mp last
    obtain ⟨rfl, same₁, tested⟩ := testEvaluates.inPlace testExpression first
    rw [← same₁] at yesExpression noExpression
    obtain ⟨rfl, same₂, onTrue⟩ := yields_armExpr yesEvaluates yesExpression second
    rw [← same₂] at noExpression
    obtain ⟨rfl, same₃, onFalse⟩ := yields_armExpr noEvaluates noExpression third
    rw [same₂] at onFalse
    rw [same₁] at onTrue onFalse
    rw [same₃, same₂, same₁, meaning_cond, Expr.eval]
    refine tested.bind fun value => ?_
    split
    · exact onTrue
    · exact onFalse

/-! ## Sequences -/

theorem meaning_seq_cons (first second : Tree) (rest : List Tree) :
    S.meaning (.node (.seq (first :: second :: rest)) type) = (do
      let _ ← S.meaning first
      S.meaning (.node (.seq (second :: rest)) type)) := by
  rw [S.meaning_node, S.meaning_node]
  rfl

/-- A node without an expression of its own. -/
theorem Stores.evaluates_ofStatement {kind : Kind Tree} (stores : S.Stores (.node kind type))
    (none : ((kind.map Tree.part).lowering type).inline = none) : S.Evaluates (.node kind type) :=
  stores.evaluates fun value own => by
    rw [none] at own
    cases own

theorem evaluates_seq_nil : S.Evaluates (.node (.seq []) type) := by
  refine Stores.evaluates_ofStatement ⟨fun _ ends => ?_, rfl⟩ rfl
  rw [Tree.toStatement_node] at ends
  rw [S.meaning_node]
  exact delivers_literal ends

theorem evaluates_seq_singleton {last : Tree} (evaluates : S.Evaluates last) :
    S.Evaluates (.node (.seq [last]) type) := by
  refine Stores.evaluates_ofStatement ⟨fun outer ends => ?_, rfl⟩ rfl
  rw [Tree.toStatement_node] at ends
  rw [S.meaning_node]
  exact evaluates.store outer ends

theorem evaluates_seq_cons {first second : Tree} {rest : List Tree} (acts : S.Acts false first)
    (evaluates : S.Evaluates (.node (.seq (second :: rest)) type)) :
    S.Evaluates (.node (.seq (first :: second :: rest)) type) := by
  refine Stores.evaluates_ofStatement ⟨fun {ctx p code sink p'} outer ends => ?_, rfl⟩ rfl
  rw [Tree.toStatement_node] at ends
  change Ends (lowerSeq _ _ (first.part :: second.part :: rest.map Tree.part)) ctx p code () p' at ends
  obtain ⟨_, _, _, _, started, others, rfl⟩ := ends_bind.mp ends
  have performs : S.Performs _ _ _ [] _ _ := acts started
  rw [meaning_seq_cons]
  exact performs.deliver (evaluates.store (outer.mono performs.grows)
    (by rw [Tree.toStatement_node]; exact others))

/-! ## Nodes for their effects -/

/-- The operands of a node whose value nobody wants. -/
theorem performs_operands {trees : List Tree} (acts : ∀ tree ∈ trees, S.Acts jumps tree)
    (ends : Ends ((trees.map Tree.part).forM (·.toStatement .discard)) ctx p code () p') :
    S.Performs ctx p.scope.temps p'.scope.temps (ctx.reach jumps) code (S.meanings trees) := by
  induction trees generalizing p code with
  | nil =>
    obtain ⟨rfl, -, rfl⟩ := ends_pure.mp ends
    exact performs_nil _ []
  | cons tree rest ih =>
    obtain ⟨_, _, _, _, first, others, rfl⟩ := ends_bind.mp ends
    have performs := acts tree List.mem_cons_self first
    have performsRest := ih (fun other mem => acts other (List.mem_cons_of_mem tree mem)) others
    refine (performs.append performsRest).of_effects ?_
    rw [S.meanings_cons]
    simp only [bind_assoc, pure_bind]

/-- A node that is an operator on its operands does what these do. -/
theorem acts_ofValue {kind : Kind Tree} {value : Lower Expr} (trees : List Tree)
    (lowered : (kind.map Tree.part).lowering type = .ofValue (trees.map Tree.part) value)
    (acts : ∀ tree ∈ trees, S.Acts jumps tree)
    (same : (do let _ ← S.meaning (.node kind type); return ()) =
      (do let _ ← S.meanings trees; return ())) : S.Acts jumps (.node kind type) := by
  intro ctx p code p' ends
  rw [Tree.toStatement_node, lowered] at ends
  exact (performs_operands acts ends).of_effects same

theorem acts_literal (value : Literal) : S.Acts jumps (.node (.literal value) type) := by
  refine acts_ofValue [] rfl (fun _ mem => nomatch mem) ?_
  rw [S.meaning_node]
  rfl

theorem acts_self : S.Acts jumps (.node .self type) := by
  refine acts_ofValue [] rfl (fun _ mem => nomatch mem) ?_
  rw [S.meaning_node]
  rfl

/-- A variable that nobody else changes need not be read. -/
theorem acts_var {name : String} (stable : S.world.isVolatile name = false) :
    S.Acts jumps (.node (.var name) type) := by
  refine acts_ofValue [] rfl (fun _ mem => nomatch mem) ?_
  have reads : S.meaning (.node (.var name) type) = pure (S.world.value name) := by
    rw [S.meaning_node]
    show S.world.read name = _
    rw [World.read, stable]
    rfl
  rw [reads]
  rfl

theorem acts_unary {operand : Tree} (op : UnaryOp) (acts : S.Acts jumps operand) :
    S.Acts jumps (.node (.unary op operand) type) := by
  refine acts_ofValue [operand] rfl (List.forall_mem_singleton.mpr acts) ?_
  simp [S.meaning_node, Kind.map, Kind.meaning, meanings]

theorem acts_isNull {value : Tree} (acts : S.Acts jumps value) :
    S.Acts jumps (.node (.isNull value) type) := by
  refine acts_ofValue [value] rfl (List.forall_mem_singleton.mpr acts) ?_
  simp [S.meaning_node, Kind.map, Kind.meaning, meanings]

theorem acts_cast {value : Tree} (target : JavaType) (acts : S.Acts jumps value) :
    S.Acts jumps (.node (.cast target value) type) := by
  refine acts_ofValue [value] rfl (List.forall_mem_singleton.mpr acts) ?_
  simp [S.meaning_node, Kind.map, Kind.meaning, meanings]

theorem acts_concat {parts : List Tree} (acts : ∀ tree ∈ parts, S.Acts jumps tree) :
    S.Acts jumps (.node (.concat parts) type) := by
  refine acts_ofValue parts rfl acts ?_
  simp [S.meaning_node, Kind.map, Kind.meaning, meanings]

theorem acts_binary {op : BinaryOp} (plain : op.isLogical = false) {left right : Tree}
    (leftActs : S.Acts jumps left) (rightActs : S.Acts jumps right) :
    S.Acts jumps (.node (.binary op left right) type) := by
  have lowered : ((Kind.binary op left right).map Tree.part).lowering type =
      .ofValue ([left, right].map Tree.part) (binaryExpr op left.part right.part) := by
    cases op with
    | and | or => cases plain
    | _ => rfl
  refine acts_ofValue [left, right] lowered
    (List.forall_mem_cons.mpr ⟨leftActs, List.forall_mem_singleton.mpr rightActs⟩) ?_
  rw [meaning_binary plain]
  simp [meanings]

theorem acts_call {receiver : Receiver Tree} {args : List Tree} (method : String)
    (returns : JavaType) (evaluates : ∀ tree ∈ receiver.toList ++ args, S.Evaluates tree) :
    S.Acts jumps (.node (.call receiver method args returns) type) := by
  intro ctx p code p' ends
  rw [Tree.toStatement_node] at ends
  change Ends (lowerCall _ _ _ _ _) ctx p code () p' at ends
  rw [lowerCall, if_neg (by simp [Destination.wantsValue])] at ends
  obtain ⟨_, expr, _, _, evaluated, last, rfl⟩ := ends_bind.mp ends
  obtain ⟨rfl, rfl⟩ := ends_emit.mp last
  have performs := (yields_callExpr evaluates method evaluated).perform (ctx.reach jumps)
  refine performs.of_effects ?_
  rw [meaning_call, callMeaning]
  simp only [bind_assoc, pure_bind]

theorem acts_logical {op : BinaryOp} (logical : op.isLogical = true) {left right : Tree}
    (evaluates : S.Evaluates left) (acts : S.Acts jumps right) :
    S.Acts jumps (.node (.binary op left right) type) := by
  intro ctx p code p' ends
  rw [Tree.toStatement_node, lowering_logical logical] at ends
  obtain ⟨_, l, _, _, first, rest, rfl⟩ := ends_bind.mp ends
  obtain ⟨yes, _, run, last⟩ := ends_blockBind.mp rest
  obtain ⟨rfl, rfl⟩ := ends_emit.mp last
  rw [meaning_logical logical]
  exact (evaluates.toExpr first).perform_ifThen op.decides (.bool op.decides)
    (ctx.head?_reach jumps) (acts run)

theorem performs_lowerArm {arm : Option Tree} (acts : ∀ tree ∈ arm, S.Acts jumps tree)
    (ends : Ends (lowerArm (arm.map Tree.part) .discard type.held) ctx p code () p') :
    S.Performs ctx p.scope.temps p'.scope.temps (ctx.reach jumps) code (S.armMeaning type arm) := by
  cases arm with
  | none =>
    obtain ⟨rfl, -, rfl⟩ := ends_pure.mp ends
    exact performs_nil _ _
  | some tree => exact acts tree rfl ends

theorem acts_cond {test : Tree} {yes no : Option Tree} (evaluates : S.Evaluates test)
    (yesActs : ∀ tree ∈ yes, S.Acts jumps tree) (noActs : ∀ tree ∈ no, S.Acts jumps tree) :
    S.Acts jumps (.node (.cond test yes no) type) := by
  intro ctx p code p' ends
  rw [Tree.toStatement_node] at ends
  change Ends (lowerCond _ _ _ _ _) ctx p code () p' at ends
  obtain ⟨_, cond, p₁, _, first, rest, rfl⟩ := ends_bind.mp ends
  obtain ⟨yesCode, p₂, yesEnds, others⟩ := ends_blockBind.mp rest
  have tested := evaluates.toExpr first
  have inside := ctx.head?_reach jumps
  have onTrue := performs_lowerArm yesActs yesEnds
  rw [meaning_cond]
  cases no with
  | none =>
    obtain ⟨rfl, rfl⟩ := ends_emit.mp others
    have branch := tested.perform_ifThen false type.missing inside onTrue
    simp only [Bool.bne_false] at branch
    exact branch
  | some tree =>
    obtain ⟨noCode, p₃, noEnds, last⟩ := ends_blockBind.mp others
    obtain ⟨rfl, rfl⟩ := ends_emit.mp last
    have onFalse := performs_lowerArm noActs noEnds
    exact tested.perform_ifElse inside onTrue onFalse

theorem acts_seq_nil : S.Acts jumps (.node (.seq []) type) := by
  intro ctx p code p' ends
  rw [Tree.toStatement_node] at ends
  obtain ⟨rfl, -, rfl⟩ := ends_pure.mp ends
  rw [S.meaning_node]
  exact performs_nil _ _

theorem acts_seq_singleton {last : Tree} (acts : S.Acts jumps last) :
    S.Acts jumps (.node (.seq [last]) type) := by
  intro ctx p code p' ends
  rw [Tree.toStatement_node] at ends
  rw [S.meaning_node]
  exact acts ends

theorem acts_seq_cons {first second : Tree} {rest : List Tree} (firstActs : S.Acts jumps first)
    (restActs : S.Acts jumps (.node (.seq (second :: rest)) type)) :
    S.Acts jumps (.node (.seq (first :: second :: rest)) type) := by
  intro ctx p code p' ends
  rw [Tree.toStatement_node] at ends
  change Ends (lowerSeq _ _ (first.part :: second.part :: rest.map Tree.part)) ctx p code () p' at ends
  obtain ⟨_, _, _, _, started, others, rfl⟩ := ends_bind.mp ends
  rw [meaning_seq_cons]
  exact (firstActs started).append (restActs (by rw [Tree.toStatement_node]; exact others))

end Setting

end JavaBackend
