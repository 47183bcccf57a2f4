import JavaBackend.Proofs.Lowering.Ends

/-!
# Trees that are expressions

A tree that is an expression, given the variables that are known, is lowered without a statement:
nothing is laid out, and neither the variables nor the supplies of names move. The equations in front
of that result say which way a node is lowered, once the scope is known.
-/

namespace JavaBackend

open Java (Stmt Code Piece Expr)
open Lower (Ends ends_pure ends_bind ends_context ends_useField)

variable {α β : Type} {ctx : Context} {p p' : Progress} {code : Code}

/-- The name that a node itself assigns to. -/
def Kind.assigned? : Kind Tree → Option String
  | .assign name _ => some name
  | _ => none

/-- The nodes that are expressions over operands that are. -/
def Kind.isOperation : Kind Tree → Bool
  | .call _ _ _ returns => !returns.isVoid
  | .setField _ _ _ | .seq _ | .loop _ | .forEach _ | .jump _ | .ret _ | .raise _ | .rescue _ _ _
  | .ensure _ _ | .print _ _ => false
  | _ => true

theorem Kind.isExpression_iff {isLocal : String → Bool} {kind : Kind Tree} :
    kind.isExpression isLocal = true ↔ kind.isOperation = true ∧
      (∀ name ∈ kind.assigned?, isLocal name = true) ∧
      ∀ tree ∈ kind.children, tree.isExpression isLocal = true := by
  cases kind with
  | call receiver method args returns =>
    cases receiver <;>
      simp [isExpression, isOperation, assigned?, children, Receiver.isExpression, Receiver.toList,
        areExpressions_eq, and_assoc]
  | cond test yes no =>
    cases yes <;> cases no <;>
      simp [isExpression, isOperation, assigned?, children, isExpressionIfAny, and_assoc]
  | _ => simp [isExpression, isOperation, assigned?, children, areExpressions_eq]

/-- The parts of an expression are expressions. -/
theorem Kind.isExpression_of_mem_children {isLocal : String → Bool} {kind : Kind Tree}
    (expression : kind.isExpression isLocal = true) :
    ∀ tree ∈ kind.children, tree.isExpression isLocal = true :=
  (isExpression_iff.mp expression).2.2

/-! ## Choices that the scope decides -/

/-- A computation that lays out nothing only hands its result on. -/
theorem Lower.bind_apply_of_ends_nil {m : Lower α} {a : α} (ends : Ends m ctx p [] a p')
    (f : α → Lower β) : (m >>= f) ctx p = f a ctx p' := by
  show Lower.bind m f ctx p = _
  unfold Ends at ends
  simp only [Lower.bind, ends]
  cases run : f a ctx p' with
  | mk outcome p₁ => cases outcome <;> simp [Stmt.codePieces]

/-- Nothing comes behind a computation that faults. -/
theorem Lower.bind_apply_of_failed {m : Lower α} {written : List Piece} {fault : Fault}
    (fails : m ctx p = ⟨.failed written fault, p'⟩) (f : α → Lower β) :
    (m >>= f) ctx p = ⟨.failed written fault, p'⟩ := by
  show Lower.bind m f ctx p = _
  unfold Lower.bind
  rw [fails]

theorem Lower.scope_bind (f : Scope → Lower α) (ctx : Context) (p : Progress) :
    (Lower.scope >>= f) ctx p = f p.scope ctx p :=
  bind_apply_of_ends_nil (ends_scope.mpr ⟨rfl, rfl, rfl⟩) f

theorem Lower.context_bind (f : Context → Lower α) (ctx : Context) (p : Progress) :
    (Lower.context >>= f) ctx p = f ctx ctx p :=
  bind_apply_of_ends_nil (ends_context.mpr ⟨rfl, rfl, rfl⟩) f

theorem Lower.isLocal_bind (name : String) (f : Bool → Lower α) (ctx : Context) (p : Progress) :
    (Lower.isLocal name >>= f) ctx p = f (p.scope.isLocal name) ctx p := by
  unfold Lower.isLocal
  rw [bind_assoc, Lower.scope_bind, pure_bind]

theorem Part.isExpression_bind (part : Part) (f : Bool → Lower α) (ctx : Context)
    (p : Progress) :
    (part.isExpression >>= f) ctx p = f (part.tree.isExpression p.scope.isLocal) ctx p := by
  unfold Part.isExpression
  rw [bind_assoc, Lower.scope_bind, pure_bind]

/-- The operands are all written in place, or all evaluated before they are used. -/
theorem operandRule_bind (parts : List Part) (f : (Part → Lower Expr) → Lower α) (ctx : Context)
    (p : Progress) :
    (operandRule parts >>= f) ctx p =
      f (if parts.all (·.tree.isExpression p.scope.isLocal) then Part.toInline
        else Part.toFixed) ctx p := by
  unfold operandRule
  rw [bind_assoc, Lower.scope_bind, pure_bind]

namespace Part

/-- A variable that the node's value is put into. -/
def toTempVar (part : Part) : Lower Expr := (fun temp => .var temp.name) <$> part.toTemp

theorem toExpr_apply (part : Part) (ctx : Context) (p : Progress) :
    part.toExpr ctx p =
      if part.tree.isExpression p.scope.isLocal || part.tree.kind.combinesOperands then
        part.toInline ctx p
      else part.toTempVar ctx p := by
  unfold toExpr toTempVar
  rw [isExpression_bind, ← bind_pure_comp]
  split <;> rfl

theorem toInline_apply (part : Part) (ctx : Context) (p : Progress) :
    part.toInline ctx p =
      match part.result.get.inline with
      | some inline =>
        if part.tree.isInline p.scope.isLocal then inline ctx p else part.toTempVar ctx p
      | none => part.toTempVar ctx p := by
  unfold toInline toTempVar
  rw [← bind_pure_comp]
  cases part.result.get.inline with
  | none => rfl
  | some inline =>
    simp only [Lower.scope_bind]
    split <;> rfl

theorem toFreshTemp_apply (part : Part) (ctx : Context) (p : Progress) :
    part.toFreshTemp ctx p =
      if part.tree.isExpression p.scope.isLocal then
        (do
          let init ← part.toInline
          return ⟨← Lower.newTemp part.tree.type.held init, some part⟩ : Lower Temp) ctx p
      else part.toTemp ctx p := by
  unfold toFreshTemp
  rw [isExpression_bind]
  split <;> rfl

/-- The value of a receiver that is used twice: a variable or the object itself can be written again,
    and anything else is evaluated once, into a variable. -/
def toKept (part : Part) : Lower Expr :=
  match part.tree.kind with
  | .var _ | .self => part.toInline
  | _ => (fun temp => .var temp.name) <$> part.toFreshTemp

end Part

theorem voidReceiver_value (target : Part) :
    voidReceiver (.value target) = (fun value => (value, value)) <$> target.toKept := by
  unfold voidReceiver Part.toKept
  cases kind : target.tree.kind <;> simp [kind]

/-! ## The expression of a node -/

namespace Context

/-- The receiver of a call that names none. -/
def ownReceiver (ctx : Context) : Expr := if ctx.isStatic then .owner ctx.owner else .this

/-- A field of the current object, or of the class. -/
def field (ctx : Context) (name : String) (isStatic : Bool) : Expr :=
  .field (if isStatic then .owner ctx.owner else .this) name

end Context

/-- The own expression of a node, from those of its operands. -/
def Kind.build? (ctx : Context) (type : JavaType) : Kind Tree → List Expr → Option Expr
  | .literal value, [] => some (.literal value)
  | .self, [] => some .this
  | .var name, [] => some (.var name)
  | .field name isStatic, [] => some (ctx.field name isStatic)
  | .assign name _, [value] => some (.assign name value)
  | .call .implicit method _ _, args =>
    some (.call ctx.ownReceiver method args)
  | .call (.named owner) method _ _, args => some (.call (.owner owner.source) method args)
  | .call (.value _) method _ _, target :: args => some (.call target method args)
  | .new type _, args => some (.new type args)
  | .binary op _ _, [left, right] => some (.binary op left right)
  | .unary op _, [operand] => some (.unary op operand)
  | .isNull _, [value] => some (.isNull value)
  | .instanceOf _ type, [value] => some (.instanceOf value type)
  | .cast type _, [value] => some (.cast type value)
  | .concat _, parts => some (.concat parts)
  | .newArray component _, [size] => some (.newArray component size)
  | .cond _ (some _) (some _), [test, yes, no] => some (.cond test yes no)
  | .cond _ (some _) none, [test, yes] =>
    some (.cond test yes (.literal type.held.defaultValue))
  | .cond _ none (some _), [test, no] =>
    some (.cond test (.literal type.held.defaultValue) no)
  | .cond _ none none, [test] =>
    some (.cond test (.literal type.held.defaultValue) (.literal type.held.defaultValue))
  | _, _ => none

/-- The expression of a tree that is one, from those of its parts. -/
def Tree.expr (ctx : Context) : Tree → Expr :=
  para fun kind type =>
    ((kind.map (·.tree)).build? ctx type (kind.children.map (·.result.get))).getD (.literal .null)

theorem Kind.map_id (kind : Kind α) : kind.map id = kind := by
  cases kind with
  | call receiver _ _ _ => cases receiver <;> simp [map, Receiver.map]
  | rescue _ clauses _ =>
    have same : RescueClause.map id = @id (RescueClause α) := by
      funext clause
      simp [RescueClause.map]
    simp [map, same]
  | _ => simp [map, Loop.map, ForEach.map]

theorem Tree.expr_node (ctx : Context) (kind : Kind Tree) (type : JavaType) :
    (Tree.node kind type).expr ctx =
      (kind.build? ctx type (kind.children.map (expr ctx))).getD (.literal .null) := by
  have same (step : Kind (Child Expr) → JavaType → Expr) : (kind.map (child step)).map (·.tree) = kind :=
    (Kind.map_map _ _ kind).trans (Kind.map_id kind)
  rw [expr, para_node, same, Kind.children_map, List.map_map]
  rfl

/-! ## Computations without statements -/

namespace Lower

/-- The computation ends well with this result, lays out nothing and leaves the scope alone. Only the
    fields that the code refers to may be noted. -/
def Gives (m : Lower α) (ctx : Context) (scope : Scope) (a : α) : Prop :=
  ∀ fields, ∃ fields', Ends m ctx ⟨scope, fields⟩ [] a ⟨scope, fields'⟩

variable {scope : Scope}

theorem gives_pure (a : α) : Gives (pure a) ctx scope a :=
  fun fields => ⟨fields, ends_pure.mpr ⟨rfl, rfl, rfl⟩⟩

theorem gives_context : Gives context ctx scope ctx :=
  fun fields => ⟨fields, ends_context.mpr ⟨rfl, rfl, rfl⟩⟩

theorem gives_useField (use : FieldUse) : Gives (useField use) ctx scope () := by
  intro fields
  refine ⟨(Progress.useField ⟨scope, fields⟩ use).fields, ends_useField.mpr ⟨rfl, ?_⟩⟩
  unfold Progress.useField
  split <;> rfl

theorem Gives.bind {m : Lower α} {f : α → Lower β} {a : α} {b : β} (first : Gives m ctx scope a)
    (next : Gives (f a) ctx scope b) : Gives (m >>= f) ctx scope b := by
  intro fields
  obtain ⟨fields₁, ends₁⟩ := first fields
  obtain ⟨fields₂, ends₂⟩ := next fields₁
  exact ⟨fields₂, ends_bind.mpr ⟨[], a, _, [], ends₁, ends₂, rfl⟩⟩

theorem gives_mapM {γ : Type} {f : γ → Lower α} {g : γ → α} {items : List γ}
    (each : ∀ item ∈ items, Gives (f item) ctx scope (g item)) :
    Gives (items.mapM f) ctx scope (items.map g) := by
  induction items with
  | nil =>
    rw [List.mapM_nil]
    exact gives_pure []
  | cons item rest ih =>
    rw [List.mapM_cons]
    refine (each item List.mem_cons_self).bind ?_
    refine (ih fun other mem => each other (List.mem_cons_of_mem _ mem)).bind ?_
    exact gives_pure _

/-- Only what the computation does in this scope matters. -/
theorem Gives.congr {m m' : Lower α} {a : α}
    (same : ∀ fields, m ctx ⟨scope, fields⟩ = m' ctx ⟨scope, fields⟩)
    (gives : Gives m' ctx scope a) : Gives m ctx scope a := by
  intro fields
  obtain ⟨fields', ends⟩ := gives fields
  exact ⟨fields', (same fields).trans ends⟩

end Lower

open Lower (Gives gives_pure gives_context gives_useField gives_mapM)

/-- Operands that are expressions are all written in place. -/
theorem gives_operandRule_bind {parts : List Part} {f : (Part → Lower Expr) → Lower α}
    {scope : Scope} {a : α} (all : ∀ part ∈ parts, part.tree.isExpression scope.isLocal = true)
    (gives : Gives (f Part.toInline) ctx scope a) : Gives (operandRule parts >>= f) ctx scope a := by
  refine gives.congr fun fields => ?_
  rw [operandRule_bind, if_pos (List.all_eq_true.mpr all)]

namespace Tree

variable {scope : Scope}

/-- The ways to ask for the value of a tree that is an expression give its own expression. -/
theorem toExpr_of_isExpression {tree : Tree}
    (expression : tree.isExpression p.scope.isLocal = true) :
    tree.toExpr ctx p = tree.toInline ctx p := by
  show tree.part.toExpr ctx p = tree.part.toInline ctx p
  rw [Part.toExpr_apply, if_pos]
  show (tree.isExpression p.scope.isLocal || _) = true
  rw [expression, Bool.true_or]

theorem toStatement_node (kind : Kind Tree) (type : JavaType) (dest : Destination) :
    (Tree.node kind type).part.toStatement dest =
      ((kind.map Tree.part).lowering type).statement dest := by
  rw [← Tree.lowering_node]
  rfl

theorem toInline_node (kind : Kind Tree) (type : JavaType) (ctx : Context) (p : Progress) :
    (Tree.node kind type).toInline ctx p =
      match ((kind.map part).lowering type).inline with
      | some inline =>
        if (Tree.node kind type).isInline p.scope.isLocal then inline ctx p
        else (Tree.node kind type).part.toTempVar ctx p
      | none => (Tree.node kind type).part.toTempVar ctx p := by
  show (Tree.node kind type).part.toInline ctx p = _
  rw [Part.toInline_apply, ← lowering_node]
  rfl

theorem gives_toInline_node {kind : Kind Tree} {type : JavaType} {inline : Lower Expr} {expr : Expr}
    (own : ((kind.map part).lowering type).inline = some inline)
    (placed : (Tree.node kind type).isInline scope.isLocal = true)
    (gives : Gives inline ctx scope expr) : Gives (Tree.node kind type).toInline ctx scope expr := by
  refine gives.congr fun fields => ?_
  rw [toInline_node, own]
  exact if_pos placed

theorem gives_toExpr {tree : Tree} {expr : Expr} (expression : tree.isExpression scope.isLocal = true)
    (gives : Gives tree.toInline ctx scope expr) : Gives tree.part.toExpr ctx scope expr :=
  gives.congr fun _ => toExpr_of_isExpression expression

/-- A tree that is an expression is lowered to it, without a statement. -/
theorem gives_toInline (tree : Tree) :
    ∀ (ctx : Context) (scope : Scope), tree.isExpression scope.isLocal = true →
      Gives tree.toInline ctx scope (tree.expr ctx) := by
  induction tree using Tree.induction with
  | step kind type ih =>
    intro ctx scope expression
    rw [expr_node]
    have inPlace : ∀ tree ∈ kind.children, tree.isExpression scope.isLocal = true →
        Gives tree.toInline ctx scope (tree.expr ctx) := fun tree mem => ih tree mem ctx scope
    have around : ∀ tree ∈ kind.children, tree.isExpression scope.isLocal = true →
        ∀ build : Expr → Expr, Gives (do return build (← tree.part.toExpr)) ctx scope
          (build (tree.expr ctx)) :=
      fun tree mem capable build =>
        (gives_toExpr capable (inPlace tree mem capable)).bind (gives_pure _)
    have operands : ∀ trees : List Tree, (∀ tree ∈ trees, tree ∈ kind.children) →
        areExpressions scope.isLocal trees = true →
        (∀ operand ∈ trees.map part, operand.tree.isExpression scope.isLocal = true) ∧
          Gives ((trees.map part).mapM Part.toInline) ctx scope (trees.map (expr ctx)) := by
      intro trees mem capable
      rw [areExpressions_eq, List.all_eq_true] at capable
      refine ⟨List.forall_mem_map.mpr capable, ?_⟩
      have results : trees.map (expr ctx) = (trees.map part).map fun operand => operand.tree.expr ctx := by
        rw [List.map_map]
        rfl
      rw [results]
      refine gives_mapM (List.forall_mem_map.mpr ?_)
      intro tree memTree
      exact inPlace tree (mem tree memTree) (capable tree memTree)
    cases kind with
    | literal value => exact gives_toInline_node rfl rfl (gives_pure _)
    | self => exact gives_toInline_node rfl rfl (gives_pure _)
    | var name => exact gives_toInline_node rfl rfl (gives_pure _)
    | field name isStatic =>
      refine gives_toInline_node rfl rfl ((gives_useField _).bind ?_)
      exact gives_context.bind (gives_pure _)
    | assign name value =>
      obtain ⟨known, capable⟩ := Bool.and_eq_true_iff.mp expression
      exact gives_toInline_node rfl known (around value (List.mem_singleton_self value) capable _)
    | unary op operand =>
      exact gives_toInline_node rfl rfl (around operand (List.mem_singleton_self _) expression _)
    | isNull value =>
      exact gives_toInline_node rfl rfl (around value (List.mem_singleton_self _) expression _)
    | instanceOf value type =>
      exact gives_toInline_node rfl rfl (around value (List.mem_singleton_self _) expression
        (Expr.instanceOf · type))
    | cast type value =>
      exact gives_toInline_node rfl rfl (around value (List.mem_singleton_self _) expression _)
    | newArray component size =>
      exact gives_toInline_node rfl rfl (around size (List.mem_singleton_self _) expression _)
    | new type args =>
      obtain ⟨capable, gives⟩ := operands args (fun _ mem => mem) expression
      refine gives_toInline_node rfl rfl (Gives.bind ?_ (gives_pure _))
      exact gives_operandRule_bind capable gives
    | concat parts =>
      obtain ⟨capable, gives⟩ := operands parts (fun _ mem => mem) expression
      refine gives_toInline_node rfl rfl (Gives.bind ?_ (gives_pure _))
      exact gives_operandRule_bind capable gives
    | call receiver method args returns =>
      simp only [isExpression, Kind.isExpression, Bool.and_eq_true, Bool.not_eq_true'] at expression
      obtain ⟨⟨nonvoid, receiverCapable⟩, argsCapable⟩ := expression
      have inline : ((Kind.call receiver method args returns).map part |>.lowering type).inline =
          some (callExpr (receiver.map part) method (args.map part)) :=
        if_neg (Bool.eq_false_iff.mp nonvoid)
      refine gives_toInline_node inline rfl ?_
      obtain ⟨capable, gives⟩ := operands args
        (fun _ mem => List.mem_append_right _ mem) argsCapable
      cases receiver with
      | implicit =>
        refine gives_operandRule_bind capable (Gives.bind ?_ (gives.bind (gives_pure _)))
        exact gives_context.bind (gives_pure _)
      | named owner =>
        exact gives_operandRule_bind capable ((gives_pure _).bind (gives.bind (gives_pure _)))
      | value target =>
        refine gives_operandRule_bind (List.forall_mem_cons.mpr ⟨receiverCapable, capable⟩) ?_
        refine (inPlace target List.mem_cons_self receiverCapable).bind ?_
        exact gives.bind (gives_pure _)
    | binary op left right =>
      have inline : (((Kind.binary op left right).map part).lowering type).inline =
          some (binaryExpr op left.part right.part) := by
        cases op <;> rfl
      have placed : (Tree.node (.binary op left right) type).isInline scope.isLocal = true := by
        show (!op.isLogical || _) = true
        rw [expression, Bool.or_true]
      obtain ⟨leftCapable, rightCapable⟩ := Bool.and_eq_true_iff.mp expression
      refine gives_toInline_node inline placed (gives_operandRule_bind ?_ ?_)
      · exact List.forall_mem_cons.mpr ⟨leftCapable, List.forall_mem_singleton.mpr rightCapable⟩
      · refine (inPlace left List.mem_cons_self leftCapable).bind ?_
        refine (inPlace right ?_ rightCapable).bind (gives_pure _)
        exact List.mem_cons_of_mem _ (List.mem_singleton_self right)
    | cond test yes no =>
      have arm : ∀ tree : Option Tree, (∀ t ∈ tree.toList, t ∈ (Kind.cond test yes no).children) →
          isExpressionIfAny scope.isLocal tree = true →
          Gives (armExpr type (tree.map part)) ctx scope
            ((tree.map (expr ctx)).getD (.literal type.held.defaultValue)) := by
        intro tree mem capable
        cases tree with
        | none => exact gives_pure _
        | some tree => exact inPlace tree (mem tree (List.mem_singleton_self tree)) capable
      have placed : (Tree.node (.cond test yes no) type).isInline scope.isLocal = true :=
        expression
      simp only [isExpression, Kind.isExpression, Bool.and_eq_true] at expression
      obtain ⟨⟨testCapable, yesCapable⟩, noCapable⟩ := expression
      have yesGives := arm yes
        (fun t mem => List.mem_cons_of_mem _ (List.mem_append_left _ mem)) yesCapable
      have noGives := arm no
        (fun t mem => List.mem_cons_of_mem _ (List.mem_append_right _ mem)) noCapable
      refine gives_toInline_node rfl placed ?_
      refine Eq.subst (motive := Gives _ ctx scope) ?_ ((inPlace test List.mem_cons_self testCapable).bind
        (yesGives.bind (noGives.bind (gives_pure _))))
      cases yes <;> cases no <;> rfl
    | setField _ _ _ | seq _ | loop _ | forEach _ | jump _ | ret _ | raise _ | rescue _ _ _
    | ensure _ _ | print _ _ => exact absurd expression Bool.false_ne_true

/-- A tree that is an expression is lowered in place. -/
theorem inPlace_of_isExpression {tree : Tree} {expr : Expr}
    (expression : tree.isExpression p.scope.isLocal = true)
    (ends : Ends tree.part.toInline ctx p code expr p') : code = [] ∧ p'.scope = p.scope := by
  obtain ⟨fields, gives⟩ := gives_toInline tree ctx p.scope expression p.fields
  have same := Eq.trans (Eq.symm ends) gives
  cases same
  exact ⟨rfl, rfl⟩

end Tree

end JavaBackend
