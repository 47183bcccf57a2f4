import JavaBackend.Proofs.Lowering.Derivation

/-!
# Runs are derivations

Every run of lowering that ends well is a derivation of what it was asked to do. The rules are found
kind by kind, in the order in which lowering is defined; `Tree.derives` is the induction over trees
that puts them together.
-/

namespace JavaBackend

open Java (Stmt Code Piece Expr Test Handler)
open Lower

variable {α β : Type} {ctx : Context} {p p' : Progress} {code : Code}

namespace Lower

/-- Each run of the computation that ends well is a derivation of the task. -/
def Follows (m : Lower α) (task : Task) (yield : α → Yield) : Prop :=
  ∀ ⦃ctx p code result p'⦄, Ends m ctx p code result p' → Lowers ctx p task code (yield result) p'

/-- The run of a block is that of its statements. -/
theorem Follows.block {body : Lower Unit} {task : Task} (follows : Follows body task fun _ => .done)
    {opened : Thunk (List Piece)} {f : Code → Lower α} {result : α}
    (ends : Ends (block opened body >>= f) ctx p code result p') :
    ∃ inner p₁, Lowers ctx p task inner .done p₁ ∧ Ends (f inner) ctx p₁ code result p' := by
  obtain ⟨inner, p₁, run, rest⟩ := ends_blockBind.mp ends
  exact ⟨inner, p₁, follows run, rest⟩

theorem Follows.withLocal {m : Lower α} {task : Task} {yield : α → Yield}
    (follows : Follows m task yield) (name : String) (type : JavaType) :
    Follows (withLocal name type m) (.within (some ⟨name, type⟩) task) yield := by
  intro ctx p code result p' ends
  have run := ends_withLocal.mp ends
  cases reserved : p.scope.reserve? name type with
  | none =>
    rw [reserved] at run
    have entered : p.enter (some ⟨name, type⟩) = p := by simp only [Progress.enter, reserved]
    have left : p.leave (some ⟨name, type⟩) p' = p' := by simp only [Progress.leave, reserved]
    rw [← left]
    exact .within (entered.symm ▸ follows run)
  | some scope =>
    rw [reserved] at run
    obtain ⟨q, inner, rfl⟩ := run
    have entered : p.enter (some ⟨name, type⟩) = { p with scope := scope } := by
      simp only [Progress.enter, reserved]
    have left : p.leave (some ⟨name, type⟩) q = { q with scope := q.scope.release name } := by
      simp only [Progress.leave, reserved]
    rw [← left]
    exact .within (entered.symm ▸ follows inner)

end Lower

theorem ends_putValue {dest : Destination} {value : Expr}
    (ends : Ends (putValue dest value) ctx p code () p') : code = dest.put value ∧ p = p' := by
  cases dest with
  | discard =>
    obtain ⟨rfl, -, rfl⟩ := ends_pure.mp ends
    exact ⟨rfl, rfl⟩
  | store sink => exact ends_emit.mp ends

theorem ends_putEffect {dest : Destination} {value : Expr}
    (ends : Ends (putEffect dest value) ctx p code () p') :
    code = [dest.putEffect value] ∧ p = p' := by
  cases dest <;> exact ends_emit.mp ends

theorem ends_copyInto {name : Option String} {copied : String}
    (ends : Ends (copyInto name copied) ctx p code () p') :
    code = copyCode copied name ∧ p = p' := by
  cases name with
  | none =>
    obtain ⟨rfl, -, rfl⟩ := ends_pure.mp ends
    exact ⟨rfl, rfl⟩
  | some name => exact ends_emit.mp ends

/-! ## Values -/

/-- The runs of both ways to lower the tree are derivations. -/
structure Tree.Derives (tree : Tree) : Prop where
  inline : Follows tree.part.toInline (.operand .inline tree) .value
  statement : ∀ dest, Follows (tree.part.toStatement dest) (.statement tree dest) fun _ => .done

namespace Tree

variable {tree : Tree}

/-- A variable is asked for by means of the statements alone. -/
theorem follows_toTemp
    (statement : ∀ dest, Follows (tree.part.toStatement dest) (.statement tree dest) fun _ => .done) :
    Follows tree.part.toTemp (.temp tree) fun temp => .value (.var temp.name) := by
  intro ctx p code temp p' ends
  have loop : (∃ spec, tree.kind = .loop spec) ∨ (∃ spec, tree.kind = .forEach spec) →
      ∀ {code temp p'}, Ends (do
      tree.part.toStatement .discard
      return ⟨← Lower.newTemp .object (.literal .null), none⟩ : Lower Temp) ctx p code temp p' →
      Lowers ctx p (.temp tree) code (.value (.var temp.name)) p' := by
    intro looped code temp p' ends
    obtain ⟨_, _, _, _, ran, rest, rfl⟩ := ends_bind.mp ends
    obtain ⟨name, declared, rfl⟩ := ends_map.mp rest
    obtain ⟨rfl, rfl, rfl⟩ := ends_newTemp.mp declared
    exact .tempLoop looped (statement _ ran)
  unfold Part.toTemp at ends
  split at ends
  · next looped => exact loop (.inl ⟨_, looped⟩) ends
  · next looped => exact loop (.inr ⟨_, looped⟩) ends
  · next name value assigned =>
    obtain ⟨kind, type⟩ := tree
    cases assigned
    obtain ⟨_, _, _, _, ran, rest, rfl⟩ := ends_bind.mp ends
    obtain ⟨rfl, rfl, rfl⟩ := ends_pure.mp rest
    rw [List.append_nil]
    exact .tempAssign (statement _ ran)
  · obtain ⟨_, _, _, _, declared, rest, rfl⟩ := ends_bind.mp ends
    obtain ⟨_, _, _, _, ran, last, rfl⟩ := ends_bind.mp rest
    obtain ⟨rfl, rfl, rfl⟩ := ends_newTemp.mp declared
    obtain ⟨rfl, rfl, rfl⟩ := ends_pure.mp last
    rw [List.append_nil]
    exact .tempStore (statement _ ran)

theorem follows_toTempVar
    (statement : ∀ dest, Follows (tree.part.toStatement dest) (.statement tree dest) fun _ => .done) :
    Follows tree.part.toTempVar (.temp tree) .value := by
  intro ctx p code expr p' ends
  obtain ⟨temp, ran, rfl⟩ := ends_map.mp ends
  exact follows_toTemp statement ran

namespace Derives

theorem toExpr (derives : tree.Derives) :
    Follows tree.part.toExpr (.operand .value tree) .value := by
  intro ctx p code expr p' ends
  unfold Ends at ends
  rw [Part.toExpr_apply] at ends
  split at ends
  · next placed => exact .valueInline placed (derives.inline ends)
  · next unplaced =>
    exact .valueTemp (Bool.eq_false_iff.mpr unplaced) (follows_toTempVar derives.statement ends)

theorem toFreshTemp (derives : tree.Derives) :
    Follows tree.part.toFreshTemp (.freshTemp tree) fun temp => .value (.var temp.name) := by
  intro ctx p code temp p' ends
  unfold Ends at ends
  rw [Part.toFreshTemp_apply] at ends
  split at ends
  · next placed =>
    obtain ⟨_, _, _, _, ran, rest, rfl⟩ := ends_bind.mp ends
    obtain ⟨name, declared, rfl⟩ := ends_map.mp rest
    obtain ⟨rfl, rfl, rfl⟩ := ends_newTemp.mp declared
    exact .freshInline placed (derives.inline ran)
  · exact .freshTemp (follows_toTemp derives.statement ends)

theorem toFixed (derives : tree.Derives) :
    Follows tree.part.toFixed (.operand .fixed tree) .value := by
  intro ctx p code expr p' ends
  unfold Part.toFixed at ends
  split at ends
  · next value literal => exact .fixedInline (.inr ⟨value, literal⟩) (derives.inline ends)
  · next self => exact .fixedInline (.inl self) (derives.inline ends)
  · obtain ⟨temp, ran, rfl⟩ := ends_map.mp ends
    exact .fixedTemp (derives.toFreshTemp ran)

theorem toKept (derives : tree.Derives) : Follows tree.part.toKept (.kept tree) .value := by
  intro ctx p code expr p' ends
  unfold Part.toKept at ends
  split at ends
  · next name var => exact .keptInline (.inr ⟨name, var⟩) (derives.inline ends)
  · next self => exact .keptInline (.inl self) (derives.inline ends)
  · obtain ⟨temp, ran, rfl⟩ := ends_map.mp ends
    exact .keptTemp (derives.toFreshTemp ran)

end Derives

end Tree

/-- How a parent asks for an operand. -/
def Asking.ask : Asking → Part → Lower Expr
  | .inline => Part.toInline
  | .value => Part.toExpr
  | .fixed => Part.toFixed

theorem Asking.ask_placing (isLocal : String → Bool) (trees : List Tree) :
    (placing isLocal trees).ask =
      if (trees.map Tree.part).all (·.tree.isExpression isLocal) then Part.toInline
      else Part.toFixed := by
  have same : (trees.map Tree.part).all (·.tree.isExpression isLocal) =
      trees.all (·.isExpression isLocal) := List.all_map
  rw [same]
  unfold placing
  split <;> rfl

theorem Tree.Derives.ask {tree : Tree} (derives : tree.Derives) (asking : Asking) :
    Follows (asking.ask tree.part) (.operand asking tree) .value := by
  cases asking with
  | inline => exact derives.inline
  | value => exact derives.toExpr
  | fixed => exact derives.toFixed

variable {trees : List Tree}

theorem follows_operands (derives : ∀ tree ∈ trees, tree.Derives) (asking : Asking) :
    Follows ((trees.map Tree.part).mapM asking.ask) (.operands asking trees) .values := by
  induction trees with
  | nil =>
    intro ctx p code exprs p' ends
    obtain ⟨rfl, rfl, rfl⟩ := ends_pure.mp ends
    exact .operandsNil
  | cons tree rest ih =>
    intro ctx p code exprs p' ends
    rw [List.map_cons, List.mapM_cons] at ends
    obtain ⟨_, expr, _, _, first, others, rfl⟩ := ends_bind.mp ends
    obtain ⟨_, exprs, _, _, later, last, rfl⟩ := ends_bind.mp others
    obtain ⟨rfl, rfl, rfl⟩ := ends_pure.mp last
    rw [List.append_nil]
    exact .operandsCons ((derives tree List.mem_cons_self).ask asking first)
      (ih (fun other mem => derives other (List.mem_cons_of_mem _ mem)) later)

/-- The run of a computation that starts with the choice of a rule for its operands. -/
theorem ends_operandRule_bind {f : (Part → Lower Expr) → Lower α} {result : α}
    (ends : Ends (operandRule (trees.map Tree.part) >>= f) ctx p code result p') :
    Ends (f (placing p.scope.isLocal trees).ask) ctx p code result p' := by
  unfold Ends at ends ⊢
  rw [operandRule_bind, ← Asking.ask_placing] at ends
  exact ends

theorem ends_operandValues (derives : ∀ tree ∈ trees, tree.Derives) {exprs : List Expr}
    (ends : Ends (operandValues (trees.map Tree.part)) ctx p code exprs p') :
    Lowers ctx p (.operands (placing p.scope.isLocal trees) trees) code (.values exprs) p' :=
  follows_operands derives _ (ends_operandRule_bind ends)

theorem follows_effects (derives : ∀ tree ∈ trees, tree.Derives) :
    Follows ((trees.map Tree.part).forM (·.toStatement .discard)) (.effects trees) fun _ => .done := by
  induction trees with
  | nil =>
    intro ctx p code _ p' ends
    obtain ⟨rfl, -, rfl⟩ := ends_pure.mp ends
    exact .effectsNil
  | cons tree rest ih =>
    intro ctx p code _ p' ends
    obtain ⟨_, _, _, _, first, others, rfl⟩ := ends_bind.mp ends
    exact .effectsCons ((derives tree List.mem_cons_self).statement .discard first)
      (ih (fun other mem => derives other (List.mem_cons_of_mem _ mem)) others)

theorem follows_lowerArm {arm : Option Tree} (derives : ∀ tree ∈ arm, tree.Derives)
    (dest : Destination) (type : JavaType) :
    Follows (lowerArm (arm.map Tree.part) dest type) (.arm arm dest type) fun _ => .done := by
  intro ctx p code _ p' ends
  cases arm with
  | none =>
    obtain ⟨rfl, rfl⟩ := ends_putValue ends
    exact .armNone
  | some tree => exact .armSome ((derives tree rfl).statement dest ends)

theorem follows_lowerEffects {part : Option Tree} (derives : ∀ tree ∈ part, tree.Derives) :
    Follows (lowerEffects (part.map Tree.part)) (.maybe part .discard) fun _ => .done := by
  intro ctx p code _ p' ends
  cases part with
  | none =>
    obtain ⟨rfl, -, rfl⟩ := ends_pure.mp ends
    exact .maybeNone
  | some tree => exact .maybeSome ((derives tree rfl).statement .discard ends)

/-! ## Nodes with an expression of their own -/

/-- The own expression of a node comes from its operands, and nothing is noted beside them. -/
theorem lowers_own {kind : Kind Tree} {type : JavaType} {exprs : List Expr} {expr : Expr}
    (operands : Lowers ctx p (.operands (kind.asking p.scope.isLocal) kind.children) code
      (.values exprs) p')
    (built : kind.build? ctx type exprs = some expr) (noted : kind.noteUse type p' = p') :
    Lowers ctx p (.own kind type) code (.value expr) p' := by
  have derived := Lowers.own operands built
  rwa [noted] at derived

theorem lowers_operand {asking : Asking} {tree : Tree} {expr : Expr}
    (operand : Lowers ctx p (.operand asking tree) code (.value expr) p') :
    Lowers ctx p (.operands asking [tree]) code (.values [expr]) p' := by
  have operands : Lowers ctx p (.operands asking [tree]) (code ++ []) (.values [expr]) p' :=
    .operandsCons operand .operandsNil
  rwa [List.append_nil] at operands

/-- The own expression of a node with one operand. -/
theorem follows_around {kind : Kind Tree} {type : JavaType} {operand : Tree} {build : Expr → Expr}
    (derives : operand.Derives) (only : kind.children = [operand])
    (asking : ∀ isLocal, kind.asking isLocal = .value)
    (built : ∀ ctx expr, kind.build? ctx type [expr] = some (build expr))
    (noted : ∀ p, kind.noteUse type p = p) :
    Follows (do return build (← operand.part.toExpr)) (.own kind type) .value := by
  intro ctx p code expr p' ends
  obtain ⟨value, ran, rfl⟩ := ends_map.mp ends
  refine lowers_own ?_ (built ctx value) (noted p')
  rw [asking, only]
  exact lowers_operand (derives.toExpr ran)

/-- The own expression of a node without operands. -/
theorem follows_leaf {kind : Kind Tree} {type : JavaType} {expr : Expr}
    (none : kind.children = []) (built : ∀ ctx, kind.build? ctx type [] = some expr)
    (noted : ∀ p, kind.noteUse type p = p) : Follows (pure expr) (.own kind type) .value := by
  intro ctx p code expr p' ends
  obtain ⟨rfl, rfl, rfl⟩ := ends_pure.mp ends
  refine lowers_own ?_ (built ctx) (noted p)
  rw [none]
  exact .operandsNil

theorem ends_fieldExpr {name : String} {isStatic : Bool} {expr : Expr}
    (ends : Ends (fieldExpr name isStatic) ctx p code expr p') :
    code = [] ∧ expr = ctx.field name isStatic ∧ p = p' := by
  obtain ⟨_, _, _, _, asked, rest, rfl⟩ := ends_bind.mp ends
  obtain ⟨rfl, rfl, rfl⟩ := ends_context.mp asked
  obtain ⟨rfl, rfl, rfl⟩ := ends_pure.mp rest
  exact ⟨rfl, rfl, rfl⟩

theorem follows_fieldValue (name : String) (isStatic : Bool) (type : JavaType) :
    Follows (fieldValue name isStatic type) (.own (.field name isStatic) type) .value := by
  intro ctx p code expr p' ends
  obtain ⟨_, _, _, _, noted, rest, rfl⟩ := ends_bind.mp ends
  obtain ⟨rfl, rfl⟩ := ends_useField.mp noted
  obtain ⟨rfl, rfl, rfl⟩ := ends_fieldExpr rest
  have leaf : Lowers ctx p (.operands .value []) [] (.values []) p := .operandsNil
  exact Lowers.own leaf rfl

theorem ends_ownReceiver {expr : Expr} (ends : Ends ownReceiver ctx p code expr p') :
    code = [] ∧ expr = ctx.ownReceiver ∧ p = p' := by
  obtain ⟨_, _, _, _, asked, rest, rfl⟩ := ends_bind.mp ends
  obtain ⟨rfl, rfl, rfl⟩ := ends_context.mp asked
  obtain ⟨rfl, rfl, rfl⟩ := ends_pure.mp rest
  exact ⟨rfl, rfl, rfl⟩

/-- The receiver of a call, as the rule for its operands has it. -/
def callTarget (rule : Part → Lower Expr) : Receiver Part → Lower Expr
  | .implicit => ownReceiver
  | .named type => pure (.owner type.source)
  | .value target => rule target

theorem callExpr_eq (receiver : Receiver Part) (method : String) (args : List Part) :
    callExpr receiver method args = operandRule (receiver.toList ++ args) >>= fun rule =>
      callTarget rule receiver >>= fun target => Expr.call target method <$> args.mapM rule := by
  cases receiver <;> rfl

theorem follows_callExpr {receiver : Receiver Tree} {args : List Tree}
    (derives : ∀ tree ∈ receiver.toList ++ args, tree.Derives) (method : String)
    (returns type : JavaType) :
    Follows (callExpr (receiver.map Tree.part) method (args.map Tree.part))
      (.own (.call receiver method args returns) type) .value := by
  intro ctx p code expr p' ends
  have parts : (receiver.map Tree.part).toList ++ args.map Tree.part =
      (receiver.toList ++ args).map Tree.part := by
    cases receiver <;> simp [Receiver.map, Receiver.toList]
  rw [callExpr_eq, parts] at ends
  have chosen := ends_operandRule_bind ends
  obtain ⟨_, target, q, _, received, rest, rfl⟩ := ends_bind.mp chosen
  obtain ⟨exprs, ran, rfl⟩ := ends_map.mp rest
  have arguments := follows_operands
    (fun tree mem => derives tree (List.mem_append_right _ mem)) _ ran
  cases receiver with
  | implicit =>
    obtain ⟨rfl, rfl, rfl⟩ := ends_ownReceiver received
    exact lowers_own arguments rfl rfl
  | named owner =>
    obtain ⟨rfl, rfl, rfl⟩ := ends_pure.mp received
    exact lowers_own arguments rfl rfl
  | value tree =>
    have operand := (derives tree List.mem_cons_self).ask _ received
    exact lowers_own (.operandsCons operand arguments) rfl rfl

theorem follows_new {args : List Tree} (derives : ∀ tree ∈ args, tree.Derives)
    (made type : JavaType) :
    Follows (do return Expr.new made (← operandValues (args.map Tree.part))) (.own (.new made args) type)
      .value := by
  intro ctx p code expr p' ends
  obtain ⟨exprs, ran, rfl⟩ := ends_map.mp ends
  exact lowers_own (ends_operandValues derives ran) rfl rfl

theorem follows_concat {parts : List Tree} (derives : ∀ tree ∈ parts, tree.Derives)
    (type : JavaType) :
    Follows (do return Expr.concat (← operandValues (parts.map Tree.part))) (.own (.concat parts) type)
      .value := by
  intro ctx p code expr p' ends
  obtain ⟨exprs, ran, rfl⟩ := ends_map.mp ends
  exact lowers_own (ends_operandValues derives ran) rfl rfl

theorem follows_binaryExpr {left right : Tree} (leftDerives : left.Derives)
    (rightDerives : right.Derives) (op : BinaryOp) (type : JavaType) :
    Follows (binaryExpr op left.part right.part) (.own (.binary op left right) type) .value := by
  intro ctx p code expr p' ends
  change Ends (operandRule ([left, right].map Tree.part) >>= _) ctx p code expr p' at ends
  have chosen := ends_operandRule_bind ends
  obtain ⟨_, _, _, _, first, rest, rfl⟩ := ends_bind.mp chosen
  obtain ⟨second, ran, rfl⟩ := ends_map.mp rest
  have last := lowers_operand (rightDerives.ask _ ran)
  exact lowers_own (.operandsCons (leftDerives.ask _ first) last) rfl rfl

/-- A missing branch adds no operand, and its value is the type's default. -/
theorem ends_armExpr {arm : Option Tree} (derives : ∀ tree ∈ arm, tree.Derives) {type : JavaType}
    {expr : Expr} (ends : Ends (armExpr type (arm.map Tree.part)) ctx p code expr p') :
    (arm = none ∧ expr = .literal type.held.defaultValue ∧ code = [] ∧ p = p') ∨
      ∃ tree, arm = some tree ∧ Lowers ctx p (.operand .inline tree) code (.value expr) p' := by
  cases arm with
  | none =>
    obtain ⟨rfl, rfl, rfl⟩ := ends_pure.mp ends
    exact .inl ⟨rfl, rfl, rfl, rfl⟩
  | some tree => exact .inr ⟨tree, rfl, (derives tree rfl).inline ends⟩

theorem follows_condExpr {test : Tree} {yes no : Option Tree} (testDerives : test.Derives)
    (yesDerives : ∀ arm ∈ yes, arm.Derives) (noDerives : ∀ arm ∈ no, arm.Derives)
    (type : JavaType) :
    Follows (condExpr test.part (yes.map Tree.part) (no.map Tree.part) type)
      (.own (.cond test yes no) type) .value := by
  intro ctx p code expr p' ends
  obtain ⟨code₁, testExpr, p₁, _, tested, rest, rfl⟩ := ends_bind.mp ends
  obtain ⟨code₂, yesExpr, p₂, _, yesRan, others, rfl⟩ := ends_bind.mp rest
  obtain ⟨noExpr, noRan, rfl⟩ := ends_map.mp others
  have first := testDerives.inline tested
  rcases ends_armExpr yesDerives yesRan with ⟨rfl, rfl, rfl, rfl⟩ | ⟨yesTree, rfl, yesRun⟩ <;>
    rcases ends_armExpr noDerives noRan with ⟨rfl, rfl, rfl, rfl⟩ | ⟨noTree, rfl, noRun⟩
  · exact lowers_own (.operandsCons first .operandsNil) rfl rfl
  · exact lowers_own (.operandsCons first (lowers_operand noRun)) rfl rfl
  · exact lowers_own (.operandsCons first (.operandsCons yesRun .operandsNil)) rfl rfl
  · exact lowers_own (.operandsCons first (.operandsCons yesRun (lowers_operand noRun))) rfl rfl

/-! ## Assignments and calls -/

theorem follows_lowerAssign {value : Tree} (derives : value.Derives) (name : String)
    (type : JavaType) (dest : Destination) :
    Follows (lowerAssign name value.part type dest) (.statement (.node (.assign name value) type) dest)
      fun _ => .done := by
  intro ctx p code _ p' ends
  obtain ⟨_, expr, q, _, ran, rest, rfl⟩ := ends_bind.mp ends
  have operand := derives.toExpr ran
  unfold Ends at rest
  rw [Lower.isLocal_bind] at rest
  cases known : q.scope.isLocal name with
  | true =>
    rw [known] at rest
    obtain ⟨_, _, _, _, stored, last, rfl⟩ := ends_bind.mp rest
    obtain ⟨rfl, rfl⟩ := ends_emit.mp stored
    obtain ⟨rfl, rfl⟩ := ends_putValue last
    exact .assignKnown operand known
  | false =>
    rw [known] at rest
    obtain ⟨_, _, _, _, declared, last, rfl⟩ := ends_bind.mp rest
    have reserved : q.scope.reserve? name type.held =
        some { q.scope with locals := q.scope.locals.insert name type.held } := by
      unfold Scope.reserve?
      rw [known]
      rfl
    have run := ends_declareLocal.mp declared
    rw [reserved] at run
    obtain ⟨rfl, rfl⟩ := run
    obtain ⟨rfl, rfl⟩ := ends_putValue last
    exact .assignNew operand reserved

theorem follows_lowerSetField {value : Tree} (derives : value.Derives) (name : String)
    (isStatic : Bool) (type : JavaType) (dest : Destination) :
    Follows (lowerSetField name value.part isStatic type dest)
      (.statement (.node (.setField name value isStatic) type) dest) fun _ => .done := by
  intro ctx p code _ p' ends
  obtain ⟨_, _, _, _, noted, rest, rfl⟩ := ends_bind.mp ends
  obtain ⟨_, expr, _, _, ran, others, rfl⟩ := ends_bind.mp rest
  obtain ⟨_, field, _, _, asked, set, rfl⟩ := ends_bind.mp others
  obtain ⟨_, _, _, _, stored, last, rfl⟩ := ends_bind.mp set
  obtain ⟨rfl, rfl⟩ := ends_useField.mp noted
  obtain ⟨rfl, rfl, rfl⟩ := ends_fieldExpr asked
  obtain ⟨rfl, rfl⟩ := ends_emit.mp stored
  obtain ⟨rfl, rfl⟩ := ends_putValue last
  exact .setField (derives.toExpr ran)

theorem follows_voidReceiver {receiver : Receiver Tree}
    (derives : ∀ tree ∈ receiver.toList, tree.Derives) :
    Follows (voidReceiver (receiver.map Tree.part)) (.receiver receiver)
      fun pair => .values [pair.1, pair.2] := by
  intro ctx p code pair p' ends
  cases receiver with
  | implicit =>
    obtain ⟨_, _, _, _, asked, rest, rfl⟩ := ends_bind.mp ends
    obtain ⟨rfl, rfl, rfl⟩ := ends_context.mp asked
    obtain ⟨target, received, rfl⟩ := ends_map.mp rest
    obtain ⟨rfl, rfl, rfl⟩ := ends_ownReceiver received
    exact .receiverOwn
  | named type =>
    obtain ⟨rfl, rfl, rfl⟩ := ends_pure.mp ends
    exact .receiverNamed
  | value target =>
    rw [Receiver.map, voidReceiver_value] at ends
    obtain ⟨expr, ran, rfl⟩ := ends_map.mp ends
    exact .receiverValue ((derives target List.mem_cons_self).toKept ran)

theorem follows_lowerCall {receiver : Receiver Tree} {args : List Tree}
    (derives : ∀ tree ∈ receiver.toList ++ args, tree.Derives) (method : String)
    (returns type : JavaType) (dest : Destination) :
    Follows (lowerCall (receiver.map Tree.part) method (args.map Tree.part) returns dest)
      (.statement (.node (.call receiver method args returns) type) dest) fun _ => .done := by
  intro ctx p code _ p' ends
  unfold lowerCall at ends
  split at ends
  · next both =>
    obtain ⟨void, wanted⟩ := Bool.and_eq_true_iff.mp both
    cases dest with
    | discard => cases wanted
    | store sink =>
      rw [List.forall_mem_append] at derives
      obtain ⟨_, pair, _, _, received, rest, rfl⟩ := ends_bind.mp ends
      obtain ⟨_, exprs, _, _, ran, others, rfl⟩ := ends_bind.mp rest
      obtain ⟨_, _, _, _, called, last, rfl⟩ := ends_bind.mp others
      obtain ⟨rfl, rfl⟩ := ends_emit.mp called
      obtain ⟨rfl, rfl⟩ := ends_putValue last
      exact .voidCall void (follows_voidReceiver derives.1 received)
        (ends_operandValues derives.2 ran)
  · next effect =>
    obtain ⟨_, expr, _, _, ran, last, rfl⟩ := ends_bind.mp ends
    obtain ⟨rfl, rfl⟩ := ends_putEffect last
    refine .putEffect ?_ (follows_callExpr derives method returns type ran)
    show (!(returns.isVoid && dest.wantsValue)) = true
    rw [Bool.eq_false_iff.mpr effect]
    rfl

/-! ## Branches, sequences and ends -/

theorem follows_lowerCond {test : Tree} {yes no : Option Tree} (testDerives : test.Derives)
    (yesDerives : ∀ arm ∈ yes, arm.Derives) (noDerives : ∀ arm ∈ no, arm.Derives)
    (type : JavaType) (dest : Destination) :
    Follows (lowerCond test.part (yes.map Tree.part) (no.map Tree.part) type dest)
      (.statement (.node (.cond test yes no) type) dest) fun _ => .done := by
  intro ctx p code _ p' ends
  obtain ⟨_, expr, _, _, ran, rest, rfl⟩ := ends_bind.mp ends
  obtain ⟨yesCode, _, yesRun, others⟩ := (follows_lowerArm yesDerives dest type.held).block rest
  have tested := testDerives.toExpr ran
  split at others
  · obtain ⟨noCode, _, noRun, last⟩ := (follows_lowerArm noDerives dest type.held).block others
    obtain ⟨rfl, rfl⟩ := ends_emit.mp last
    exact .condElse tested yesRun noRun
  · next left =>
    obtain ⟨rfl, rfl⟩ := ends_emit.mp others
    cases no with
    | some arm => exact absurd rfl left
    | none =>
      cases dest with
      | store sink => exact absurd rfl left
      | discard => exact .condThen tested yesRun

theorem follows_lowerLogical {left right : Tree} (leftDerives : left.Derives)
    (rightDerives : right.Derives) (isOr : Bool) (type : JavaType) (dest : Destination) :
    Follows (lowerLogical isOr left.part right.part dest)
      (.statement (.node (.binary (bif isOr then .or else .and) left right) type) dest)
      fun _ => .done := by
  intro ctx p code _ p' ends
  obtain ⟨_, expr, _, _, ran, rest, rfl⟩ := ends_bind.mp ends
  have tested := leftDerives.toExpr ran
  cases dest with
  | discard =>
    obtain ⟨more, _, run, last⟩ := (rightDerives.statement _).block rest
    obtain ⟨rfl, rfl⟩ := ends_emit.mp last
    cases isOr <;> exact .logicalDiscard rfl tested run
  | store sink =>
    cases isOr with
    | false =>
      obtain ⟨more, _, run, others⟩ := (rightDerives.statement _).block rest
      obtain ⟨skip, _, put, last⟩ := ends_blockBind.mp others
      change Ends (putValue (.store sink) (.literal (.bool false))) _ _ _ _ _ at put
      obtain ⟨rfl, rfl⟩ := ends_putValue put
      obtain ⟨rfl, rfl⟩ := ends_emit.mp last
      exact .andStore tested run
    | true =>
      obtain ⟨skip, _, put, others⟩ := ends_blockBind.mp rest
      obtain ⟨more, _, run, last⟩ := (rightDerives.statement _).block others
      change Ends (putValue (.store sink) (.literal (.bool true))) _ _ _ _ _ at put
      obtain ⟨rfl, rfl⟩ := ends_putValue put
      obtain ⟨rfl, rfl⟩ := ends_emit.mp last
      exact .orStore tested run

theorem follows_lowerSeq (type : JavaType) (dest : Destination) {nodes : List Tree}
    (derives : ∀ tree ∈ nodes, tree.Derives) :
    Follows (lowerSeq type dest (nodes.map Tree.part)) (.seq nodes type dest) fun _ => .done := by
  induction nodes with
  | nil =>
    intro ctx p code _ p' ends
    obtain ⟨rfl, rfl⟩ := ends_putValue ends
    exact .seqNil
  | cons first rest ih =>
    intro ctx p code _ p' ends
    have firstDerives := derives first List.mem_cons_self
    cases rest with
    | nil => exact .seqLast (firstDerives.statement dest ends)
    | cons second rest =>
      obtain ⟨_, _, _, _, ran, others, rfl⟩ := ends_bind.mp ends
      exact .seqCons (firstDerives.statement .discard ran)
        (ih (fun tree mem => derives tree (List.mem_cons_of_mem first mem)) others)

theorem follows_lowerReturn {value : Option Tree} (derives : ∀ tree ∈ value, tree.Derives)
    (type : JavaType) (dest : Destination) :
    Follows (lowerReturn (value.map Tree.part)) (.statement (.node (.ret value) type) dest)
      fun _ => .done := by
  intro ctx p code _ p' ends
  cases value with
  | none =>
    obtain ⟨rfl, rfl⟩ := ends_emit.mp ends
    exact .retNone
  | some tree =>
    have treeDerives := derives tree rfl
    unfold lowerReturn Ends at ends
    dsimp only [Option.map_some] at ends
    rw [Lower.context_bind] at ends
    split at ends
    · next void =>
      obtain ⟨_, _, _, _, ran, last, rfl⟩ := ends_bind.mp ends
      obtain ⟨rfl, rfl⟩ := ends_emit.mp last
      exact .retVoid void (treeDerives.statement .discard ran)
    · next returns =>
      have returns := Bool.eq_false_iff.mpr returns
      rw [Part.isExpression_bind] at ends
      split at ends
      · next placed =>
        obtain ⟨_, expr, _, _, ran, last, rfl⟩ := ends_bind.mp ends
        obtain ⟨rfl, rfl⟩ := ends_emit.mp last
        exact .retInline returns placed (treeDerives.inline ran)
      · exact .retStore returns (treeDerives.statement _ ends)

theorem follows_lowerRaise {value : Tree} (derives : value.Derives) (type : JavaType)
    (dest : Destination) :
    Follows (lowerRaise value.part) (.statement (.node (.raise value) type) dest) fun _ => .done := by
  intro ctx p code _ p' ends
  unfold lowerRaise Ends at ends
  rw [Part.isExpression_bind] at ends
  split at ends
  · next placed =>
    obtain ⟨_, expr, _, _, ran, last, rfl⟩ := ends_bind.mp ends
    obtain ⟨rfl, rfl⟩ := ends_emit.mp last
    exact .raiseInline placed (derives.inline ran)
  · exact .raiseStore (derives.statement _ ends)

theorem follows_lowerPrint {value : Option Tree} (derives : ∀ tree ∈ value, tree.Derives)
    (newline : Bool) (type : JavaType) (dest : Destination) :
    Follows (lowerPrint (value.map Tree.part) newline dest)
      (.statement (.node (.print value newline) type) dest) fun _ => .done := by
  intro ctx p code _ p' ends
  cases value with
  | none =>
    obtain ⟨_, _, _, _, missing, rest, rfl⟩ := ends_bind.mp ends
    obtain ⟨rfl, rfl, rfl⟩ := ends_pure.mp missing
    obtain ⟨_, _, _, _, printed, last, rfl⟩ := ends_bind.mp rest
    obtain ⟨rfl, rfl⟩ := ends_emit.mp printed
    obtain ⟨rfl, rfl⟩ := ends_putValue last
    have operand : Lowers ctx p (.operands .value (none : Option Tree).toList) [] (.values []) p :=
      .operandsNil
    exact .print operand
  | some tree =>
    obtain ⟨_, _, _, _, mapped, rest, rfl⟩ := ends_bind.mp ends
    obtain ⟨expr, ran, rfl⟩ := ends_map.mp mapped
    obtain ⟨_, _, _, _, printed, last, rfl⟩ := ends_bind.mp rest
    obtain ⟨rfl, rfl⟩ := ends_emit.mp printed
    obtain ⟨rfl, rfl⟩ := ends_putValue last
    have operand : Lowers ctx p (.operands .value (some tree).toList) _ (.values [expr]) _ :=
      lowers_operand ((derives tree rfl).toExpr ran)
    exact .print operand

/-! ## Exceptions -/

theorem follows_guarded {body otherwise : Option Tree} (bodyDerives : ∀ tree ∈ body, tree.Derives)
    (otherwiseDerives : ∀ tree ∈ otherwise, tree.Derives) (type : JavaType) (dest : Destination) :
    Follows (guarded (body.map Tree.part) (otherwise.map Tree.part) type dest)
      (.guarded body otherwise type dest) fun _ => .done := by
  intro ctx p code _ p' ends
  cases otherwise with
  | none => exact .guardedPlain (follows_lowerArm bodyDerives dest type ends)
  | some tree =>
    obtain ⟨_, _, _, _, ran, rest, rfl⟩ := ends_bind.mp ends
    exact .guardedElse (follows_lowerArm bodyDerives .discard type ran)
      ((otherwiseDerives tree rfl).statement dest rest)

/-- The handlers that a computation adds behind those at hand are those of a task, and nothing is laid
    out. -/
def Adds (add : List (Handler Code) → Lower (List (Handler Code))) (ctx : Context) (p : Progress)
    (task : Task) : Prop :=
  ∀ ⦃code handlers handlers' p'⦄, Ends (add handlers) ctx p code handlers' p' →
    code = [] ∧ ∃ more, handlers' = handlers ++ more ∧ Lowers ctx p task [] (.handlers more) p'

theorem adds_handlers {arm : Option Tree} {type : JavaType} {dest : Destination}
    (derives : ∀ tree ∈ arm, tree.Derives) (opened : Thunk (List Piece))
    (clause : RescueClause Part) (known : Bool) (types : List JavaType) (ctx : Context) :
    ∀ p, Adds (fun handlers =>
        types.foldlM (addHandler opened clause known (lowerArm (arm.map Tree.part) dest type)) handlers)
      ctx p (.handlers types clause.name known arm type dest) := by
  have follows := follows_lowerArm derives dest type
  induction types with
  | nil =>
    intro p code handlers handlers' p' ends
    obtain ⟨rfl, rfl, rfl⟩ := ends_pure.mp ends
    exact ⟨rfl, [], (List.append_nil _).symm, .handlersNil⟩
  | cons caught rest ih =>
    intro p code handlers handlers' p' ends
    simp only [List.foldlM_cons] at ends
    obtain ⟨_, _, q, _, first, later, rfl⟩ := ends_bind.mp ends
    obtain ⟨rfl, more, rfl, others⟩ := ih q later
    unfold addHandler at first
    dsimp only at first
    split at first
    · next name named =>
      obtain ⟨inner, _, run, last⟩ := (follows.withLocal name caught).block first
      obtain ⟨rfl, rfl, rfl⟩ := ends_pure.mp last
      rw [named] at others
      exact ⟨rfl, _, List.append_assoc _ _ _, named ▸ .handlersNamed run others⟩
    · next taken =>
      obtain ⟨_, fresh, _, _, chosen, later, rfl⟩ := ends_bind.mp first
      obtain ⟨inner, _, run, last⟩ := ends_blockBind.mp later
      obtain ⟨rfl, rfl, rfl⟩ := ends_freshName.mp chosen
      obtain ⟨rfl, rfl, rfl⟩ := ends_pure.mp last
      obtain ⟨_, _, _, _, copied, ran, rfl⟩ := ends_bind.mp run
      obtain ⟨rfl, rfl⟩ := ends_copyInto copied
      refine ⟨rfl, _, List.append_assoc _ _ _, .handlersFresh ?_ (follows ran) others⟩
      cases name : clause.name with
      | none => exact .inl rfl
      | some name' => exact .inr (Bool.of_not_eq_false fun known => taken name' name known)

theorem adds_addHandlers {clause : RescueClause Tree} {type : JavaType} {dest : Destination}
    (derives : ∀ tree ∈ clause.body, tree.Derives) (opened : Thunk (List Piece)) (ctx : Context)
    (p : Progress) :
    Adds (fun handlers => addHandlers opened dest type handlers (clause.map Tree.part)) ctx p
      (.handlers (if clause.types.isEmpty then [anyException] else clause.types) clause.name
        (clause.name.any p.scope.isLocal) clause.body type dest) := by
  intro code handlers handlers' p' ends
  obtain ⟨types, name, body⟩ := clause
  cases name with
  | none =>
    obtain ⟨_, known, _, _, found, later, rfl⟩ := ends_bind.mp ends
    obtain ⟨rfl, rfl, rfl⟩ := ends_pure.mp found
    exact adds_handlers derives opened _ false _ ctx p later
  | some name =>
    obtain ⟨_, known, _, _, found, later, rfl⟩ := ends_bind.mp ends
    obtain ⟨rfl, rfl, rfl⟩ := ends_isLocal.mp found
    exact adds_handlers derives opened _ (p.scope.isLocal name) _ ctx p later

theorem adds_clauses {clauses : List (RescueClause Tree)} {type : JavaType} {dest : Destination}
    (derives : ∀ clause ∈ clauses, ∀ tree ∈ clause.body, tree.Derives)
    (opened : Thunk (List Piece)) (ctx : Context) :
    ∀ p, Adds (fun handlers => clauses.foldlM
        (fun handlers clause => addHandlers opened dest type handlers (clause.map Tree.part)) handlers)
      ctx p (.clauses clauses type dest) := by
  induction clauses with
  | nil =>
    intro p code handlers handlers' p' ends
    obtain ⟨rfl, rfl, rfl⟩ := ends_pure.mp ends
    exact ⟨rfl, [], (List.append_nil _).symm, .clausesNil⟩
  | cons clause rest ih =>
    intro p code handlers handlers' p' ends
    simp only [List.foldlM_cons] at ends
    obtain ⟨_, _, q, _, first, later, rfl⟩ := ends_bind.mp ends
    obtain ⟨rfl, one, rfl, handled⟩ :=
      adds_addHandlers (derives clause List.mem_cons_self) opened ctx p first
    obtain ⟨rfl, more, rfl, others⟩ :=
      ih (fun other mem => derives other (List.mem_cons_of_mem _ mem)) q later
    exact ⟨rfl, one ++ more, List.append_assoc _ _ _, .clausesCons handled others⟩

theorem follows_lowerRescue {body otherwise : Option Tree} {clauses : List (RescueClause Tree)}
    (bodyDerives : ∀ tree ∈ body, tree.Derives)
    (clausesDerive : ∀ clause ∈ clauses, ∀ tree ∈ clause.body, tree.Derives)
    (otherwiseDerives : ∀ tree ∈ otherwise, tree.Derives) (type : JavaType) (dest : Destination) :
    Follows (lowerRescue (body.map Tree.part) (clauses.map (RescueClause.map Tree.part))
        (otherwise.map Tree.part) type dest)
      (.statement (.node (.rescue body clauses otherwise) type) dest) fun _ => .done := by
  intro ctx p code _ p' ends
  have main := follows_guarded bodyDerives otherwiseDerives type.held dest
  cases clauses with
  | nil => exact .rescueNone (main ends)
  | cons clause rest =>
    obtain ⟨inner, q, run, later⟩ := main.block ends
    obtain ⟨_, handlers, _, _, handled, last, rfl⟩ := ends_bind.mp later
    obtain ⟨rfl, rfl⟩ := ends_emit.mp last
    rw [List.foldlM_map] at handled
    obtain ⟨rfl, more, rfl, derived⟩ := adds_clauses clausesDerive _ ctx q handled
    exact .rescue (List.cons_ne_nil _ _) run derived

theorem follows_lowerEnsure {body cleanup : Tree} (bodyDerives : body.Derives)
    (cleanupDerives : cleanup.Derives) (type : JavaType) (dest : Destination) :
    Follows (lowerEnsure body.part cleanup.part dest)
      (.statement (.node (.ensure body cleanup) type) dest) fun _ => .done := by
  intro ctx p code _ p' ends
  obtain ⟨inner, _, run, later⟩ := (bodyDerives.statement dest).block ends
  obtain ⟨last, _, cleaned, emitted⟩ := (cleanupDerives.statement .discard).block later
  obtain ⟨rfl, rfl⟩ := ends_emit.mp emitted
  exact .ensure run cleaned

/-! ## Loops with a condition -/

variable {spec : Loop Tree}

theorem follows_lowerLabeledBody {body : Option Tree} (derives : ∀ tree ∈ body, tree.Derives)
    (inner : String) (flag : Option String) :
    Follows (lowerLabeledBody (body.map Tree.part) inner flag) (.labeledBody body inner flag)
      fun _ => .done := by
  intro ctx p code _ p' ends
  cases flag with
  | none =>
    obtain ⟨inside, _, run, last⟩ := (follows_lowerEffects derives).block ends
    obtain ⟨rfl, rfl⟩ := ends_emit.mp last
    exact .labeledBody run
  | some flag =>
    obtain ⟨inside, _, run, last⟩ := ends_blockBind.mp ends
    obtain ⟨_, _, _, _, cleared, ran, rfl⟩ := ends_bind.mp run
    obtain ⟨rfl, rfl⟩ := ends_emit.mp cleared
    obtain ⟨rfl, rfl⟩ := ends_emit.mp last
    exact .labeledBody (follows_lowerEffects derives ran)

/-- The condition is computed again at the end of a pass if it is in a variable. -/
theorem follows_lowerPass (derives : spec.Each Tree.Derives) (inner : String) (flag held : Option String) :
    Follows (lowerPass (spec.map Tree.part) inner flag
        (held.map fun name => ⟨name, some spec.cond.part⟩)) (.pass spec inner flag held)
      fun _ => .done := by
  intro ctx p code _ p' ends
  obtain ⟨_, _, _, _, opened, rest, rfl⟩ := ends_bind.mp ends
  obtain ⟨_, _, _, _, passed, others, rfl⟩ := ends_bind.mp rest
  obtain ⟨_, _, _, _, ended, last, rfl⟩ := ends_bind.mp others
  refine .pass (follows_lowerEffects derives.pre opened)
    (follows_lowerLabeledBody derives.body inner flag passed)
    (follows_lowerEffects derives.post ended) ?_
  cases held with
  | none =>
    obtain ⟨rfl, -, rfl⟩ := ends_pure.mp last
    exact .maybeNone
  | some name => exact .maybeSome (derives.cond.statement _ last)

/-- What is left of a loop with a labeled body is its pass, under labels and a flag of its own. -/
theorem lowers_lowerTestedLoop (derives : spec.Each Tree.Derives) {cond : Expr} (held : Option String)
    (ends : Ends (lowerTestedLoop (spec.map Tree.part) cond
      (held.map fun name => ⟨name, some spec.cond.part⟩)) ctx p code () p') :
    ∃ pass, Lowers (ctx.enter ⟨.labeledWhile, p.nextLabels, p.flag spec.redo⟩)
        (p.takeLabels.takeFlag spec.redo)
        (.pass spec p.nextLabels.inner (p.flag spec.redo) held) pass .done p' ∧
      code = [.labeled p.nextLabels.outer (loopStmt spec.checkFirst ⟨cond, spec.negative⟩
        (p.flagCode spec.redo ++ pass))] := by
  obtain ⟨pass, passed, rfl⟩ := ends_lowerTestedLoop ends
  exact ⟨pass, follows_lowerPass derives _ _ held passed, rfl⟩

theorem follows_lowerLoop (derives : spec.Each Tree.Derives) :
    Follows (lowerLoop (spec.map Tree.part)) (.loop spec) fun _ => .done := by
  intro ctx p code _ p' ends
  unfold Ends at ends
  rw [lowerLoop_apply] at ends
  obtain ⟨_, _, _, _, checked, rest, rfl⟩ := ends_bind.mp ends
  obtain ⟨rfl, rfl⟩ := ends_refuseRedo checked
  obtain ⟨_, _, p₁, _, begun, main, rfl⟩ := ends_bind.mp rest
  have init := follows_lowerEffects derives.init begun
  split at main
  · next labeled =>
    rw [lowerLabeledLoop_eq] at main
    obtain ⟨_, ⟨cond, held⟩, q, _, tested, looped, rfl⟩ := ends_bind.mp main
    rcases ends_loopTest tested with ⟨placed, rfl, inline⟩ | ⟨unplaced, same, first, rfl, run⟩
    · obtain ⟨pass, passed, rfl⟩ := lowers_lowerTestedLoop derives none looped
      simp only [Loop.isLabeled, Loop.map, Bool.or_eq_true, Bool.not_eq_true', Option.isSome_map,
        or_assoc] at labeled
      exact .testedLoop labeled init (derives.cond.inline inline) placed passed
    · cases same
      obtain ⟨pass, passed, rfl⟩ := lowers_lowerTestedLoop derives (some p₁.nextTemp) looped
      refine .heldLoop init unplaced ?_ passed
      rcases run with ⟨checked, ran⟩ | ⟨unchecked, rfl, rfl⟩
      · rw [show spec.checkFirst = true from checked]
        exact .maybeSome (derives.cond.statement _ ran)
      · rw [show spec.checkFirst = false from unchecked]
        exact .maybeNone
  · next plain =>
    obtain ⟨redo, post, placed⟩ := Loop.isLabeled_eq_false (Bool.eq_false_iff.mpr plain)
    obtain ⟨_, expr, _, _, tested, others, rfl⟩ := ends_bind.mp main
    obtain ⟨inner, _, run, last⟩ := ends_blockBind.mp others
    obtain ⟨rfl, rfl⟩ := ends_emit.mp last
    obtain ⟨_, _, _, _, opened, passed, rfl⟩ := ends_bind.mp (ends_inLoop.mp run)
    exact .plainLoop redo (Option.map_eq_none_iff.mp post) placed init (derives.cond.inline tested)
      (follows_lowerEffects derives.pre opened) (follows_lowerEffects derives.body passed)

/-! ## Loops over elements -/

theorem follows_lowerForEach {spec : ForEach Tree} (iterable : spec.iterable.Derives)
    (body : ∀ tree ∈ spec.body, tree.Derives) :
    Follows (lowerForEach (spec.map Tree.part)) (.forEach spec) fun _ => .done := by
  intro ctx p code _ p' ends
  rw [lowerForEach_eq] at ends
  obtain ⟨_, _, _, _, checked, rest, rfl⟩ := ends_bind.mp ends
  obtain ⟨rfl, rfl⟩ := ends_refuseRedo checked
  obtain ⟨_, expr, q, _, ran, others, rfl⟩ := ends_bind.mp rest
  have iterated := iterable.toExpr ran
  obtain ⟨_, copyOf, r, _, chosen, main, rfl⟩ := ends_bind.mp others
  unfold eachCopy Ends at chosen
  rw [Lower.isLocal_bind] at chosen
  have var : (spec.map Tree.part).var = spec.var := rfl
  rw [var] at chosen
  have redo : (spec.map Tree.part).redo = spec.redo := rfl
  cases known : q.scope.isLocal spec.var with
  | true =>
    rw [known] at chosen
    obtain ⟨name, taken, rfl⟩ := ends_map.mp chosen
    obtain ⟨rfl, rfl, rfl⟩ := ends_freshName.mp taken
    cases labeled : spec.redo with
    | false =>
      obtain ⟨copy, p₁, pass, copied, passed, rfl⟩ := ends_plainElements (redo.trans labeled) main
      obtain ⟨rfl, rfl⟩ := ends_copyInto copied
      exact .copiedElements labeled iterated known (follows_lowerEffects body passed)
    | true =>
      obtain ⟨copy, p₁, pass, copied, passed, rfl⟩ := ends_labeledElements (redo.trans labeled) main
      obtain ⟨rfl, rfl⟩ := ends_copyInto copied
      exact .labeledCopies labeled iterated known (follows_lowerLabeledBody body _ _ passed)
  | false =>
    rw [known] at chosen
    obtain ⟨rfl, rfl, rfl⟩ := ends_pure.mp chosen
    cases labeled : spec.redo with
    | false =>
      obtain ⟨copy, p₁, pass, copied, passed, rfl⟩ := ends_plainElements (redo.trans labeled) main
      obtain ⟨rfl, rfl⟩ := ends_copyInto copied
      exact .plainElements labeled iterated known
        ((follows_lowerEffects body).withLocal _ _ passed)
    | true =>
      obtain ⟨copy, p₁, pass, copied, passed, rfl⟩ := ends_labeledElements (redo.trans labeled) main
      obtain ⟨rfl, rfl⟩ := ends_copyInto copied
      exact .labeledElements labeled iterated known
        ((follows_lowerLabeledBody body _ _).withLocal _ _ passed)

/-! ## Nodes -/

/-- The runs of both ways to lower the node are derivations. -/
structure Kind.Derives (kind : Kind Tree) (type : JavaType) : Prop where
  own : ∀ inline ∈ ((kind.map Tree.part).lowering type).inline, Follows inline (.own kind type) .value
  statement : ∀ dest, Follows (((kind.map Tree.part).lowering type).statement dest)
    (.statement (.node kind type) dest) fun _ => .done

/-- A node that only has a value. -/
theorem derives_ofValue {kind : Kind Tree} {type : JavaType} {value : Lower Expr}
    (lowering : (kind.map Tree.part).lowering type = .ofValue (kind.children.map Tree.part) value)
    (isValue : kind.isValue = true) (own : Follows value (.own kind type) .value)
    (derives : ∀ tree ∈ kind.children, tree.Derives) : kind.Derives type := by
  refine ⟨?_, ?_⟩ <;> rw [lowering]
  · rintro _ ⟨⟩
    exact own
  · intro dest ctx p code _ p' ends
    cases dest with
    | discard => exact .discardValue isValue (follows_effects derives ends)
    | store sink =>
      obtain ⟨_, expr, _, _, ran, last, rfl⟩ := ends_bind.mp ends
      obtain ⟨rfl, rfl⟩ := ends_emit.mp last
      exact .storeValue isValue (own ran)

/-- A node that takes statements. -/
theorem derives_ofStatement {kind : Kind Tree} {type : JavaType}
    {statement : Destination → Lower Unit}
    (lowering : (kind.map Tree.part).lowering type = .ofStatement statement)
    (follows : ∀ dest, Follows (statement dest) (.statement (.node kind type) dest) fun _ => .done) :
    kind.Derives type := by
  refine ⟨?_, ?_⟩ <;> rw [lowering]
  · rintro _ ⟨⟩
  · exact follows

/-- A node is derived once its children are. -/
theorem Kind.derives (kind : Kind Tree) (type : JavaType)
    (derives : ∀ tree ∈ kind.children, tree.Derives) : kind.Derives type := by
  cases kind with
  | literal | self | var =>
    exact derives_ofValue rfl rfl (follows_leaf rfl (fun _ => rfl) fun _ => rfl) derives
  | field name isStatic =>
    exact derives_ofValue rfl rfl (follows_fieldValue name isStatic type) derives
  | unary _ operand | isNull operand | instanceOf operand _ | cast _ operand | newArray _ operand =>
    have operandDerives := derives operand List.mem_cons_self
    exact derives_ofValue rfl rfl
      (follows_around operandDerives rfl (fun _ => rfl) (fun _ _ => rfl) fun _ => rfl) derives
  | concat parts => exact derives_ofValue rfl rfl (follows_concat derives type) derives
  | binary op left right =>
    obtain ⟨leftDerives, rightDerives⟩ := List.forall_mem_cons.mp derives
    have rightDerives := List.forall_mem_singleton.mp rightDerives
    have own := follows_binaryExpr leftDerives rightDerives op type
    cases op with
    | and =>
      refine ⟨?_, follows_lowerLogical leftDerives rightDerives false type⟩
      rintro _ ⟨⟩
      exact own
    | or =>
      refine ⟨?_, follows_lowerLogical leftDerives rightDerives true type⟩
      rintro _ ⟨⟩
      exact own
    | _ => exact derives_ofValue rfl rfl own derives
  | assign name value =>
    have valueDerives := derives value List.mem_cons_self
    refine ⟨?_, follows_lowerAssign valueDerives name type⟩
    rintro _ ⟨⟩
    exact follows_around valueDerives rfl (fun _ => rfl) (fun _ _ => rfl) fun _ => rfl
  | setField name value isStatic =>
    exact derives_ofStatement rfl
      (follows_lowerSetField (derives value List.mem_cons_self) name isStatic type)
  | call receiver method args returns =>
    refine ⟨?_, follows_lowerCall derives method returns type⟩
    intro inline own
    change inline ∈ (if returns.isVoid then none else some _ : Option (Lower Expr)) at own
    split at own
    · cases own
    · cases own
      exact follows_callExpr derives method returns type
  | new made args =>
    have own := follows_new derives made type
    refine ⟨?_, ?_⟩
    · rintro _ ⟨⟩
      exact own
    · intro dest ctx p code _ p' ends
      obtain ⟨_, expr, _, _, ran, last, rfl⟩ := ends_bind.mp ends
      obtain ⟨rfl, rfl⟩ := ends_putEffect last
      exact .putEffect rfl (own ran)
  | cond test yes no =>
    simp only [children, List.forall_mem_cons, List.forall_mem_append, Option.mem_toList] at derives
    obtain ⟨testDerives, yesDerives, noDerives⟩ := derives
    refine ⟨?_, follows_lowerCond testDerives yesDerives noDerives type⟩
    rintro _ ⟨⟩
    exact follows_condExpr testDerives yesDerives noDerives type
  | seq nodes =>
    refine derives_ofStatement rfl fun dest ctx p code _ p' ends => ?_
    exact .seq (follows_lowerSeq type dest derives ends)
  | loop spec =>
    refine derives_ofStatement rfl fun dest ctx p code _ p' ends => ?_
    obtain ⟨_, _, _, _, looped, last, rfl⟩ := ends_bind.mp ends
    obtain ⟨rfl, rfl⟩ := ends_putValue last
    exact .loop (follows_lowerLoop (Loop.each_of_children derives) looped)
  | forEach spec =>
    obtain ⟨iterable, body⟩ := ForEach.each_of_children derives
    refine derives_ofStatement rfl fun dest ctx p code _ p' ends => ?_
    obtain ⟨_, _, _, _, looped, last, rfl⟩ := ends_bind.mp ends
    obtain ⟨rfl, rfl⟩ := ends_putValue last
    exact .forEach (follows_lowerForEach iterable body looped)
  | jump action =>
    refine derives_ofStatement rfl fun dest ctx p code _ p' ends => ?_
    obtain ⟨rfl, loop, others, around, jumps⟩ := ends_lowerJump ends
    exact .jump around jumps
  | ret value =>
    simp only [children, Option.mem_toList] at derives
    exact derives_ofStatement rfl (follows_lowerReturn derives type)
  | raise value =>
    exact derives_ofStatement rfl (follows_lowerRaise (derives value List.mem_cons_self) type)
  | rescue body clauses otherwise =>
    simp only [children, List.forall_mem_append, Option.mem_toList] at derives
    obtain ⟨⟨bodyDerives, clausesDerive⟩, otherwiseDerives⟩ := derives
    refine derives_ofStatement rfl (follows_lowerRescue bodyDerives ?_ otherwiseDerives type)
    intro clause mem tree found
    exact clausesDerive tree (List.mem_filterMap.mpr ⟨clause, mem, found⟩)
  | ensure body cleanup =>
    obtain ⟨bodyDerives, cleanupDerives⟩ := List.forall_mem_cons.mp derives
    exact derives_ofStatement rfl
      (follows_lowerEnsure bodyDerives (List.forall_mem_singleton.mp cleanupDerives) type)
  | print value newline =>
    simp only [children, Option.mem_toList] at derives
    exact derives_ofStatement rfl (follows_lowerPrint derives newline type)

/-- The runs of both ways to lower a tree are derivations. -/
theorem Tree.derives (tree : Tree) : tree.Derives := by
  induction tree using Tree.induction with
  | step kind type ih =>
    have node := kind.derives type ih
    have statement : ∀ dest, Follows ((Tree.node kind type).part.toStatement dest)
        (.statement (.node kind type) dest) fun _ => .done := by
      intro dest ctx p code _ p' ends
      change Ends ((Tree.node kind type).lowering.statement dest) ctx p code () p' at ends
      rw [Tree.lowering_node] at ends
      exact node.statement dest ends
    refine ⟨?_, statement⟩
    intro ctx p code expr p' ends
    change Tree.toInline _ ctx p = _ at ends
    rw [Tree.toInline_node] at ends
    split at ends
    · next inline own =>
      split at ends
      · next placed => exact .inlineOwn placed (node.own inline own ends)
      · exact .inlineTemp (Tree.follows_toTempVar statement ends)
    · exact .inlineTemp (Tree.follows_toTempVar statement ends)

end JavaBackend
