import JavaBackend.Proofs.Lowering.Appended
import JavaBackend.Proofs.Lowering.Derived

/-!
# What expressions leave behind

A tree that is an expression is written in place: the method that asks for it stays as it is, its text,
its variables and its supplies of names, and the class only gets the fields that the tree reads.
`Tree.fieldReads` lists these, and `Lowers.notes` says that a value that needs no statement notes
them and nothing else. A tree that is no expression is never left for later: its value is in a variable
before it is used.
-/

namespace JavaBackend

open Java (Stmt Code Expr)
open Lower (Ends ends_bind ends_map ends_pure)

/-! ## The fields that a tree reads -/

/-- The field that a node itself reads. -/
def Kind.ownReads {α : Type} (type : JavaType) : Kind α → List FieldUse
  | .field name isStatic => [⟨name, type, isStatic⟩]
  | _ => []

/-- The fields that a tree reads, in the order of evaluation. -/
def Tree.fieldReads : Tree → List FieldUse :=
  para fun kind type => kind.children.flatMap (·.result.get) ++ kind.ownReads type

theorem Tree.fieldReads_node (kind : Kind Tree) (type : JavaType) :
    (Tree.node kind type).fieldReads =
      kind.children.flatMap fieldReads ++ kind.ownReads type := by
  rw [fieldReads, para_node, Kind.children_map, List.flatMap_map]
  congr 1
  cases kind <;> rfl

/-- Note some uses of fields. -/
def Progress.useFields (p : Progress) (uses : List FieldUse) : Progress :=
  uses.foldl Progress.useField p

theorem Progress.useFields_append (p : Progress) (first second : List FieldUse) :
    p.useFields (first ++ second) = (p.useFields first).useFields second :=
  List.foldl_append

theorem Progress.scope_useFields (p : Progress) (uses : List FieldUse) :
    (p.useFields uses).scope = p.scope := by
  induction uses generalizing p with
  | nil => rfl
  | cons use rest ih =>
    refine (ih (p.useField use)).trans ?_
    unfold useField
    split <;> rfl

theorem Kind.noteUse_eq (type : JavaType) (p : Progress) (kind : Kind Tree) :
    kind.noteUse type p = p.useFields (kind.ownReads type) := by
  cases kind <;> rfl

/-! ## Values without statements -/

/-- What a task that lays out no code may have noted. A value that is put into a variable is not such a
    task. -/
def Task.Notes (p : Progress) (code : Code) (p' : Progress) : Task → Prop
  | .own kind type => code = [] → p' = p.useFields (Tree.node kind type).fieldReads
  | .operand _ tree => code = [] → p' = p.useFields tree.fieldReads
  | .operands _ trees => code = [] → p' = p.useFields (trees.flatMap Tree.fieldReads)
  | .temp _ | .freshTemp _ | .statement (.node (.assign _ _) _) _ => code ≠ []
  | _ => True

/-- A value that needs no statement notes the fields that it reads, and nothing else. -/
theorem Lowers.notes {ctx : Context} {p p' : Progress} {task : Task} {code : Code} {yield : Yield}
    (lowers : Lowers ctx p task code yield p') : task.Notes p code p' := by
  induction lowers with
  | @own _ _ kind type _ _ _ _ _ _ ih =>
    intro silent
    rw [Kind.noteUse_eq, ih silent, Tree.fieldReads_node, Progress.useFields_append]
  | inlineOwn _ _ ih | valueInline _ _ ih | fixedInline _ _ ih => exact ih
  | inlineTemp _ ih | valueTemp _ _ ih | fixedTemp _ ih => exact fun silent => absurd silent ih
  | operandsNil => exact fun _ => rfl
  | operandsCons _ _ first others =>
    intro silent
    obtain ⟨silentFirst, silentOthers⟩ := List.append_eq_nil_iff.mp silent
    rw [others silentOthers, first silentFirst, List.flatMap_cons, Progress.useFields_append]
  | freshTemp _ ih => exact ih
  | tempAssign _ ih => exact ih
  | freshInline | tempLoop => exact List.append_ne_nil_of_right_ne_nil _ (List.cons_ne_nil _ _)
  | tempStore => exact List.cons_ne_nil _ _
  | assignKnown | assignNew => exact List.append_ne_nil_of_right_ne_nil _ (List.cons_ne_nil _ _)
  | @discardValue _ _ kind _ _ _ value | @storeValue _ _ kind _ _ _ _ _ value
  | @putEffect _ _ kind _ _ _ _ _ value =>
    cases kind <;> first | exact trivial | cases value
  | _ => exact trivial

namespace Tree

variable {ctx : Context} {p p' : Progress} {tree : Tree}

/-- Asked for in place, a tree that is an expression gives it, and only notes the fields that it
    reads. -/
theorem ends_toInline (expression : tree.isExpression p.scope.isLocal = true) :
    Ends tree.toInline ctx p [] (tree.expr ctx) (p.useFields tree.fieldReads) := by
  obtain ⟨fields, ends⟩ := gives_toInline tree ctx p.scope expression p.fields
  have noted := (tree.derives.inline ends).notes rfl
  rwa [noted] at ends

theorem ends_toExpr (expression : tree.isExpression p.scope.isLocal = true) :
    Ends tree.toExpr ctx p [] (tree.expr ctx) (p.useFields tree.fieldReads) := by
  unfold Ends
  rw [toExpr_of_isExpression expression]
  exact ends_toInline expression

theorem toOperand_apply (tree : Tree) (ctx : Context) (p : Progress) :
    tree.toOperand ctx p =
      if tree.isExpression p.scope.isLocal then (pure (.node tree.part) : Lower Operand) ctx p
      else (Operand.held <$> tree.part.toTemp) ctx p := by
  show tree.part.toOperand ctx p = _
  unfold Part.toOperand
  rw [Part.isExpression_bind, ← bind_pure_comp]
  show (if tree.isExpression p.scope.isLocal then _ else _ : Lower Operand) ctx p = _
  split <;> rfl

/-- An expression is left for later. -/
theorem ends_toOperand (expression : tree.isExpression p.scope.isLocal = true) :
    Ends tree.toOperand ctx p [] (.node tree.part) p := by
  unfold Ends
  rw [toOperand_apply, if_pos expression]
  rfl

/-- What is no expression is left in a variable. -/
theorem held_of_ends_toOperand {code : Code} {operand : Operand}
    (statements : tree.isExpression p.scope.isLocal = false)
    (ends : Ends tree.toOperand ctx p code operand p') : ∃ temp, operand = .held temp := by
  unfold Ends at ends
  rw [toOperand_apply, if_neg (Bool.eq_false_iff.mp statements)] at ends
  obtain ⟨temp, -, held⟩ := ends_map.mp ends
  exact ⟨temp, held.symm⟩

end Tree

/-! ## In a class -/

namespace ClassDraft

variable {α : Type} {c : ClassDraft} {index : Nat} {m : MethodDraft}

theorem hasField_addField (c : ClassDraft) (name other : String) (type : JavaType) (isStatic : Bool) :
    (c.addField name type isStatic []).2.hasField other = (c.hasField other || other == name) := by
  unfold addField
  split
  · next known =>
    by_cases same : other = name
    · rw [same, known, Bool.true_or]
    · rw [beq_eq_false_iff_ne.mpr same, Bool.or_false]
  · have fields : c.sealHeader.fields = c.fields := by
      unfold sealHeader
      split <;> rfl
    simp only [hasField, fields, List.contains_cons, Bool.or_comm]

theorem hasField_useFields (c : ClassDraft) (uses : List FieldUse) (name : String) :
    (c.useFields uses).hasField name = (c.hasField name || uses.any (·.name == name)) := by
  unfold useFields
  induction uses generalizing c with
  | nil => simp
  | cons use rest ih =>
    rw [List.foldl_cons, ih, hasField_addField, List.any_cons, Bool.or_assoc, Bool.beq_comm]

/-- Only the first use of a field counts, whoever leaves the others out. -/
theorem useFields_fields (c : ClassDraft) (p : Progress) (uses : List FieldUse) :
    c.useFields (p.useFields uses).fields = (c.useFields p.fields).useFields uses := by
  induction uses generalizing p with
  | nil => rfl
  | cons use rest ih =>
    refine (ih (p.useField use)).trans ?_
    have step : c.useFields (p.useField use).fields =
        ((c.useFields p.fields).addField use.name use.type use.isStatic []).2 := by
      unfold Progress.useField
      split
      · next known =>
        have declared : (c.useFields p.fields).hasField use.name = true := by
          rw [hasField_useFields, known, Bool.or_true]
        rw [addField, if_pos declared]
      · exact List.foldl_append
    rw [step]
    rfl

/-- A value that needs no statement only declares fields. -/
theorem lower_of_silent {lowering : Lower α} {result : α} {loops : List EnclosingLoop}
    {uses : List FieldUse} (found : c.methods[index]? = some m)
    (ends : Ends lowering (c.context m loops) ⟨m.scope, []⟩ [] result
      (Progress.useFields ⟨m.scope, []⟩ uses)) :
    c.lower index loops lowering = (.ok result, c.useFields uses) := by
  rw [lower_of_unmoved found ends rfl (Progress.scope_useFields _ _), useFields_fields]
  rfl

end ClassDraft

/-- Asked for in any way, a tree that is an expression gives the same one, at any stage of the method and
    inside any loops. Nothing is laid out: all methods of the class stay as they are, and the class only
    gets the fields that the tree reads. A tree that is no expression is not left for later. -/
theorem expressions_lay_out_nothing {c : ClassDraft} {index : Nat} {m : MethodDraft}
    (found : c.methods[index]? = some m) (loops : List EnclosingLoop) (tree : Tree) :
    (tree.isExpression m.scope.isLocal = true →
      c.lower index loops tree.toExpr =
          (.ok (tree.expr (c.context m loops)), c.useFields tree.fieldReads) ∧
        c.lower index loops tree.toInline =
          (.ok (tree.expr (c.context m loops)), c.useFields tree.fieldReads) ∧
        c.lower index loops tree.toOperand = (.ok (.node tree.part), c) ∧
        c.lower index loops (Operand.node tree.part).toExpr =
          (.ok (tree.expr (c.context m loops)), c.useFields tree.fieldReads) ∧
        (c.useFields tree.fieldReads).methods = c.methods) ∧
      (tree.isExpression m.scope.isLocal = false →
        ∀ operand, (c.lower index loops tree.toOperand).1 = .ok operand →
          ∃ temp, operand = .held temp) := by
  constructor
  · intro expression
    have inline : c.lower index loops tree.toInline = _ :=
      ClassDraft.lower_of_silent found (Tree.ends_toInline expression)
    refine ⟨ClassDraft.lower_of_silent found (Tree.ends_toExpr expression), inline, ?_, inline, ?_⟩
    · exact ClassDraft.lower_of_unmoved found (Tree.ends_toOperand expression) rfl rfl
    · exact ClassDraft.methods_useFields _ _
  · intro statements operand ok
    obtain ⟨code, p', ends⟩ := ClassDraft.ends_of_lower found ok
    exact Tree.held_of_ends_toOperand statements ends

/-- A conditional that calls `f` with the field `count`, or assigns `x`. -/
def guardedCall : Tree :=
  .node (.cond (.node (.var "c") .boolean)
    (some (.node (.call .implicit "f" [.node (.field "count" false) .int] .object) .object))
    (some (.node (.assign "x" (.node (.literal .null) .object)) .object))) .object

/-- The same value behind a call that returns nothing. -/
def loggedCall : Tree :=
  .node (.seq [.node (.call .implicit "log" [] .void) .void, guardedCall]) .object

theorem guardedCall_lays_out_nothing :
    let m := MethodDraft.ofSignature ⟨"run", .member, .void, [⟨"c", .boolean⟩, ⟨"x", .object⟩], []⟩ 2
    let c : ClassDraft := ⟨"a.mirah", none, "A", .classType .object false, [], [], .ofStep 2, [], [m],
      true, {}⟩
    let loops : List EnclosingLoop := [⟨.plainWhile, none, none⟩]
    let expr := guardedCall.expr (c.context m loops)
    let declared := c.useFields [⟨"count", .int, false⟩]
    c.methods[0]? = some m ∧ guardedCall.isExpression m.scope.isLocal = true ∧
      loggedCall.isExpression m.scope.isLocal = false ∧
      c.lower 0 loops guardedCall.toExpr = (.ok expr, declared) ∧
      c.lower 0 loops guardedCall.toInline = (.ok expr, declared) ∧
      c.lower 0 loops guardedCall.toOperand = (.ok (.node guardedCall.part), c) ∧
      c.lower 0 loops (Operand.node guardedCall.part).toExpr = (.ok expr, declared) ∧
      declared.methods = c.methods ∧
      ∀ operand, (c.lower 0 loops loggedCall.toOperand).1 = .ok operand →
        ∃ temp, operand = .held temp := by
  intro m c loops expr declared
  have found : c.methods[0]? = some m := rfl
  have expression : guardedCall.isExpression m.scope.isLocal = true := rfl
  have statements : loggedCall.isExpression m.scope.isLocal = false := rfl
  obtain ⟨value, inline, operand, later, methods⟩ :=
    (expressions_lay_out_nothing found loops guardedCall).1 expression
  refine ⟨found, expression, statements, value, inline, operand, later, methods, ?_⟩
  exact (expressions_lay_out_nothing found loops loggedCall).2 statements

end JavaBackend
