import JavaBackend.Proofs.Grammar.Expressions
import JavaBackend.Proofs.Lowering.Appended

/-!
# Trees read back

A tree that is an expression is written so that Java reads it as the same operations on the same
operands. Its nodes have to write what Java has names for (`Kind.isSpelled`); that is all.
`expression_is_read_back` puts together which expression the tree is lowered to
(`Tree.gives_toInline`) and how the text of an expression is read (`Expr.Spelled.phrased`).

The class `B` inside of `A` is the type `A$B`, and Java source calls it `A.B`. It is that name that has
to be made of identifiers: `new_of_nameless_class_is_unreadable` is about the type `A$`.
-/

namespace JavaBackend

open Java (Alphabet Ast Expr Derives Spells isIdentifier isQualified)

variable {alphabet : Alphabet}

/-! ## Texts with one reading -/

/-- The text is an expression of Java with this tree and no other. -/
def Java.ParsesAs (alphabet : Alphabet) (text : String) (tree : Ast) : Prop :=
  ∃ tokens, Java.lex alphabet text.toList = some tokens ∧
    ∀ other, Derives .expression tokens other ↔ other = tree

theorem Java.Spells.parsesAs {text : String} {tree : Ast} {follows : Char → Bool}
    (spells : Spells alphabet follows .expression text tree) : ParsesAs alphabet text tree := by
  obtain ⟨tokens, derives, reads⟩ := spells
  have read := (reads [] [] rfl .nil).lex_eq
  rw [List.append_nil, List.append_nil] at read
  refine ⟨tokens, read, fun other => ⟨derives.unique, ?_⟩⟩
  rintro rfl
  exact derives

/-! ## Names and classes in a tree -/

/-- The types that can be named in front of a member. -/
def JavaType.isClass : JavaType → Bool
  | .reference _ => true
  | _ => false

theorem JavaType.isClass_iff {type : JavaType} :
    type.isClass = true ↔ ∃ name, type = .reference name := by
  cases type <;> simp [isClass]

/-- Whether a word can stand in Java source: names are identifiers, no keywords among them. -/
def Word.isSpelled (alphabet : Alphabet) : Word → Bool
  | .var name | .field name | .method name | .label name => isIdentifier alphabet name
  | .owner name => isQualified alphabet name
  | .type named | .literal (.type named) => Java.isSpelled alphabet named
  | .literal _ => true
  | .lead _ => false

namespace Kind

/-- The class that a node names to create an object of it or to call one of its methods. -/
def class? : Kind Tree → Option JavaType
  | .new type _ | .call (.named type) _ _ _ => some type
  | _ => none

/-- The node that a method is called on. -/
def target? : Kind Tree → Option Tree
  | .call (.value target) _ _ _ => some target
  | _ => none

/-- Whether Java has methods on the value of the node: there are none on numbers and characters, and
    none on the operations with an operator in front. -/
def hasMethods : Kind Tree → Bool
  | .unary _ _ => false
  | .literal (.int _) | .literal (.long _) | .literal (.float _) | .literal (.double _)
  | .literal (.char _) => false
  | _ => true

/-- Whether Java has what the node writes: its names are identifiers, its classes are classes, and
    the value that it calls a method on has methods. -/
def isSpelled (alphabet : Alphabet) (kind : Kind Tree) : Bool :=
  kind.words.all (·.isSpelled alphabet) && kind.class?.all JavaType.isClass &&
    kind.target?.all (·.kind.hasMethods)

end Kind

namespace Tree

/-- What has methods in Java can be written in front of a call. -/
theorem isReceiver_expr {tree : Tree} (methods : tree.kind.hasMethods = true) (ctx : Context) :
    (tree.expr ctx).isReceiver = true := by
  obtain ⟨kind, type⟩ := tree
  rw [expr_node]
  cases kind with
  | literal value =>
    cases value with
    | null | bool _ | str _ | type _ => rfl
    | int _ | long _ | float _ | double _ | char _ => cases methods
  | unary => cases methods
  | call receiver => cases receiver <;> rfl
  | cond test yes no => cases yes <;> cases no <;> rfl
  | _ => rfl

/-- The expression of a tree brings no names but those of the tree and of the class around it. -/
theorem spelled_expr {tree : Tree} {isLocal : String → Bool} {ctx : Context}
    (every : tree.Every fun kind _ => kind.isSpelled alphabet = true)
    (owner : isQualified alphabet ctx.owner = true) (expression : tree.isExpression isLocal = true) :
    (tree.expr ctx).Spelled alphabet := by
  have literal (type : JavaType) : Expr.Spelled alphabet (.literal type.defaultValue) := by
    refine .literal fun named same => ?_
    cases type <;> cases same
  have own : Expr.Spelled alphabet ctx.ownReceiver ∧ ctx.ownReceiver.isReceiver = true := by
    unfold Context.ownReceiver
    split
    · exact ⟨.owner owner, rfl⟩
    · exact ⟨.this, rfl⟩
  induction every with
  | @node kind type spelled _ ih =>
    obtain ⟨operation, -, capable⟩ := Kind.isExpression_iff.mp expression
    have operand : ∀ tree ∈ kind.children, (tree.expr ctx).Spelled alphabet :=
      fun tree mem => ih tree mem (capable tree mem)
    have operands {trees : List Tree} (subset : trees ⊆ kind.children) :
        ∀ operand ∈ trees.map (expr ctx), operand.Spelled alphabet :=
      List.forall_mem_map.mpr fun tree mem => operand tree (subset mem)
    simp only [Kind.isSpelled, Bool.and_eq_true] at spelled
    obtain ⟨⟨spelled, classes⟩, targets⟩ := spelled
    have words : OverAll (·.isSpelled alphabet = true) kind.words := List.all_eq_true.mp spelled
    rw [expr_node]
    cases kind with
    | literal value =>
      refine .literal fun type same => ?_
      rw [same] at words
      exact (OverAll.cons_iff.mp words).1
    | self => exact .this
    | var name => exact .var (OverAll.cons_iff.mp words).1
    | field name isStatic =>
      refine .field ?_ ?_ (OverAll.cons_iff.mp words).1 <;> cases isStatic
      · exact .this
      · exact .owner owner
      all_goals rfl
    | assign name value =>
      exact .assign (OverAll.cons_iff.mp words).1 (operand value List.mem_cons_self)
    | call receiver method args returns =>
      have arguments := operands (List.subset_append_right receiver.toList args)
      cases receiver with
      | implicit => exact .call own.1 own.2 (OverAll.cons_iff.mp words).1 arguments
      | named type =>
        obtain ⟨name, rfl⟩ := JavaType.isClass_iff.mp classes
        obtain ⟨typed, words⟩ := OverAll.cons_iff.mp words
        exact .call (.owner typed) rfl (OverAll.cons_iff.mp words).1 arguments
      | value target =>
        exact .call (operand target List.mem_cons_self) (isReceiver_expr targets ctx)
          (OverAll.cons_iff.mp words).1 arguments
    | new type args =>
      obtain ⟨name, rfl⟩ := JavaType.isClass_iff.mp classes
      exact .new (OverAll.cons_iff.mp words).1 (operands (List.Subset.refl _))
    | binary op left right =>
      have second := operand right (List.mem_cons_of_mem left List.mem_cons_self)
      exact .binary op (operand left List.mem_cons_self) second
    | unary op value => exact .unary op (operand value List.mem_cons_self)
    | isNull value => exact .isNull (operand value List.mem_cons_self)
    | instanceOf value type =>
      exact .instanceOf (operand value List.mem_cons_self) (OverAll.cons_iff.mp words).1
    | cast type value => exact .cast (OverAll.cons_iff.mp words).1 (operand value List.mem_cons_self)
    | concat parts => exact .concat (operands (List.Subset.refl _))
    | newArray type value =>
      exact .newArray (OverAll.cons_iff.mp words).1 (operand value List.mem_cons_self)
    | cond test yes no =>
      have arm {maybe : Option Tree} (subset : maybe.toList ⊆ (Kind.cond test yes no).children) :
          Expr.Spelled alphabet ((maybe.map (expr ctx)).getD (.literal type.held.defaultValue)) := by
        cases maybe with
        | none => exact literal type.held
        | some tree => exact operand tree (subset List.mem_cons_self)
      have first := arm (List.subset_cons_of_subset test (List.subset_append_left yes.toList _))
      have second := arm (List.subset_cons_of_subset test (List.subset_append_right _ no.toList))
      have whole := Expr.Spelled.cond (operand test List.mem_cons_self) first second
      cases yes <;> cases no <;> exact whole
    | _ => cases operation

end Tree

/-! ## Expressions in a method -/

/-- A tree that is an expression is written as one, which Java reads as the tree: with the same
    operators on the same operands, and with its literals, names and types. -/
theorem expression_is_read_back {c : ClassDraft} {index : Nat} {m : MethodDraft} {tree : Tree}
    (found : c.methods[index]? = some m) (owner : isQualified alphabet c.simpleName = true)
    (expression : tree.isExpression m.scope.isLocal = true)
    (every : tree.Every fun kind _ => kind.isSpelled alphabet = true) (loops : List EnclosingLoop) :
    let expr := tree.expr (c.context m loops)
    (c.lower index loops tree.toExpr).1 = .ok expr ∧ Java.ParsesAs alphabet expr.text expr.ast := by
  intro expr
  have spelled : expr.Spelled alphabet := Tree.spelled_expr every owner expression
  refine ⟨?_, spelled.phrased.operand.toExpression.parsesAs⟩
  obtain ⟨fields, ends⟩ := Tree.gives_toExpr expression
    (tree.gives_toInline (c.context m loops) m.scope expression) []
  rw [ClassDraft.lower_of_found found, show tree.toExpr _ _ = _ from ends]
  rfl

/-- The parentheses at the two ends of the operand belong to different pairs, and a third pair stands
    in the string. -/
theorem negated_call_on_sum_is_read_back :
    let alphabet : Alphabet := ⟨fun _ => false, fun _ => false⟩
    let difference : Tree := .node (.binary .sub (.node (.var "x") .int)
      (.node (.binary .sub (.node (.var "y") .int) (.node (.literal (.int (-1))) .int)) .int)) .int
    let sum : Tree := .node (.concat [.node (.literal (.str ")\"(")) .string, difference]) .string
    let cast : Tree := .node (.cast (.array (.reference "A$B")) (.node (.var "z") .object)) .object
    let tree : Tree := .node (.unary .not
      (.node (.call (.value sum) "equals" [cast] .boolean) .boolean)) .boolean
    let m : MethodDraft := (MethodDraft.ofSignature
      ⟨"run", .member, .void, [⟨"x", .int⟩, ⟨"y", .int⟩, ⟨"z", .object⟩], []⟩ 2).start
    let c : ClassDraft := ⟨"a.mirah", none, "A", .classType .object false, [], [], .ofStep 2, [], [m],
      true, {}⟩
    let expr := tree.expr (c.context m [])
    c.methods[0]? = some m ∧ isQualified alphabet c.simpleName = true ∧
      tree.isExpression m.scope.isLocal = true ∧
      tree.Every (fun kind _ => kind.isSpelled alphabet = true) ∧
      (c.lower 0 [] tree.toExpr).1 = .ok expr ∧
      expr.text = "!((\")\\\"(\" + (x - (y - -1))).equals(((A.B[])(z))))" ∧
      Java.ParsesAs alphabet expr.text
        (.unary .not (.invoke
          (.binary .add (.str ")\"(") (.binary .sub (.name "x")
            (.binary .sub (.name "y") (.unary .neg (.int 1)))))
          "equals" [.cast (.array (.named "A" ["B"])) (.name "z")])) := by
  intro alphabet difference sum cast tree m c expr
  have found : c.methods[0]? = some m := rfl
  have owner : isQualified alphabet c.simpleName = true := by decide
  have expression : tree.isExpression m.scope.isLocal = true := by decide
  have every : tree.Every fun kind _ => kind.isSpelled alphabet = true := by
    refine .node (by decide) ?_
    simp only [sum, difference, cast, Tree.every_node, Kind.children, Receiver.toList, List.cons_append,
      List.nil_append, List.mem_cons, List.not_mem_nil, or_false, forall_eq, forall_eq_or_imp,
      false_implies, implies_true, and_true]
    decide
  obtain ⟨ok, parses⟩ := expression_is_read_back found owner expression every []
  exact ⟨found, owner, expression, every, ok, by decide +kernel, parses⟩

/-- `A$` is an identifier, but as the name of a class it is that of a nested class without a name. -/
theorem new_of_nameless_class_is_unreadable :
    let alphabet : Alphabet := ⟨fun _ => false, fun _ => false⟩
    let tree : Tree := .node (.new (.reference "A$") []) (.reference "A$")
    let m : MethodDraft := (MethodDraft.ofSignature ⟨"run", .member, .void, [], []⟩ 2).start
    let c : ClassDraft := ⟨"a.mirah", none, "A", .classType .object false, [], [], .ofStep 2, [], [m],
      true, {}⟩
    isIdentifier alphabet "A$" = true ∧ tree.isExpression m.scope.isLocal = true ∧
      ∃ expr tokens, (c.lower 0 [] tree.toExpr).1 = .ok expr ∧ expr.text = "new A.()" ∧
        Java.lex alphabet expr.text.toList = some tokens ∧
        ∀ ast, ¬ Derives .expression tokens ast := by
  intro alphabet tree m c
  have text : (Expr.new (.reference "A$") []).text = "new A.()" := by decide +kernel
  have lexed : Java.lex alphabet (Expr.new (.reference "A$") []).text.toList =
      some [.new, .name "A", .dot, .opening, .closing] := by
    rw [text]
    decide +kernel
  have refused : Java.expression [.new, .name "A", .dot, .opening, .closing] = none := by
    simp [Java.expression, Java.conditional, Java.operation, Java.unary, Java.type?, Java.qualified,
      Java.arrays]
  refine ⟨by decide, rfl, .new (.reference "A$") [], _, rfl, text, lexed, fun ast phrase => ?_⟩
  have read := phrase.isRead [] .nil
  rw [List.append_nil] at read
  cases refused.symm.trans read

end JavaBackend
