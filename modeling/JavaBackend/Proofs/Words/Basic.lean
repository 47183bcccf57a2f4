import JavaBackend.Proofs.Lowering.Derived

/-!
# The words of generated code

Java code is fixed syntax around words: the names, types and literals that are not the same in all
code. `Expr.words` and its companions list them in the order of the text. Which words the code of a
tree is made of is the subject of `Proofs.Words.Lowering`.
-/

namespace JavaBackend

open Java (Stmt Code Piece Expr Test Handler Sink)

/-- A part of Java code that is not fixed syntax. -/
inductive Word where
  /-- The name of a variable. -/
  | var (name : String)
  | field (name : String)
  | method (name : String)
  /-- A class in front of one of its members. -/
  | owner (name : String)
  | type (named : JavaType)
  | literal (value : Literal)
  | label (name : String)
  /-- Text in front of a value. -/
  | lead (text : String)

/-- The word in Java source. -/
def Word.text : Word → String
  | .var name | .field name | .method name | .owner name | .label name => name
  | .type named => named.source
  | .literal value => value.source
  | .lead text => text

/-- Each of the words is one of the words `L`. -/
def OverAll (L : Word → Prop) (words : List Word) : Prop := ∀ word ∈ words, L word

namespace OverAll

variable {L : Word → Prop} {word : Word} {words first second : List Word}

@[simp]
theorem nil : OverAll L [] := List.forall_mem_nil L

@[simp]
theorem cons_iff : OverAll L (word :: words) ↔ L word ∧ OverAll L words := List.forall_mem_cons

@[simp]
theorem append_iff : OverAll L (first ++ second) ↔ OverAll L first ∧ OverAll L second :=
  List.forall_mem_append

theorem flatMap_iff {α : Type} {items : List α} {f : α → List Word} :
    OverAll L (items.flatMap f) ↔ ∀ item ∈ items, OverAll L (f item) := by
  induction items with
  | nil => simp
  | cons item rest ih => rw [List.flatMap_cons, append_iff, ih, List.forall_mem_cons]

end OverAll

namespace Java

mutual

/-- The words of an expression. -/
@[simp]
def Expr.words : Expr → List Word
  | .literal value => [.literal value]
  | .this => []
  | .var name => [.var name]
  | .owner name => [.owner name]
  | .field target name => target.words ++ [.field name]
  | .assign name value => .var name :: value.words
  | .call target method args => target.words ++ .method method :: Expr.wordsAll args
  | .new type args => .type type :: Expr.wordsAll args
  | .binary _ left right => left.words ++ right.words
  | .unary _ operand => operand.words
  | .isNull value => value.words
  | .instanceOf value type => value.words ++ [.type type]
  | .cast type value => .type type :: value.words
  | .concat parts => Expr.wordsAll parts
  | .newArray component size => .type component.dimensions.1 :: size.words
  | .cond test yes no => test.words ++ (yes.words ++ no.words)

/-- The words of expressions in order. -/
@[simp]
def Expr.wordsAll : List Expr → List Word
  | [] => []
  | expr :: rest => expr.words ++ Expr.wordsAll rest

end

theorem Expr.wordsAll_eq (exprs : List Expr) : Expr.wordsAll exprs = exprs.flatMap Expr.words := by
  induction exprs with
  | nil => rfl
  | cons expr rest ih => rw [wordsAll, ih, List.flatMap_cons]

def Sink.words : Sink → List Word
  | .into name => [.var name]
  | .lead text => [.lead text]
  | .result | .thrown => []

@[simp]
theorem Sink.words_into (name : String) : (Sink.into name).words = [.var name] := rfl

@[simp]
theorem Sink.words_result : Sink.result.words = [] := rfl

@[simp]
theorem Sink.words_thrown : Sink.thrown.words = [] := rfl

namespace Stmt

mutual

/-- The words of a statement. -/
@[simp]
def words : Stmt → List Word
  | .declare type name init => .type type :: .var name :: init.words
  | .store sink value => sink.words ++ value.words
  | .setField field value => field.words ++ value.words
  | .eval expr => expr.words
  | .ret => []
  | .print _ value => value.elim [] Expr.words
  | .delegate _ args => Expr.wordsAll args
  | .break label | .continue label => label.elim [] fun name => [.label name]
  | .labeled label body => .label label :: body.words
  | .block body => codeWords body
  | .ifThen test yes => test.expr.words ++ codeWords yes
  | .ifElse test yes no => test.expr.words ++ (codeWords yes ++ codeWords no)
  | .whileLoop test body => test.expr.words ++ codeWords body
  | .doLoop body test => codeWords body ++ test.expr.words
  | .forEach type name iterable body =>
    .type type :: .var name :: (iterable.words ++ codeWords body)
  | .tryCatch body handlers => codeWords body ++ handlersWords handlers
  | .tryFinally body cleanup => codeWords body ++ codeWords cleanup

/-- The words of the statements of a block. -/
@[simp]
def codeWords : List Stmt → List Word
  | [] => []
  | stmt :: rest => stmt.words ++ codeWords rest

@[simp]
def handlerWords : Handler (List Stmt) → List Word
  | ⟨type, name, body⟩ => .type type :: .var name :: codeWords body

@[simp]
def handlersWords : List (Handler (List Stmt)) → List Word
  | [] => []
  | handler :: rest => handlerWords handler ++ handlersWords rest

end

@[simp]
theorem codeWords_append (first second : Code) :
    codeWords (first ++ second) = codeWords first ++ codeWords second := by
  induction first with
  | nil => rfl
  | cons stmt rest ih => rw [List.cons_append, codeWords, codeWords, ih, List.append_assoc]

@[simp]
theorem handlersWords_append (first second : List (Handler Code)) :
    handlersWords (first ++ second) = handlersWords first ++ handlersWords second := by
  induction first with
  | nil => rfl
  | cons handler rest ih =>
    rw [List.cons_append, handlersWords, handlersWords, ih, List.append_assoc]

/-- The words of a loop, whether it is tested first or at its end. -/
@[simp]
theorem over_loopStmt {L : Word → Prop} {checkFirst : Bool} {test : Test} {body : Code} :
    OverAll L (loopStmt checkFirst test body).words ↔
      OverAll L test.expr.words ∧ OverAll L (codeWords body) := by
  cases checkFirst with
  | true => exact OverAll.append_iff
  | false => exact OverAll.append_iff.trans and_comm

end Stmt

end Java

/-! ## Trees -/

/-- Every node of the tree has the property. -/
inductive Tree.Every (P : Kind Tree → JavaType → Prop) : Tree → Prop where
  | node {kind : Kind Tree} {type : JavaType} (own : P kind type)
    (children : ∀ tree ∈ kind.children, Tree.Every P tree) : Tree.Every P (.node kind type)

theorem Tree.every_node {P : Kind Tree → JavaType → Prop} {kind : Kind Tree} {type : JavaType} :
    (Tree.node kind type).Every P ↔ P kind type ∧ ∀ tree ∈ kind.children, tree.Every P := by
  constructor
  · rintro ⟨own, children⟩
    exact ⟨own, children⟩
  · rintro ⟨own, children⟩
    exact .node own children

theorem Tree.Every.mono {P Q : Kind Tree → JavaType → Prop}
    (weaker : ∀ kind type, P kind type → Q kind type) {tree : Tree} (every : tree.Every P) :
    tree.Every Q := by
  induction every with
  | node own _ ih => exact .node (weaker _ _ own) ih

/-- The words that a node itself brings, without those of its children. -/
def Kind.words : Kind Tree → List Word
  | .literal value => [.literal value]
  | .var name | .assign name _ => [.var name]
  | .field name _ | .setField name _ _ => [.field name]
  | .call (.named type) method _ _ => [.type type, .method method]
  | .call _ method _ _ => [.method method]
  | .new type _ | .instanceOf _ type | .cast type _ | .newArray type _ => [.type type]
  | .forEach spec => [.var spec.var]
  | .rescue _ clauses _ => clauses.flatMap fun clause =>
    clause.types.map .type ++ clause.name.toList.map .var
  | _ => []

/-- Every word of the tree's nodes is one of the words `L`, and so is every type of a value. -/
def Tree.Over (L : Word → Prop) (tree : Tree) : Prop :=
  tree.Every fun kind type => L (.type type) ∧ OverAll L kind.words

/-- The words that stand around the code. -/
def EnclosingLoop.words (loop : EnclosingLoop) : List Word :=
  loop.labels.elim [] (fun labels => [.label labels.outer, .label labels.inner]) ++
    loop.redoFlag.elim [] fun flag => [.var flag]

def Context.words (ctx : Context) : List Word :=
  .owner ctx.owner :: ctx.loops.flatMap EnclosingLoop.words

def Destination.words : Destination → List Word
  | .discard => []
  | .store sink => sink.words

@[simp]
theorem Destination.words_store (sink : Sink) : (Destination.store sink).words = sink.words := rfl

end JavaBackend
