import JavaBackend.Proofs.Effects.Known
import JavaBackend.Proofs.Temps.Reading

/-!
# The scope of variables

Java lets code assign to a variable only inside the block that declares it. `Stmt.inScope` checks that
of a statement, given the names that are visible around it, for the names that a program chooses
itself; those of temporaries are not looked at.

`Tree.walk` asks the same of a tree, without its code: it goes through the tree in the order in which
code is laid out and keeps the names that the method knows and those that are visible. The first
assignment to a name declares it where the assignment stands, and the end of a block ends what is
visible, but not what is known.
-/

namespace JavaBackend

open Java (Stmt Code Expr Sink Handler)

/-- A name that is not one of a temporary. -/
def isOwn (name : String) : Bool := !tempMark.isPrefixOf name.toList

theorem isOwn_tempName (n : Nat) : isOwn (tempName n) = false := by
  simp [isOwn, tempName, tempMark, List.isPrefixOf]

/-! ## Code -/

/-- Of the assigned names, the own ones are visible. -/
def seen (visible assigned : List String) : Bool :=
  assigned.all fun name => !isOwn name || visible.contains name

section

variable {visible visible' assigned more : List String}

@[simp]
theorem seen_nil : seen visible [] = true := rfl

@[simp]
theorem seen_append : seen visible (assigned ++ more) = (seen visible assigned && seen visible more) :=
  List.all_append

theorem seen_cons {name : String} :
    seen visible (name :: assigned) = ((!isOwn name || visible.contains name) && seen visible assigned) :=
  rfl

theorem seen_hidden {name : String} (hidden : isOwn name = false) :
    seen visible (name :: assigned) = seen visible assigned := by
  simp [seen_cons, hidden]

theorem seen_congr (same : ∀ name ∈ assigned, isOwn name = true → (name ∈ visible ↔ name ∈ visible')) :
    seen visible assigned = seen visible' assigned := by
  unfold seen
  rw [Bool.eq_iff_iff, List.all_eq_true, List.all_eq_true]
  refine forall₂_congr fun name mem => ?_
  cases own : isOwn name with
  | false => simp
  | true => simpa using same name mem own

end

namespace Java

mutual

/-- The names that an expression assigns to. -/
@[simp]
def Expr.assigned : Expr → List String
  | .literal _ | .this | .var _ | .owner _ => []
  | .assign name value => name :: value.assigned
  | .field value _ | .unary _ value | .isNull value | .instanceOf value _ | .cast _ value
  | .newArray _ value => value.assigned
  | .call target _ args => target.assigned ++ Expr.assignedAll args
  | .new _ args | .concat args => Expr.assignedAll args
  | .binary _ left right => left.assigned ++ right.assigned
  | .cond test yes no => test.assigned ++ (yes.assigned ++ no.assigned)

@[simp]
def Expr.assignedAll : List Expr → List String
  | [] => []
  | expr :: rest => expr.assigned ++ Expr.assignedAll rest

end

theorem Expr.assignedAll_append (exprs others : List Expr) :
    Expr.assignedAll (exprs ++ others) = Expr.assignedAll exprs ++ Expr.assignedAll others := by
  induction exprs with
  | nil => rfl
  | cons expr rest ih =>
    rw [List.cons_append, Expr.assignedAll, Expr.assignedAll, ih, List.append_assoc]

/-- The variable that a sink puts a value into. -/
def Sink.assigned : Sink → List String
  | .into name => [name]
  | _ => []

namespace Stmt

/-- The names that a statement declares in the block around it. -/
@[simp]
def declares : Stmt → List String
  | .declare _ name _ => [name]
  | .labeled _ body => body.declares
  | _ => []

/-- The names that the statements of a block declare there. -/
def codeDeclares (code : Code) : List String := code.flatMap declares

mutual

/-- Every own name that a statement assigns to is visible around it, or is declared in front of the
    assignment by a block that is open there. -/
@[simp]
def inScope (visible : List String) : Stmt → Bool
  | .declare _ _ value | .eval value => seen visible value.assigned
  | .store sink value => seen visible (sink.assigned ++ value.assigned)
  | .setField field value => seen visible (field.assigned ++ value.assigned)
  | .print _ value => seen visible (Expr.assignedAll value.toList)
  | .delegate _ args => seen visible (Expr.assignedAll args)
  | .ret | .break _ | .continue _ => true
  | .labeled _ body => body.inScope visible
  | .block body => codeInScope visible body
  | .ifThen test body | .whileLoop test body | .doLoop body test =>
    seen visible test.expr.assigned && codeInScope visible body
  | .ifElse test yes no =>
    seen visible test.expr.assigned && (codeInScope visible yes && codeInScope visible no)
  | .forEach _ name iterable body =>
    seen visible iterable.assigned && codeInScope (name :: visible) body
  | .tryCatch body handlers => codeInScope visible body && handlersInScope visible handlers
  | .tryFinally body cleanup => codeInScope visible body && codeInScope visible cleanup

@[simp]
def codeInScope (visible : List String) : List Stmt → Bool
  | [] => true
  | stmt :: rest => stmt.inScope visible && codeInScope (visible ++ stmt.declares) rest

@[simp]
def handlerInScope (visible : List String) : Handler (List Stmt) → Bool
  | ⟨_, name, body⟩ => codeInScope (name :: visible) body

@[simp]
def handlersInScope (visible : List String) : List (Handler (List Stmt)) → Bool
  | [] => true
  | handler :: rest => handlerInScope visible handler && handlersInScope visible rest

end

section

variable {visible : List String} {code more : Code}

@[simp]
theorem codeDeclares_nil : codeDeclares [] = [] := rfl

@[simp]
theorem codeDeclares_cons {stmt : Stmt} :
    codeDeclares (stmt :: code) = stmt.declares ++ codeDeclares code := rfl

@[simp]
theorem codeDeclares_append : codeDeclares (code ++ more) = codeDeclares code ++ codeDeclares more :=
  List.flatMap_append

theorem codeInScope_append : codeInScope visible (code ++ more) =
    (codeInScope visible code && codeInScope (visible ++ codeDeclares code) more) := by
  induction code generalizing visible with
  | nil => simp [codeInScope]
  | cons stmt rest ih =>
    rw [List.cons_append, codeInScope, codeInScope, ih, codeDeclares_cons, List.append_assoc,
      Bool.and_assoc]

theorem handlersInScope_append {handlers others : List (Handler Code)} :
    handlersInScope visible (handlers ++ others) =
      (handlersInScope visible handlers && handlersInScope visible others) := by
  induction handlers with
  | nil => simp [handlersInScope]
  | cons handler rest ih =>
    rw [List.cons_append, handlersInScope, handlersInScope, ih, Bool.and_assoc]

end

end Stmt

end Java

/-! ## Trees -/

/-- The names of variables while a tree is gone through. -/
structure Names where
  /-- Those that the method has recorded. -/
  known : List String
  /-- Those that are declared around this place. -/
  visible : List String
  deriving DecidableEq, Repr

def Names.isKnown (names : Names) (name : String) : Bool := names.known.contains name

/-- Going through a part of a tree: the names behind it, and whether every variable that it assigns to
    is visible there. -/
abbrev Walk := Names → Names × Bool

namespace Walk

def skip : Walk := fun names => (names, true)

def andThen (first second : Walk) : Walk := fun names =>
  ((second (first names).1).1, (first names).2 && (second (first names).1).2)

/-- One part after another. -/
def each {α : Type} (go : α → Walk) : List α → Walk
  | [] => skip
  | part :: rest => (go part).andThen (each go rest)

/-- A part in a block of its own. -/
def block (body : Walk) : Walk := fun names =>
  (⟨(body names).1.known, names.visible⟩, (body names).2)

/-- An assignment, which declares the variable if it is not known. -/
def assign (name : String) : Walk := fun names =>
  if names.isKnown name then (names, names.visible.contains name)
  else (⟨name :: names.known, name :: names.visible⟩, true)

/-- A part with a variable of its own, which is forgotten behind it. -/
def within (name : String) (body : Walk) : Walk := fun names =>
  let inside := body ⟨name :: names.known, name :: names.visible⟩
  (⟨inside.1.known.filter (· ≠ name), inside.1.visible⟩, inside.2)

/-- A block under a heading that binds a name. A name that is known already is assigned to at the
    start of the block. -/
def binding (name : String) (body : Walk) : Walk := fun names =>
  if names.isKnown name then (assign name |>.andThen body).block names
  else (within name body).block names

/-- A block that handles an exception. -/
def handler (name : Option String) (body : Walk) : Walk :=
  name.elim body.block fun name => binding name body

end Walk

section

variable {α : Type} (go : α → Walk) (tree : α → Tree)

/-- A pass of a loop. The condition is evaluated at the end of the pass if it needs statements. -/
def Loop.walkPass (spec : Loop α) (held : Bool) : Walk :=
  (Walk.each go spec.pre.toList).andThen
    ((Walk.each go spec.body.toList).block.andThen
      ((Walk.each go spec.post.toList).andThen (Walk.each go (if held then [spec.cond] else []))))

/-- The loop behind its start. A condition that is an expression stands in the heading; one that needs
    statements is evaluated in front of the loop, if it is tested first, and again in each pass. -/
def Loop.walkRounds (spec : Loop α) (held : Bool) : Walk :=
  (Walk.each go (if held && !spec.checkFirst then [] else [spec.cond])).andThen
    (spec.walkPass go held).block

def Loop.walk (spec : Loop α) : Walk :=
  (Walk.each go spec.init.toList).andThen fun names =>
    spec.walkRounds go (!(tree spec.cond).isExpression names.isKnown) names

def ForEach.walk (spec : ForEach α) : Walk :=
  (go spec.iterable).andThen (.binding spec.var (Walk.each go spec.body.toList))

/-- The types that a clause handles. -/
def RescueClause.caught (clause : RescueClause α) : List JavaType :=
  if clause.types.isEmpty then [anyException] else clause.types

/-- The handlers of a clause, one for each type. -/
def RescueClause.walk (clause : RescueClause α) : Walk :=
  Walk.each (fun _ => .handler clause.name (Walk.each go clause.body.toList)) clause.caught

/-- Going through a node, given how to go through its children. -/
def Kind.walk : Kind α → Walk
  | .assign name value => (go value).andThen (.assign name)
  | .binary op left right =>
    (go left).andThen (if op.isLogical then (go right).block else go right)
  | .cond test yes no =>
    (go test).andThen ((Walk.each go yes.toList).block.andThen (Walk.each go no.toList).block)
  | .loop spec => spec.walk go tree
  | .forEach spec => spec.walk go
  | .rescue body clauses otherwise =>
    let guarded := (Walk.each go body.toList).andThen (Walk.each go otherwise.toList)
    if clauses.isEmpty then guarded else guarded.block.andThen (Walk.each (·.walk go) clauses)
  | .ensure body cleanup => (go body).block.andThen (go cleanup).block
  | kind => Walk.each go kind.children

end

theorem Walk.each_map {α β : Type} (go : β → Walk) (f : α → β) (parts : List α) :
    Walk.each go (parts.map f) = Walk.each (go ∘ f) parts := by
  induction parts with
  | nil => rfl
  | cons part rest ih => rw [List.map_cons, Walk.each, Walk.each, ih]; rfl

theorem Kind.walk_map {α β : Type} (go : β → Walk) (tree : β → Tree) (f : α → β) (kind : Kind α) :
    (kind.map f).walk go tree = kind.walk (go ∘ f) (tree ∘ f) := by
  have maybe (part : Option α) :
      Walk.each go (part.map f).toList = Walk.each (go ∘ f) part.toList := by
    cases part <;> rfl
  cases kind with
  | cond test yes no => simp only [map, Kind.walk, maybe, Function.comp_apply]
  | loop spec =>
    have condition (test : Bool) : Walk.each go (if test then [] else [f spec.cond]) =
        Walk.each (go ∘ f) (if test then [] else [spec.cond]) := by
      cases test <;> rfl
    have again (held : Bool) : Walk.each go (if held then [f spec.cond] else []) =
        Walk.each (go ∘ f) (if held then [spec.cond] else []) := by
      cases held <;> rfl
    simp only [map, Kind.walk, Loop.walk, Loop.walkRounds, Loop.walkPass, Loop.map, maybe, condition,
      again, Function.comp_apply]
  | forEach spec => simp only [map, Kind.walk, ForEach.walk, ForEach.map, maybe, Function.comp_apply]
  | rescue body clauses otherwise =>
    have clause : (RescueClause.walk go ∘ RescueClause.map f) = RescueClause.walk (go ∘ f) := by
      funext clause
      exact congrArg (fun body => Walk.each (fun _ => .handler clause.name body) clause.caught)
        (maybe clause.body)
    simp only [map, Kind.walk, maybe, Walk.each_map, clause, List.isEmpty_map]
  | ret value | print value _ => simp only [map, Kind.walk, children, maybe]
  | call receiver method args returns =>
    cases receiver <;>
      simp [map, Kind.walk, children, Receiver.map, Receiver.toList, Walk.each_map, Walk.each]
  | _ => simp [map, Kind.walk, children, Walk.each, Walk.each_map]

/-- Going through a tree. -/
def Tree.walk : Tree → Walk :=
  Tree.para fun kind _ => kind.walk (·.result.get) (·.tree)

theorem Tree.walk_node (kind : Kind Tree) (type : JavaType) :
    (Tree.node kind type).walk = kind.walk Tree.walk id := by
  rw [Tree.walk, Tree.para_node, Kind.walk_map]
  rfl

end JavaBackend
