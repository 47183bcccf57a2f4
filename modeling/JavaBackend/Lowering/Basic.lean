import JavaBackend.Draft.Scope
import JavaBackend.Fault
import JavaBackend.Java.Stmt

/-!
# Lowering

A computation `Lower α` turns part of a source program into Java statements and gives a result. It
reads the surroundings of the code (`Context`), moves on the method's scope and the fields that the
code refers to (`Progress`), and ends in an `Outcome`: either complete statements and a result, or a
fault together with what was laid out before it. What is laid out is pure data here: neither the
text written so far nor the stage of the method has any bearing on it.

After a fault the scope stands as the fault found it, except that the names of a block are forgotten
when the block is left, by a fault as well as at its end.
-/

namespace JavaBackend

open Java (Stmt Code Piece Expr)

/-- A field that code refers to. -/
structure FieldUse where
  name : String
  type : JavaType
  isStatic : Bool
  deriving DecidableEq, Repr

/-- The labels of a labeled loop. -/
structure LabelPair where
  /-- The label of the loop. -/
  outer : String
  /-- The label of the body. -/
  inner : String
  deriving DecidableEq, Repr

/-- A loop around the code. -/
structure EnclosingLoop where
  form : LoopForm
  labels : Option LabelPair
  /-- The variable that makes the body run again. -/
  redoFlag : Option String
  deriving DecidableEq, Repr

/-- What stands around the code. -/
structure Context where
  /-- The simple name of the class. -/
  owner : String
  /-- Whether the method is static. -/
  isStatic : Bool
  /-- What the method returns. -/
  returns : JavaType
  /-- The loops, the innermost first. -/
  loops : List EnclosingLoop
  deriving DecidableEq, Repr

/-- What moves on while code is lowered. -/
structure Progress where
  scope : Scope
  /-- The fields referred to, each by its first use, in the order of these. -/
  fields : List FieldUse
  deriving Repr

/-- Note a use of a field. Only the first use of a name counts. -/
def Progress.useField (p : Progress) (use : FieldUse) : Progress :=
  if p.fields.any (·.name == use.name) then p else { p with fields := p.fields ++ [use] }

/-- How lowering ends. -/
inductive Outcome (α : Type) where
  | done (code : Code) (result : α)
  /-- A fault, after the pieces that were laid out before it. -/
  | failed (written : List Piece) (fault : Fault)

/-- The pieces that were laid out. -/
def Outcome.pieces {α : Type} : Outcome α → List Piece
  | .done code _ => Stmt.codePieces code
  | .failed written _ => written

/-- The result or the fault. -/
def Outcome.toExcept {α : Type} : Outcome α → Except Fault α
  | .done _ result => .ok result
  | .failed _ fault => .error fault

/-- The end of a computation. -/
structure Run (α : Type) where
  outcome : Outcome α
  progress : Progress

/-- A computation that lowers code. -/
def Lower (α : Type) : Type := Context → Progress → Run α

namespace Lower

variable {α β : Type}

protected def pure (result : α) : Lower α := fun _ p => ⟨.done [] result, p⟩

/-- One computation after another: the statements of both, one after another. -/
protected def bind (first : Lower α) (next : α → Lower β) : Lower β := fun ctx p =>
  match first ctx p with
  | ⟨.failed written fault, p⟩ => ⟨.failed written fault, p⟩
  | ⟨.done code result, p⟩ =>
    match next result ctx p with
    | ⟨.failed written fault, p⟩ => ⟨.failed (Stmt.codePieces code ++ written) fault, p⟩
    | ⟨.done more result, p⟩ => ⟨.done (code ++ more) result, p⟩

instance : Monad Lower where
  pure := Lower.pure
  bind := Lower.bind

instance : LawfulMonad Lower := LawfulMonad.mk' Lower
  (by
    intro α first
    funext ctx p
    show Lower.bind first (fun result => Lower.pure (id result)) ctx p = first ctx p
    simp only [Lower.bind, Lower.pure]
    split <;> simp_all)
  (by
    intro α β result next
    funext ctx p
    show Lower.bind (Lower.pure result) next ctx p = next result ctx p
    simp only [Lower.bind, Lower.pure]
    split <;> simp_all [Stmt.codePieces])
  (by
    intro α β γ first next last
    funext ctx p
    show Lower.bind (Lower.bind first next) last ctx p =
      Lower.bind first (fun result => Lower.bind (next result) last) ctx p
    simp only [Lower.bind]
    cases first ctx p with
    | mk outcome p =>
      cases outcome with
      | failed written fault => rfl
      | done code result =>
        simp only
        cases next result ctx p with
        | mk outcome p =>
          cases outcome with
          | failed written fault => rfl
          | done more result =>
            simp only
            cases last result ctx p with
            | mk outcome p =>
              cases outcome <;> simp only [Stmt.codePieces_append, List.append_assoc])

/-- Lay out a statement. -/
def emit (stmt : Stmt) : Lower Unit := fun _ p => ⟨.done [stmt] (), p⟩

def fail (fault : Fault) : Lower α := fun _ p => ⟨.failed [] fault, p⟩

def context : Lower Context := fun ctx p => ⟨.done [] ctx, p⟩

def scope : Lower Scope := fun _ p => ⟨.done [] p.scope, p⟩

def setScope (scope : Scope) : Lower Unit := fun _ p => ⟨.done [] (), { p with scope := scope }⟩

/-- Whether a name is a variable. -/
def isLocal (name : String) : Lower Bool := return (← scope).isLocal name

/-- Refer to a field. -/
def useField (use : FieldUse) : Lower Unit := fun _ p =>
  ⟨.done [] (), p.useField use⟩

/-- The statements of a block, which are not laid out yet. `opened` is what stands in front of them
    once the block is open: it belongs to what a fault in the block leaves behind, and is needed for
    nothing else. -/
def block (opened : Thunk (List Piece)) (body : Lower Unit) : Lower Code := fun ctx p =>
  match body ctx p with
  | ⟨.done code _, p⟩ => ⟨.done [] code, p⟩
  | ⟨.failed written fault, p⟩ => ⟨.failed (opened.get ++ written) fault, p⟩

/-- A computation inside a loop. -/
def inLoop (loop : EnclosingLoop) (body : Lower α) : Lower α := fun ctx =>
  body { ctx with loops := loop :: ctx.loops }

/-- A computation in which a name is a variable, which a block declares. The name is forgotten at
    the end of the block, by a fault, too, unless it was known before. -/
def withLocal (name : String) (type : JavaType) (body : Lower α) : Lower α := fun ctx p =>
  match p.scope.reserve? name type with
  | none => body ctx p
  | some scope =>
    let run := body ctx { p with scope := scope }
    { run with progress.scope := run.progress.scope.release name }

/-- A name for a temporary. -/
def freshName : Lower String := do
  let (name, scope) := (← scope).freshName
  setScope scope
  return name

/-- Declare a temporary. -/
def newTemp (type : JavaType) (init : Expr) : Lower String := do
  let (name, scope) := (← scope).freshTemp type
  setScope scope
  emit (.declare type name init)
  return name

/-- Declare a temporary with its type's default value. -/
def newDefaultTemp (type : JavaType) : Lower String :=
  newTemp type (.literal type.defaultValue)

def freshLabel : Lower String := do
  let (name, scope) := (← scope).freshLabel
  setScope scope
  return name

/-- Declare a variable, unless the name is known. -/
def declareLocal (type : JavaType) (name : String) (init : Expr) : Lower Unit := do
  match (← scope).reserve? name type with
  | none => return
  | some scope =>
    setScope scope
    emit (.declare type name init)

end Lower

end JavaBackend
