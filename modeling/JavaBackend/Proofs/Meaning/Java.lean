import JavaBackend.Java.Stmt
import JavaBackend.Proofs.Meaning.Source

/-!
# The execution of Java code

What Java statements do in the same worlds as source trees. The code has variables of its own, which
it declares: `Env` says what they hold. A name that the code has not declared belongs to the method
around it, and is read as a source tree reads it.

A variable goes with the block that declares it, and may be declared only while no variable of the
code has its name. As in the meaning of trees, a loop goes back `n` times at most.

The execution is that of the statements that the lowering of control flow and values is made of.
Others are `stuck`, as code is that no Java compiler takes.
-/

namespace JavaBackend.Java

/-- What the variables hold that the code has declared. -/
abbrev Env := String → Option Value

namespace Env

/-- No variable is declared. -/
def empty : Env := fun _ => none

def set (ρ : Env) (name : String) (value : Value) : Env := fun other =>
  if other = name then some value else ρ other

/-- What is left of the variables at the end of a block: those from outside. -/
def leave (outer inner : Env) : Env := fun name => if (outer name).isSome then inner name else none

@[simp]
theorem set_self (ρ : Env) (name : String) (value : Value) : ρ.set name value name = some value :=
  if_pos rfl

theorem set_of_ne {ρ : Env} {name other : String} (value : Value) (ne : other ≠ name) :
    ρ.set name value other = ρ other := if_neg ne

theorem set_set (ρ : Env) (name : String) (old value : Value) :
    (ρ.set name old).set name value = ρ.set name value := by
  funext other
  unfold set
  split <;> rfl

theorem set_eq_self {ρ : Env} {name : String} {value : Value} (known : ρ name = some value) :
    ρ.set name value = ρ := by
  funext other
  unfold set
  split
  · next same => rw [same, known]
  · rfl

end Env

/-- How execution ends. -/
inductive Result (α : Type) where
  | done (value : α) (ρ : Env) (h : History)
  | broke (label : Option String) (ρ : Env) (h : History)
  | continued (label : Option String) (ρ : Env) (h : History)
  | returned (value : Option Value) (h : History)
  | thrown (value : Value) (h : History)
  /-- A loop would go back once more than it may. -/
  | running (h : History)
  | stuck

/-- The same end with other variables. -/
def Result.mapEnv {α : Type} (f : Env → Env) : Result α → Result α
  | .done value ρ h => .done value (f ρ) h
  | .broke label ρ h => .broke label (f ρ) h
  | .continued label ρ h => .continued label (f ρ) h
  | other => other

/-- Execution, from any variables and history on. -/
def Exec (α : Type) : Type := Env → History → Result α

namespace Exec

variable {α β : Type}

protected def pure (value : α) : Exec α := fun ρ h => .done value ρ h

protected def bind (first : Exec α) (next : α → Exec β) : Exec β := fun ρ h =>
  match first ρ h with
  | .done value ρ h => next value ρ h
  | .broke label ρ h => .broke label ρ h
  | .continued label ρ h => .continued label ρ h
  | .returned value h => .returned value h
  | .thrown value h => .thrown value h
  | .running h => .running h
  | .stuck => .stuck

instance : Monad Exec where
  pure := Exec.pure
  bind := Exec.bind

theorem bind_apply (first : Exec α) (next : α → Exec β) (ρ : Env) (h : History) :
    (first >>= next) ρ h =
      match first ρ h with
      | .done value ρ h => next value ρ h
      | .broke label ρ h => .broke label ρ h
      | .continued label ρ h => .continued label ρ h
      | .returned value h => .returned value h
      | .thrown value h => .thrown value h
      | .running h => .running h
      | .stuck => .stuck := rfl

instance : LawfulMonad Exec := LawfulMonad.mk' Exec
  (by
    intro α first
    funext ρ h
    show Exec.bind first (fun value => Exec.pure (id value)) ρ h = first ρ h
    unfold Exec.bind
    cases first ρ h <;> rfl)
  (by
    intro α β value next
    rfl)
  (by
    intro α β γ first next last
    funext ρ h
    show Exec.bind (Exec.bind first next) last ρ h =
      Exec.bind first (fun value => Exec.bind (next value) last) ρ h
    simp only [Exec.bind]
    cases first ρ h <;> rfl)

def stuck : Exec α := fun _ _ => .stuck

def running : Exec α := fun _ h => .running h

/-- What is done without a look at the code's own variables. -/
def ofMeaning (code : Meaning α) : Exec α := fun ρ h =>
  match code h with
  | .done value h => .done value ρ h
  | .running h => .running h
  | .left _ _ | .undefined => .stuck

/-! ## Variables and blocks -/

def readVar (w : World) (name : String) : Exec Value := fun ρ h =>
  match ρ name with
  | some value => .done value ρ h
  | none => ofMeaning (w.read name) ρ h

/-- Declare a variable. What others may change is not the code's to hold. -/
def declareVar (w : World) (name : String) (value : Value) : Exec Unit := fun ρ h =>
  if w.isVolatile name then .done () ρ h
  else
    match ρ name with
    | none => .done () (ρ.set name value) h
    | some _ => .stuck

/-- Put a value where it belongs. A variable that the code has not declared is assigned for others to
    use. -/
def deliver (w : World) (sink : Sink) (value : Value) : Exec Unit := fun ρ h =>
  match sink with
  | .into name =>
    match ρ name with
    | some _ => .done () (ρ.set name value) h
    | none =>
      if w.isVolatile name then .done () ρ h else .done () ρ (h ++ [.put sink.text value])
  | .lead _ => .done () ρ (h ++ [.put sink.text value])
  | .result => .returned (some value) h
  | .thrown => .thrown value h

theorem deliver_into {w : World} {name : String} {ρ : Env} {old : Value}
    (known : ρ name = some old) (value : Value) (h : History) :
    deliver w (.into name) value ρ h = .done () (ρ.set name value) h := by
  simp only [deliver, known]

/-- A block. -/
def inBlock (body : Exec α) : Exec α := fun ρ h => (body ρ h).mapEnv (Env.leave ρ)

/-! ## Jumps -/

/-- A labeled statement. -/
def catchLabel (label : String) (body : Exec Unit) : Exec Unit := fun ρ h =>
  match body ρ h with
  | .broke (some target) ρ h => if target = label then .done () ρ h else .broke (some target) ρ h
  | other => other

/-- A loop, for jumps that name none. -/
def catchBreak (loop : Exec Unit) : Exec Unit := fun ρ h =>
  match loop ρ h with
  | .broke none ρ h => .done () ρ h
  | other => other

/-- The body of a loop with these labels. -/
def catchContinue (labels : List String) (body : Exec Unit) : Exec Unit := fun ρ h =>
  match body ρ h with
  | .continued none ρ h => .done () ρ h
  | .continued (some target) ρ h =>
    if target ∈ labels then .done () ρ h else .continued (some target) ρ h
  | other => other

end Exec

open Exec

/-! ## Expressions -/

namespace Expr

mutual

def eval (w : World) : Expr → Exec Value
  | .literal value => return .literal value
  | .this => return w.self
  | .var name => readVar w name
  | .owner name => return .owner name
  | .assign name value => do
    let value ← value.eval w
    deliver w (.into name) value
    return value
  | .call target method args => do
    let target ← target.eval w
    let args ← evalAll w args
    ofMeaning (w.ask (.call target method args))
  | .binary .and left right => do
    if (← left.eval w).isTrue then right.eval w else return .bool false
  | .binary .or left right => do
    if (← left.eval w).isTrue then return .bool true else right.eval w
  | .binary op left right => do
    let left ← left.eval w
    let right ← right.eval w
    return w.binary op left right
  | .unary op operand => do return w.unary op (← operand.eval w)
  | .isNull value => do return .bool ((← value.eval w) == .null)
  | .cast type value => do return w.cast type (← value.eval w)
  | .concat parts => do return w.concat (← evalAll w parts)
  | .cond test yes no => do
    if (← test.eval w).isTrue then yes.eval w else no.eval w
  | .field _ _ | .new _ _ | .instanceOf _ _ | .newArray _ _ => stuck

def evalAll (w : World) : List Expr → Exec (List Value)
  | [] => return []
  | expr :: rest => do
    let value ← expr.eval w
    let values ← evalAll w rest
    return value :: values

end

theorem eval_binary (w : World) {op : BinaryOp} (plain : op.isLogical = false) (l r : Expr) :
    eval w (.binary op l r) = (do
      let left ← l.eval w
      let right ← r.eval w
      return w.binary op left right) := by
  rw [eval]
  · rintro rfl
    cases plain
  · rintro rfl
    cases plain

end Expr

/-- Whether a test holds. -/
def Test.holds (w : World) (test : Test) : Exec Bool := do
  let value ← test.expr.eval w
  return value.isTrue != test.negated

/-! ## Statements -/

namespace Stmt

mutual

/-- Execute a statement that has these labels. -/
def exec (w : World) (n : Nat) (labels : List String) : Stmt → Exec Unit
  | .declare _ name init => do
    let value ← init.eval w
    declareVar w name value
  | .store sink value => do
    let value ← value.eval w
    deliver w sink value
  | .eval expr => do let _ ← expr.eval w
  | .ret => fun _ h => .returned none h
  | .break label => fun ρ h => .broke label ρ h
  | .continue label => fun ρ h => .continued label ρ h
  | .labeled label body => catchLabel label (body.exec w n (label :: labels))
  | .block body => inBlock (execCode w n body)
  | .ifThen test yes => do
    if ← test.holds w then inBlock (execCode w n yes)
  | .ifElse test yes no => do
    if ← test.holds w then inBlock (execCode w n yes) else inBlock (execCode w n no)
  | .whileLoop test body => catchBreak do
    if ← test.holds w then
      rounds running (do catchContinue labels (inBlock (execCode w n body)); test.holds w) n
  | .doLoop body test => catchBreak do
    rounds running (do catchContinue labels (inBlock (execCode w n body)); test.holds w) n
  | .forEach _ name iterable body => catchBreak do
    let collection ← iterable.eval w
    let elements ← ofMeaning (w.elementsNow collection)
    elements.forM fun element => catchContinue labels (inBlock do
      declareVar w name element
      execCode w n body)
  | .setField _ _ | .print _ _ | .delegate _ _ | .tryCatch _ _ | .tryFinally _ _ => stuck

/-- Execute statements in order. -/
def execCode (w : World) (n : Nat) : Code → Exec Unit
  | [] => return
  | stmt :: rest => do
    stmt.exec w n []
    execCode w n rest

end

theorem execCode_append (w : World) (n : Nat) (first second : Code) :
    execCode w n (first ++ second) = (do execCode w n first; execCode w n second) := by
  induction first with
  | nil => rfl
  | cons stmt rest ih => rw [List.cons_append, execCode, execCode, ih, bind_assoc]

theorem execCode_singleton (w : World) (n : Nat) (stmt : Stmt) :
    execCode w n [stmt] = stmt.exec w n [] := by
  rw [execCode, execCode]
  exact bind_pure (stmt.exec w n [])

end Stmt

end JavaBackend.Java
