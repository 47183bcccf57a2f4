import JavaBackend.Source.Tree

/-!
# The meaning of trees

What a source tree does when it runs, with no mention of the Java code for it. A run is seen from
outside through its `History`: the calls that it makes, and the reads of variables that others may
change at any time. A `World` answers both, from the whole history so far, and says what operators
and conversions give.

Operands are evaluated from the left to the right. A loop may go back only so often: a run that would
go back once more ends as `running`, with the history up to there. What holds for every bound holds
for runs that never end, too.

Assignments, fields, exceptions and returns have no meaning here, and a jump has one only in the body
of a loop.
-/

namespace JavaBackend

/-! ## Worlds -/

/-- A value of a running program. -/
inductive Value where
  | literal (value : Literal)
  /-- An object, by its identity. -/
  | object (id : Nat)
  /-- A class, as the receiver of a static call. -/
  | owner (name : String)
  deriving DecidableEq, Repr

namespace Value

def null : Value := .literal .null

def bool (value : Bool) : Value := .literal (.bool value)

def isTrue (value : Value) : Bool := value == bool true

end Value

/-- The value of a part that is missing. -/
def JavaType.missing (type : JavaType) : Value := .literal type.held.defaultValue

/-- What a run does for all to see. -/
inductive Event where
  | call (target : Value) (method : String) (args : List Value)
  /-- A variable is read that others may change. -/
  | read (name : String)
  /-- A value is put behind some text, for others to use. -/
  | put (lead : String) (value : Value)
  deriving DecidableEq, Repr

/-- What a run did so far. -/
abbrev History := List Event

/-- All that the meaning of a tree depends on. -/
structure World where
  /-- The current object. -/
  self : Value
  /-- The class that the code belongs to. -/
  owner : String
  isStatic : Bool
  /-- The answer to the last event of a history. -/
  answer : History → Value
  /-- Whether others may change the variable at any time. -/
  isVolatile : String → Bool
  /-- What any other variable holds. -/
  value : String → Value
  binary : BinaryOp → Value → Value → Value
  unary : UnaryOp → Value → Value
  cast : JavaType → Value → Value
  concat : List Value → Value
  /-- The elements of a collection, at some point of the run. -/
  elements : History → Value → List Value

namespace World

/-- Who a call is sent to that names no receiver. -/
def ownTarget (w : World) : Value := if w.isStatic then .owner w.owner else w.self

/-- The value of such a call if it returns nothing. -/
def ownValue (w : World) : Value := if w.isStatic then .null else w.self

end World

/-! ## Meanings -/

/-- How a run ends. -/
inductive Ending (α : Type) where
  | done (value : α) (h : History)
  /-- A jump left the code. -/
  | left (jump : Jump) (h : History)
  /-- A loop would go back once more than it may. -/
  | running (h : History)
  | undefined
  deriving Repr

/-- A run, from any history on. -/
def Meaning (α : Type) : Type := History → Ending α

namespace Meaning

variable {α β : Type}

protected def pure (value : α) : Meaning α := fun h => .done value h

protected def bind (first : Meaning α) (next : α → Meaning β) : Meaning β := fun h =>
  match first h with
  | .done value h => next value h
  | .left jump h => .left jump h
  | .running h => .running h
  | .undefined => .undefined

instance : Monad Meaning where
  pure := Meaning.pure
  bind := Meaning.bind

theorem bind_apply (first : Meaning α) (next : α → Meaning β) (h : History) :
    (first >>= next) h =
      match first h with
      | .done value h => next value h
      | .left jump h => .left jump h
      | .running h => .running h
      | .undefined => .undefined := rfl

instance : LawfulMonad Meaning := LawfulMonad.mk' Meaning
  (by
    intro α first
    funext h
    show Meaning.bind first (fun value => Meaning.pure (id value)) h = first h
    unfold Meaning.bind
    cases first h <;> rfl)
  (by
    intro α β value next
    rfl)
  (by
    intro α β γ first next last
    funext h
    show Meaning.bind (Meaning.bind first next) last h =
      Meaning.bind first (fun value => Meaning.bind (next value) last) h
    simp only [Meaning.bind]
    cases first h <;> rfl)

def left (jump : Jump) : Meaning α := fun h => .left jump h

def running : Meaning α := fun h => .running h

def undefined : Meaning α := fun _ => .undefined

/-- Code that no jump may leave. -/
def closed (code : Meaning α) : Meaning α := fun h =>
  match code h with
  | .left _ _ => .undefined
  | ending => ending

/-- One run of a loop's body, and whether it asks to be run again. -/
def attempt (body : Meaning Unit) : Meaning Bool := fun h =>
  match body h with
  | .done _ h | .left .next h => .done false h
  | .left .redo h => .done true h
  | .left .break h => .left .break h
  | .running h => .running h
  | .undefined => .undefined

/-- A loop, which a jump out of its body can leave. -/
def untilBreak (loop : Meaning Unit) : Meaning Unit := fun h =>
  match loop h with
  | .left .break h => .done () h
  | .left _ _ => .undefined
  | ending => ending

/-- Code for its effects. -/
def effects : Option (Meaning Value) → Meaning Unit
  | some code => do let _ ← code
  | none => return

end Meaning

/-- Something is done once, and again as long as it asks for it, `n` times at most. Whoever asks once
    more gets `more`. -/
def rounds {m : Type → Type} [Monad m] (more : m Unit) (pass : m Bool) : Nat → m Unit
  | 0 => do if ← pass then more
  | n + 1 => do if ← pass then rounds more pass n

namespace World

/-- The world's answer to an event. -/
def ask (w : World) (event : Event) : Meaning Value := fun h =>
  .done (w.answer (h ++ [event])) (h ++ [event])

def read (w : World) (name : String) : Meaning Value :=
  if w.isVolatile name then w.ask (.read name) else return w.value name

/-- The elements of a collection, here and now. -/
def elementsNow (w : World) (collection : Value) : Meaning (List Value) := fun h =>
  .done (w.elements h collection) h

end World

/-! ## Loops -/

open Meaning

/-- The body of a loop, until it does not ask to be run again. -/
def again (n : Nat) (body : Option (Meaning Value)) : Meaning Unit :=
  rounds running (attempt (effects body)) n

namespace Loop

/-- Whether the loop goes on. -/
def test (spec : Loop (Meaning Value)) : Meaning Bool := do
  let cond ← spec.cond.closed
  return cond.isTrue != spec.negative

/-- One pass, up to the test. -/
def work (spec : Loop (Meaning Value)) (n : Nat) : Meaning Unit := do
  (effects spec.pre).closed
  again n spec.body
  (effects spec.post).closed

/-- One pass, and whether there is another one. -/
def pass (spec : Loop (Meaning Value)) (n : Nat) : Meaning Bool := do
  spec.work n
  spec.test

/-- All passes. -/
def passes (spec : Loop (Meaning Value)) (n : Nat) : Meaning Unit := do
  if spec.checkFirst then
    if ← spec.test then rounds running (spec.pass n) n
  else
    rounds running (spec.pass n) n

def meaning (spec : Loop (Meaning Value)) (n : Nat) : Meaning Value := do
  (effects spec.init).closed
  untilBreak (spec.passes n)
  return .null

end Loop

def ForEach.meaning (spec : ForEach (Meaning Value)) (w : World) (n : Nat) : Meaning Value := do
  let collection ← spec.iterable.closed
  let elements ← w.elementsNow collection
  untilBreak (elements.forM fun _ => again n spec.body)
  return .null

/-! ## Trees -/

/-- Who a call is sent to, and the value of the call if it returns nothing. -/
def Receiver.meaning (w : World) : Receiver (Meaning Value) → Meaning (Value × Value)
  | .implicit => return (w.ownTarget, w.ownValue)
  | .named type => return (.owner type.source, .null)
  | .value target => do
    let value ← target
    return (value, value)

/-- Code in order. The value is that of the last. -/
def seqMeaning (type : JavaType) : List (Meaning Value) → Meaning Value
  | [] => return type.missing
  | [last] => last
  | first :: rest => do
    let _ ← first
    seqMeaning type rest

/-- What a node means, given what its children do. -/
def Kind.meaning (w : World) (n : Nat) (type : JavaType) : Kind (Meaning Value) → Meaning Value
  | .literal value => return .literal value
  | .self => return w.self
  | .var name => w.read name
  | .call receiver method args returns => do
    let (target, value) ← receiver.meaning w
    let args ← args.mapM id
    let answer ← w.ask (.call target method args)
    return if returns.isVoid then value else answer
  | .binary .and left right => do
    if (← left).isTrue then right else return .bool false
  | .binary .or left right => do
    if (← left).isTrue then return .bool true else right
  | .binary op left right => do
    let left ← left
    let right ← right
    return w.binary op left right
  | .unary op operand => do return w.unary op (← operand)
  | .isNull value => do return .bool ((← value) == .null)
  | .cast type value => do return w.cast type (← value)
  | .concat parts => do return w.concat (← parts.mapM id)
  | .cond test yes no => do
    if (← test).isTrue then yes.getD (return type.missing) else no.getD (return type.missing)
  | .seq nodes => seqMeaning type nodes
  | .loop spec => spec.meaning n
  | .forEach spec => spec.meaning w n
  | .jump action => left action
  | _ => undefined

namespace Tree

/-- What the tree does in a world in which a loop goes back `n` times at most. -/
def meaning (w : World) (n : Nat) : Tree → Meaning Value :=
  para fun kind type => (kind.map (·.result.get)).meaning w n type

theorem meaning_node (w : World) (n : Nat) (kind : Kind Tree) (type : JavaType) :
    (Tree.node kind type).meaning w n = (kind.map (meaning w n)).meaning w n type := by
  rw [meaning, para_node, Kind.map_map]
  rfl

end Tree

end JavaBackend
