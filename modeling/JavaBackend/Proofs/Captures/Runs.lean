import JavaBackend.Proofs.Captures.Writes
import JavaBackend.Proofs.Meaning.Source

/-!
# Runs of code and the variables they leave alone

`Runs` says how any Java code of the generated kind can run, as far as its variables go: calls, fields
and operators may give any value and may throw, and any handler may be the one that catches. A run is
seen through the calls that it makes and the values that it puts somewhere.

What holds of all these runs holds of those that a Java machine does. The main statement is
`Runs.unwritten`: a variable that the code does not write holds what it held.
-/

namespace JavaBackend.Java

/-- What the variables of a method hold. -/
abbrev Vars := String → Value

namespace Vars

def set (σ : Vars) (name : String) (value : Value) : Vars := fun other =>
  if other = name then value else σ other

@[simp]
theorem set_self (σ : Vars) (name : String) (value : Value) : σ.set name value name = value :=
  if_pos rfl

theorem set_of_ne {σ : Vars} {name other : String} (value : Value) (ne : other ≠ name) :
    σ.set name value other = σ other := if_neg ne

end Vars

/-- What can run. Statements have the labels in front of them. -/
inductive Phrase where
  | expr (expr : Expr)
  | exprs (exprs : List Expr)
  | stmt (labels : List String) (stmt : Stmt)
  | code (code : Code)
  /-- The passes of a loop over elements. -/
  | passes (labels : List String) (name : String) (elements : List Value) (body : Code)

/-- How a run ends. -/
inductive Exit where
  | value (value : Value)
  | values (values : List Value)
  | done
  | broke (label : Option String)
  | continued (label : Option String)
  | returned (value : Option Value)
  | threw (value : Value)

namespace Exit

/-- A loop with these labels goes on to its next pass. -/
def Resumes (labels : List String) : Exit → Prop
  | .done | .continued none => True
  | .continued (some label) => label ∈ labels
  | _ => False

/-- How a loop ends if a pass ends so. -/
def ofLoop : Exit → Exit
  | .broke none => .done
  | other => other

/-- How a labeled statement ends if the statement ends so. -/
def ofLabeled (label : String) : Exit → Exit
  | .broke (some target) => if target = label then .done else .broke (some target)
  | other => other

/-- How a guarded block ends if the block and its cleanup end so. -/
def ofCleanup (body : Exit) : Exit → Exit
  | .done => body
  | cleanup => cleanup

/-- How an operation may answer. -/
def IsAnswer : Exit → Prop
  | .value _ | .threw _ => True
  | _ => False

end Exit

/-- The operands of an operation, if the expression is one: they are all evaluated before it. -/
def Expr.operands? : Expr → Option (List Expr)
  | .field value _ | .unary _ value | .isNull value | .instanceOf value _ | .cast _ value
  | .newArray _ value => some [value]
  | .call target _ args => some (target :: args)
  | .new _ args | .concat args => some args
  | .binary op left right => if op.isLogical then none else some [left, right]
  | _ => none

/-- The call that an operation makes. -/
def Expr.events (values : List Value) : Expr → History
  | .call _ method _ =>
    match values with
    | target :: args => [.call target method args]
    | [] => []
  | _ => []

/-- The expressions that a statement evaluates first. -/
def Stmt.heads : Stmt → List Expr
  | .declare _ _ value | .store _ value | .eval value => [value]
  | .setField field value => [field, value]
  | .print _ value => value.toList
  | .delegate _ args => args
  | .ifThen test _ | .ifElse test _ _ | .whileLoop test _ => [test.expr]
  | .forEach _ _ iterable _ => [iterable]
  | _ => []

/-- The statements that are over with their expressions. -/
def Stmt.isEffect : Stmt → Bool
  | .eval _ | .setField _ _ | .print _ _ | .delegate _ _ => true
  | _ => false

/-- How a statement ends that puts a value somewhere. -/
def Sink.exit (value : Value) : Sink → Exit
  | .into _ | .lead _ => .done
  | .result => .returned (some value)
  | .thrown => .threw value

/-- The variables behind such a statement. -/
def Sink.put (σ : Vars) (value : Value) : Sink → Vars
  | .into name => σ.set name value
  | _ => σ

/-- Whether a test holds of a value. -/
def Test.holdsOf (test : Test) (value : Value) : Bool := value.isTrue != test.negated

/-! ## The rules -/

/-- A phrase can run from some variables to others, with these events. -/
inductive Runs (self : Value) : Vars → Phrase → History → Exit → Vars → Prop where
  -- expressions
  | literal {σ value} : Runs self σ (.expr (.literal value)) [] (.value (.literal value)) σ
  | this {σ} : Runs self σ (.expr .this) [] (.value self) σ
  | var {σ name} : Runs self σ (.expr (.var name)) [] (.value (σ name)) σ
  | owner {σ name} : Runs self σ (.expr (.owner name)) [] (.value (.owner name)) σ
  | assign {σ name expr events value σ'} (run : Runs self σ (.expr expr) events (.value value) σ') :
    Runs self σ (.expr (.assign name expr)) events (.value value) (σ'.set name value)
  | assignThrows {σ name expr events value σ'}
    (run : Runs self σ (.expr expr) events (.threw value) σ') :
    Runs self σ (.expr (.assign name expr)) events (.threw value) σ'
  | logicalLeft {σ op left right events value σ'} (logical : op.isLogical = true)
    (run : Runs self σ (.expr left) events (.value value) σ') (enough : value.isTrue = (op == .or)) :
    Runs self σ (.expr (.binary op left right)) events (.value value) σ'
  | logicalThrows {σ op left right events value σ'} (logical : op.isLogical = true)
    (run : Runs self σ (.expr left) events (.threw value) σ') :
    Runs self σ (.expr (.binary op left right)) events (.threw value) σ'
  | logicalRight {σ op left right events value σ₁ more exit σ'} (logical : op.isLogical = true)
    (first : Runs self σ (.expr left) events (.value value) σ₁) (needed : value.isTrue ≠ (op == .or))
    (second : Runs self σ₁ (.expr right) more exit σ') :
    Runs self σ (.expr (.binary op left right)) (events ++ more) exit σ'
  | condThrows {σ test yes no events value σ'}
    (run : Runs self σ (.expr test) events (.threw value) σ') :
    Runs self σ (.expr (.cond test yes no)) events (.threw value) σ'
  | cond {σ test yes no events value σ₁ more exit σ'}
    (tested : Runs self σ (.expr test) events (.value value) σ₁)
    (run : Runs self σ₁ (.expr (if value.isTrue then yes else no)) more exit σ') :
    Runs self σ (.expr (.cond test yes no)) (events ++ more) exit σ'
  | operation {σ expr operands events values answer σ'} (isOperation : expr.operands? = some operands)
    (run : Runs self σ (.exprs operands) events (.values values) σ') (answered : answer.IsAnswer) :
    Runs self σ (.expr expr) (events ++ expr.events values) answer σ'
  | operationThrows {σ expr operands events value σ'} (isOperation : expr.operands? = some operands)
    (run : Runs self σ (.exprs operands) events (.threw value) σ') :
    Runs self σ (.expr expr) events (.threw value) σ'
  | exprsNil {σ} : Runs self σ (.exprs []) [] (.values []) σ
  | exprsThrows {σ expr rest events value σ'}
    (run : Runs self σ (.expr expr) events (.threw value) σ') :
    Runs self σ (.exprs (expr :: rest)) events (.threw value) σ'
  | exprsCons {σ expr rest events value σ₁ more values σ'}
    (first : Runs self σ (.expr expr) events (.value value) σ₁)
    (others : Runs self σ₁ (.exprs rest) more (.values values) σ') :
    Runs self σ (.exprs (expr :: rest)) (events ++ more) (.values (value :: values)) σ'
  | exprsLater {σ expr rest events value σ₁ more thrown σ'}
    (first : Runs self σ (.expr expr) events (.value value) σ₁)
    (others : Runs self σ₁ (.exprs rest) more (.threw thrown) σ') :
    Runs self σ (.exprs (expr :: rest)) (events ++ more) (.threw thrown) σ'
  -- statements
  | throws {σ labels stmt events value σ'}
    (run : Runs self σ (.exprs stmt.heads) events (.threw value) σ') :
    Runs self σ (.stmt labels stmt) events (.threw value) σ'
  | effect {σ labels stmt events values σ'} (isEffect : stmt.isEffect = true)
    (run : Runs self σ (.exprs stmt.heads) events (.values values) σ') :
    Runs self σ (.stmt labels stmt) events .done σ'
  | declare {σ labels type name init events value σ'}
    (run : Runs self σ (.expr init) events (.value value) σ') :
    Runs self σ (.stmt labels (.declare type name init)) events .done (σ'.set name value)
  | store {σ labels sink expr events value σ'}
    (run : Runs self σ (.expr expr) events (.value value) σ') :
    Runs self σ (.stmt labels (.store sink expr)) (events ++ [.put sink.text value]) (sink.exit value)
      (sink.put σ' value)
  | ret {σ labels} : Runs self σ (.stmt labels .ret) [] (.returned none) σ
  | break_ {σ labels label} : Runs self σ (.stmt labels (.break label)) [] (.broke label) σ
  | continue_ {σ labels label} : Runs self σ (.stmt labels (.continue label)) [] (.continued label) σ
  | labeled {σ labels label stmt events exit σ'}
    (run : Runs self σ (.stmt (label :: labels) stmt) events exit σ') :
    Runs self σ (.stmt labels (.labeled label stmt)) events (exit.ofLabeled label) σ'
  | block {σ labels body events exit σ'} (run : Runs self σ (.code body) events exit σ') :
    Runs self σ (.stmt labels (.block body)) events exit σ'
  | ifThen {σ labels test yes events value σ₁ more exit σ'}
    (tested : Runs self σ (.expr test.expr) events (.value value) σ₁)
    (run : Runs self σ₁ (.code (if test.holdsOf value then yes else [])) more exit σ') :
    Runs self σ (.stmt labels (.ifThen test yes)) (events ++ more) exit σ'
  | ifElse {σ labels test yes no events value σ₁ more exit σ'}
    (tested : Runs self σ (.expr test.expr) events (.value value) σ₁)
    (run : Runs self σ₁ (.code (if test.holdsOf value then yes else no)) more exit σ') :
    Runs self σ (.stmt labels (.ifElse test yes no)) (events ++ more) exit σ'
  -- loops
  | whileEnds {σ labels test body events value σ'}
    (tested : Runs self σ (.expr test.expr) events (.value value) σ')
    (fails : test.holdsOf value = false) :
    Runs self σ (.stmt labels (.whileLoop test body)) events .done σ'
  | whileLeaves {σ labels test body events value σ₁ more exit σ'}
    (tested : Runs self σ (.expr test.expr) events (.value value) σ₁)
    (holds : test.holdsOf value = true) (run : Runs self σ₁ (.code body) more exit σ')
    (leaves : ¬exit.Resumes labels) :
    Runs self σ (.stmt labels (.whileLoop test body)) (events ++ more) exit.ofLoop σ'
  | whileAgain {σ labels test body events value σ₁ more exit σ₂ later last σ'}
    (tested : Runs self σ (.expr test.expr) events (.value value) σ₁)
    (holds : test.holdsOf value = true) (run : Runs self σ₁ (.code body) more exit σ₂)
    (resumes : exit.Resumes labels)
    (again : Runs self σ₂ (.stmt labels (.whileLoop test body)) later last σ') :
    Runs self σ (.stmt labels (.whileLoop test body)) (events ++ (more ++ later)) last σ'
  | doLeaves {σ labels body test events exit σ'} (run : Runs self σ (.code body) events exit σ')
    (leaves : ¬exit.Resumes labels) :
    Runs self σ (.stmt labels (.doLoop body test)) events exit.ofLoop σ'
  | doThen {σ labels body test events exit σ₁ more last σ'}
    (run : Runs self σ (.code body) events exit σ₁) (resumes : exit.Resumes labels)
    (again : Runs self σ₁ (.stmt labels (.whileLoop test body)) more last σ') :
    Runs self σ (.stmt labels (.doLoop body test)) (events ++ more) last σ'
  | forEach {σ labels type name iterable body events value σ₁ elements more exit σ'}
    (iterated : Runs self σ (.expr iterable) events (.value value) σ₁)
    (run : Runs self σ₁ (.passes labels name elements body) more exit σ') :
    Runs self σ (.stmt labels (.forEach type name iterable body)) (events ++ more) exit σ'
  | passesNil {σ labels name body} : Runs self σ (.passes labels name [] body) [] .done σ
  | passesLeave {σ labels name element rest body events exit σ'}
    (run : Runs self (σ.set name element) (.code body) events exit σ')
    (leaves : ¬exit.Resumes labels) :
    Runs self σ (.passes labels name (element :: rest) body) events exit.ofLoop σ'
  | passesCons {σ labels name element rest body events exit σ₁ more last σ'}
    (run : Runs self (σ.set name element) (.code body) events exit σ₁)
    (resumes : exit.Resumes labels)
    (others : Runs self σ₁ (.passes labels name rest body) more last σ') :
    Runs self σ (.passes labels name (element :: rest) body) (events ++ more) last σ'
  -- exceptions
  | tryPasses {σ labels body handlers events exit σ'} (run : Runs self σ (.code body) events exit σ') :
    Runs self σ (.stmt labels (.tryCatch body handlers)) events exit σ'
  | tryCatches {σ labels body handlers events value σ₁ handler more exit σ'}
    (run : Runs self σ (.code body) events (.threw value) σ₁) (catches : handler ∈ handlers)
    (handled : Runs self (σ₁.set handler.name value) (.code handler.body) more exit σ') :
    Runs self σ (.stmt labels (.tryCatch body handlers)) (events ++ more) exit σ'
  | tryFinally {σ labels body cleanup events exit σ₁ more last σ'}
    (run : Runs self σ (.code body) events exit σ₁)
    (cleaned : Runs self σ₁ (.code cleanup) more last σ') :
    Runs self σ (.stmt labels (.tryFinally body cleanup)) (events ++ more) (exit.ofCleanup last) σ'
  -- code
  | codeNil {σ} : Runs self σ (.code []) [] .done σ
  | codeCons {σ stmt rest events σ₁ more exit σ'} (first : Runs self σ (.stmt [] stmt) events .done σ₁)
    (others : Runs self σ₁ (.code rest) more exit σ') :
    Runs self σ (.code (stmt :: rest)) (events ++ more) exit σ'
  | codeLeaves {σ stmt rest events exit σ'} (run : Runs self σ (.stmt [] stmt) events exit σ')
    (leaves : exit ≠ .done) :
    Runs self σ (.code (stmt :: rest)) events exit σ'

/-! ## Variables that are left alone -/

open Stmt in
/-- The variables that a phrase writes. -/
@[simp]
def Phrase.writes : Phrase → List String
  | .expr value => value.assigned
  | .exprs values => Expr.assignedAll values
  | .stmt _ step => step.writes
  | .code body => codeWrites body
  | .passes _ name _ body => name :: codeWrites body

theorem Expr.assigned_of_operands? {expr : Expr} {operands : List Expr}
    (isOperation : expr.operands? = some operands) : expr.assigned = Expr.assignedAll operands := by
  cases expr with
  | binary op left right =>
    rw [operands?] at isOperation
    split at isOperation
    · cases isOperation
    · cases isOperation
      simp
  | _ => simp [operands?] at isOperation <;> simp [← isOperation]

theorem Stmt.heads_writes {name : String} {stmt : Stmt} (mem : name ∈ Expr.assignedAll stmt.heads) :
    name ∈ stmt.writes := by
  cases stmt <;> simp_all [heads]

theorem Stmt.handler_writes {name : String} {handlers : List (Handler Code)} {handler : Handler Code}
    (mem : handler ∈ handlers) (unwritten : name ∉ handlersWrite handlers) :
    name ≠ handler.name ∧ name ∉ codeWrites handler.body := by
  induction handlers with
  | nil => cases mem
  | cons first rest ih =>
    obtain ⟨type, own, body⟩ := first
    simp only [handlersWrite, handlerWrites, List.mem_append, List.mem_cons, not_or] at unwritten
    rcases List.mem_cons.mp mem with rfl | later
    · exact unwritten.1
    · exact ih later unwritten.2

/-- A variable that a phrase does not write holds the same behind any of its runs, however it
    ends. -/
theorem Runs.unwritten {self : Value} {σ σ' : Vars} {phrase : Phrase} {events : History} {exit : Exit}
    (runs : Runs self σ phrase events exit σ') {name : String} (unwritten : name ∉ phrase.writes) :
    σ' name = σ name := by
  induction runs with
  | literal | this | var | owner | exprsNil | ret | break_ | continue_ | passesNil | codeNil => rfl
  | assign _ ih | declare _ ih =>
    simp only [Phrase.writes, Expr.assigned, Stmt.writes, List.mem_cons, not_or] at unwritten
    rw [Vars.set_of_ne _ unwritten.1, ih unwritten.2]
  | @store _ _ sink _ _ value σ' _ ih =>
    simp only [Phrase.writes, Stmt.writes, List.mem_append, not_or] at unwritten
    have kept : sink.put σ' value name = σ' name := by
      cases sink with
      | into own => exact Vars.set_of_ne value (by simpa [Sink.assigned] using unwritten.1)
      | _ => rfl
    rw [kept, ih unwritten.2]
  | operation isOperation _ _ ih | operationThrows isOperation _ ih =>
    rw [Phrase.writes, Expr.assigned_of_operands? isOperation] at unwritten
    exact ih unwritten
  | throws _ ih | effect _ _ ih => exact ih (mt Stmt.heads_writes unwritten)
  | assignThrows _ ih | logicalLeft _ _ _ ih | logicalThrows _ _ ih | condThrows _ ih
  | exprsThrows _ ih | labeled _ ih | block _ ih | whileEnds _ _ ih | doLeaves _ _ ih
  | tryPasses _ ih | codeLeaves _ _ ih => simp_all
  | logicalRight _ _ _ _ ih₁ ih₂ | exprsCons _ _ ih₁ ih₂ | exprsLater _ _ ih₁ ih₂
  | whileLeaves _ _ _ _ ih₁ ih₂ | doThen _ _ _ ih₁ ih₂ | forEach _ _ ih₁ ih₂
  | tryFinally _ _ ih₁ ih₂ | codeCons _ _ ih₁ ih₂ => simp_all
  | @cond _ _ _ _ _ value _ _ _ _ _ _ ih₁ ih₂ =>
    cases holds : value.isTrue <;> simp_all
  | @ifThen _ _ test _ _ value _ _ _ _ _ _ ih₁ ih₂ | @ifElse _ _ test _ _ _ value _ _ _ _ _ _ ih₁ ih₂ =>
    cases holds : test.holdsOf value <;> simp_all
  | whileAgain _ _ _ _ _ ih₁ ih₂ ih₃ => simp_all
  | passesLeave _ _ ih =>
    simp only [Phrase.writes, List.mem_cons, not_or] at unwritten
    rw [ih unwritten.2, Vars.set_of_ne _ unwritten.1]
  | passesCons _ _ _ ih₁ ih₂ =>
    rw [ih₂ unwritten]
    simp only [Phrase.writes, List.mem_cons, not_or] at unwritten
    rw [ih₁ unwritten.2, Vars.set_of_ne _ unwritten.1]
  | tryCatches _ catches _ ih₁ ih₂ =>
    simp only [Phrase.writes, Stmt.writes, List.mem_append, not_or] at unwritten
    obtain ⟨other, inside⟩ := Stmt.handler_writes catches unwritten.2
    rw [ih₂ inside, Vars.set_of_ne _ other, ih₁ unwritten.1]

/-! ## Runs of code in parts -/

theorem runs_append {self : Value} {σ σ' : Vars} {code more : Code} {events : History} {exit : Exit}
    (runs : Runs self σ (.code (code ++ more)) events exit σ') :
    (exit ≠ .done ∧ Runs self σ (.code code) events exit σ') ∨
      ∃ first second σ₁, events = first ++ second ∧ Runs self σ (.code code) first .done σ₁ ∧
        Runs self σ₁ (.code more) second exit σ' := by
  induction code generalizing σ events with
  | nil => exact .inr ⟨[], events, σ, rfl, .codeNil, runs⟩
  | cons stmt rest ih =>
    cases runs with
    | codeLeaves run leaves => exact .inl ⟨leaves, .codeLeaves run leaves⟩
    | codeCons first others =>
      rcases ih others with ⟨left, run⟩ | ⟨early, late, σ₁, rfl, run, last⟩
      · exact .inl ⟨left, .codeCons first run⟩
      · exact .inr ⟨_, late, σ₁, (List.append_assoc _ _ _).symm, .codeCons first run, last⟩

/-! ## Expressions that only read -/

/-- What an expression gives that only reads a variable, or the object itself. -/
def Expr.read? (self : Value) (σ : Vars) : Expr → Option Value
  | .this => some self
  | .var name => some (σ name)
  | _ => none

theorem runs_of_read? {self value : Value} {σ σ' : Vars} {expr : Expr} {events : History} {exit : Exit}
    (read : expr.read? self σ = some value) :
    Runs self σ (.expr expr) events exit σ' ↔ events = [] ∧ exit = .value value ∧ σ' = σ := by
  cases expr with
  | this =>
    cases read
    constructor
    · intro runs
      cases runs with
      | this => exact ⟨rfl, rfl, rfl⟩
      | operation isOperation | operationThrows isOperation => cases isOperation
    · rintro ⟨rfl, rfl, rfl⟩
      exact .this
  | var name =>
    cases read
    constructor
    · intro runs
      cases runs with
      | var => exact ⟨rfl, rfl, rfl⟩
      | operation isOperation | operationThrows isOperation => cases isOperation
    · rintro ⟨rfl, rfl, rfl⟩
      exact .var
  | _ => cases read

/-- Such an expression gives the same while its variable is left alone. -/
theorem Expr.read?_congr {self : Value} {σ σ' : Vars} {expr : Expr}
    (kept : ∀ name, expr = .var name → σ' name = σ name) : expr.read? self σ' = expr.read? self σ := by
  cases expr with
  | var name => exact congrArg some (kept name rfl)
  | _ => rfl

/-! ## Statements of one expression -/

section

variable {self : Value} {σ σ' : Vars} {labels : List String} {events : History} {exit : Exit}

/-- A call on what a target reads is made on that, with the values of the arguments. -/
theorem Runs.call_made {target : Expr} {method : String} {args : List Expr} {value : Value}
    (read : target.read? self σ = some value)
    (runs : Runs self σ (.stmt labels (.eval (.call target method args))) events .done σ') :
    ∃ before values, Runs self σ (.exprs args) before (.values values) σ' ∧
      events = before ++ [.call value method values] := by
  cases runs with
  | effect _ run =>
    cases run with
    | exprsCons first others =>
      cases others
      cases first with
      | operation isOperation operands =>
        cases isOperation
        cases operands with
        | exprsCons targetRun argsRun =>
          obtain ⟨rfl, same, rfl⟩ := (runs_of_read? read).mp targetRun
          cases same
          exact ⟨_, _, argsRun, by simp [Expr.events]⟩

/-- A value that is read is put where it belongs. -/
theorem Runs.put_read {target : Expr} {sink : Sink} {value : Value}
    (read : target.read? self σ = some value)
    (runs : Runs self σ (.stmt labels (.store sink target)) events exit σ') :
    events = [.put sink.text value] ∧ exit = sink.exit value ∧ σ' = sink.put σ value := by
  cases runs with
  | store run =>
    obtain ⟨rfl, same, rfl⟩ := (runs_of_read? read).mp run
    cases same
    exact ⟨rfl, rfl, rfl⟩
  | throws run =>
    cases run with
    | exprsThrows thrown => cases ((runs_of_read? read).mp thrown).2.1
    | exprsLater _ others => cases others
  | effect isEffect _ => cases isEffect

end

end JavaBackend.Java
