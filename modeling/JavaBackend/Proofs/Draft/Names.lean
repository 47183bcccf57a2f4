import JavaBackend.Proofs.Locals.InStep
import JavaBackend.Proofs.Unit.Acceptance

/-!
# The names that a method's draft hands out

A draft hands out names for temporaries and labels, in any order with all its other operations. No two
names of temporaries are the same, and no two labels are. A name can still be that of a variable that
the draft was told of, by its parameters or by a declaration: `given` says when that is so, and
`names_new_unless_given` that it is the only way.
-/

namespace JavaBackend.MethodDraft

/-- An operation on a draft. -/
inductive Op where
  | start
  | stop
  | print (text : String)
  | putLine (line : String)
  | openBlock (heading : String)
  | closeBlock (tail : String)
  | nextBlock (heading : String)
  | declareLocal (type : JavaType) (name : String) (init : Option String)
  | learnLocal (type : JavaType) (name : String)
  | forgetLocal (name : String)
  | freshName
  | newTemp (type : JavaType) (init : Option String)
  | freshLabel
  | printLiteral (value : Literal)
  | printInstanceOf (type : JavaType)
  | printDirective (directive : String)

/-- The draft that is left by an operation. -/
def step (m : MethodDraft) : Op → MethodDraft
  | .start => m.start
  | .stop => m.stop
  | .print text => m.print text
  | .putLine line => m.putLine line
  | .openBlock heading => m.openBlock heading
  | .closeBlock tail => m.closeBlock tail
  | .nextBlock heading => m.nextBlock heading
  | .declareLocal type name init => (m.declareLocal type name init).2
  | .learnLocal type name => (m.learnLocal type name).2
  | .forgetLocal name => (m.forgetLocal name).2
  | .freshName => m.freshName.2
  | .newTemp type init => (m.newTemp type init).2
  | .freshLabel => m.freshLabel.2
  | .printLiteral value => m.printLiteral value
  | .printInstanceOf type => m.printInstanceOf type
  | .printDirective directive =>
    match m.printDirective directive with
    | .ok m => m
    | .error _ => m

/-- The draft that is left by operations, from the first to the last. -/
def run (m : MethodDraft) (ops : List Op) : MethodDraft := ops.foldl step m

/-- The name that an operation hands out for a temporary. -/
def name? (m : MethodDraft) : Op → Option String
  | .freshName => some m.freshName.1
  | .newTemp type init => some (m.newTemp type init).1
  | _ => none

/-- The label that an operation hands out. -/
def label? (m : MethodDraft) : Op → Option String
  | .freshLabel => some m.freshLabel.1
  | _ => none

/-- The names that operations hand out, in order. -/
def names (m : MethodDraft) : List Op → List String
  | [] => []
  | op :: rest => (m.name? op).toList ++ names (m.step op) rest

/-- The labels that operations hand out, in order. -/
def labels (m : MethodDraft) : List Op → List String
  | [] => []
  | op :: rest => (m.label? op).toList ++ labels (m.step op) rest

/-! ## Given names -/

/-- Whether an operation tells the draft that a name is a variable, or that it is none any more. -/
def Op.tells? (name : String) : Op → Option Bool
  | .declareLocal _ told _ | .learnLocal _ told => if told = name then some true else none
  | .forgetLocal told => if told = name then some false else none
  | _ => none

/-- Whether a name is a variable by what the draft was told, of which the last counts. -/
def given (known : Bool) (ops : List Op) (name : String) : Bool :=
  ops.foldl (fun known op => (op.tells? name).getD known) known

/-! ## One operation -/

section

variable (m : MethodDraft)

@[simp]
theorem scope_write (f : Text.Buffer → Text.Buffer) : (m.write f).scope = m.scope := by
  unfold write
  split <;> rfl

theorem scope_start : m.start.scope = m.scope := by
  unfold start
  split
  · split <;> rfl
  · rfl

theorem scope_stop : m.stop.scope = m.scope := by
  unfold stop
  split <;> rfl

/-- The scope that an operation leaves. -/
def Op.scope (scope : Scope) : Op → Scope
  | .declareLocal type name _ | .learnLocal type name => (scope.reserve? name type).getD scope
  | .forgetLocal name => scope.release name
  | .freshName => scope.freshName.2
  | .newTemp type _ => (scope.freshTemp type).2
  | .freshLabel => scope.freshLabel.2
  | _ => scope

/-- What an operation does to the scope hangs on the scope alone. -/
theorem scope_step (op : Op) : (m.step op).scope = op.scope m.scope := by
  cases op with
  | start => exact m.scope_start
  | stop => exact m.scope_stop
  | declareLocal type name init =>
    simp only [step, declareLocal, Op.scope]
    cases m.scope.reserve? name type <;> simp [putLine]
  | learnLocal type name =>
    simp only [step, learnLocal, Op.scope]
    cases m.scope.reserve? name type <;> rfl
  | forgetLocal | freshName | freshLabel => rfl
  | newTemp type init => exact scope_write _ _
  | printDirective directive =>
    simp only [step, printDirective, Op.scope]
    cases Directive.literal? directive with
    | none => rfl
    | some value => exact scope_write _ _
  | _ => exact scope_write _ _

theorem name?_eq (op : Op) (name : String) :
    m.name? op = some name →
      name = tempName (m.scope.temps + 1) ∧ (op.scope m.scope).temps = m.scope.temps + 1 := by
  cases op <;> simp [name?, freshName, newTemp, Op.scope, Scope.freshName, Scope.freshTemp, eq_comm]

theorem label?_eq (op : Op) (label : String) :
    m.label? op = some label →
      label = labelName (m.scope.labels + 1) ∧ (op.scope m.scope).labels = m.scope.labels + 1 := by
  cases op <;> simp [label?, freshLabel, Op.scope, Scope.freshLabel, eq_comm]

/-- The supplies of names only grow. -/
theorem supply_step (op : Op) :
    m.scope.temps ≤ (m.step op).scope.temps ∧ m.scope.labels ≤ (m.step op).scope.labels := by
  rw [scope_step]
  cases op with
  | declareLocal type name init | learnLocal type name =>
    simp only [Op.scope, Scope.reserve?]
    split <;> exact ⟨Nat.le_refl _, Nat.le_refl _⟩
  | freshName | newTemp type init => exact ⟨Nat.le_succ _, Nat.le_refl _⟩
  | freshLabel => exact ⟨Nat.le_refl _, Nat.le_succ _⟩
  | _ => exact ⟨Nat.le_refl _, Nat.le_refl _⟩

/-- A name that an operation does not hand out is a variable behind it by what the operation tells, or
    as it was in front of it. -/
theorem isLocal_step {op : Op} {name : String} (other : m.name? op ≠ some name) :
    (op.scope m.scope).isLocal name = (op.tells? name).getD (m.isLocal name) := by
  have learned (type : JavaType) (told : String) :
      ((m.scope.reserve? told type).getD m.scope).isLocal name =
        (if told = name then some true else none : Option Bool).getD (m.scope.isLocal name) := by
    cases reserved : m.scope.reserve? told type with
    | none =>
      have known : m.scope.isLocal told = true := by
        unfold Scope.reserve? at reserved
        split at reserved
        · assumption
        · cases reserved
      by_cases same : told = name
      · subst same
        simp [known]
      · simp [same]
    | some scope =>
      rw [Option.getD_some, Scope.isLocal_of_reserve? reserved]
      by_cases same : told = name <;> simp [same]
  cases op with
  | declareLocal type told init | learnLocal type told => exact learned type told
  | forgetLocal told =>
    show (m.scope.locals.erase told).contains name = _
    rw [Locals.contains_erase_eq, Op.tells?]
    by_cases same : told = name
    · simp [same]
    · simp [same, bne_iff_ne.mpr same, isLocal, Scope.isLocal]
  | newTemp type init =>
    have apart : tempName (m.scope.temps + 1) ≠ name := fun same => other (congrArg some same)
    show (m.scope.locals.insert (tempName (m.scope.temps + 1)) type).contains name = _
    rw [Locals.contains_insert_eq, beq_eq_false_iff_ne.mpr apart, Bool.false_or]
    rfl
  | _ => rfl

end

/-! ## Any number of operations -/

variable {m : MethodDraft} {ops : List Op} {name label : String}

theorem supply_run (m : MethodDraft) (ops : List Op) :
    m.scope.temps ≤ (m.run ops).scope.temps ∧ m.scope.labels ≤ (m.run ops).scope.labels := by
  induction ops generalizing m with
  | nil => exact ⟨Nat.le_refl _, Nat.le_refl _⟩
  | cons op rest ih =>
    obtain ⟨temps, labels⟩ := m.supply_step op
    obtain ⟨laterTemps, laterLabels⟩ := ih (m.step op)
    exact ⟨Nat.le_trans temps laterTemps, Nat.le_trans labels laterLabels⟩

/-- The names handed out are numbered from the supply's number in front of the operations, up to that
    behind them. -/
theorem numbered_of_mem_names (mem : name ∈ m.names ops) :
    ∃ n, m.scope.temps < n ∧ n ≤ (m.run ops).scope.temps ∧ name = tempName n := by
  induction ops generalizing m with
  | nil => simp [names] at mem
  | cons op rest ih =>
    rcases List.mem_append.mp mem with first | later
    · obtain ⟨same, next⟩ := m.name?_eq op name (Option.mem_toList.mp first)
      rw [← scope_step] at next
      have upper := (supply_run (m.step op) rest).1
      exact ⟨m.scope.temps + 1, Nat.lt_succ_self _, next ▸ upper, same⟩
    · obtain ⟨n, lower, upper, same⟩ := ih later
      exact ⟨n, Nat.lt_of_le_of_lt (m.supply_step op).1 lower, upper, same⟩

theorem numbered_of_mem_labels (mem : label ∈ m.labels ops) :
    ∃ n, m.scope.labels < n ∧ n ≤ (m.run ops).scope.labels ∧ label = labelName n := by
  induction ops generalizing m with
  | nil => simp [labels] at mem
  | cons op rest ih =>
    rcases List.mem_append.mp mem with first | later
    · obtain ⟨same, next⟩ := m.label?_eq op label (Option.mem_toList.mp first)
      rw [← scope_step] at next
      have upper := (supply_run (m.step op) rest).2
      exact ⟨m.scope.labels + 1, Nat.lt_succ_self _, next ▸ upper, same⟩
    · obtain ⟨n, lower, upper, same⟩ := ih later
      exact ⟨n, Nat.lt_of_le_of_lt (m.supply_step op).2 lower, upper, same⟩

/-- A name that was not handed out is a variable by what the draft was told. -/
theorem isLocal_run (unused : name ∉ m.names ops) :
    (m.run ops).isLocal name = given (m.isLocal name) ops name := by
  induction ops generalizing m with
  | nil => rfl
  | cons op rest ih =>
    obtain ⟨first, later⟩ := not_or.mp (mt List.mem_append.mpr unused)
    have told := m.isLocal_step (mt Option.mem_toList.mpr first)
    rw [← scope_step] at told
    calc (m.run (op :: rest)).isLocal name
      _ = given ((m.step op).isLocal name) rest name := ih later
      _ = given ((op.tells? name).getD (m.isLocal name)) rest name :=
        congrArg (given · rest name) told
      _ = given (m.isLocal name) (op :: rest) name := rfl

/-- Whatever was done to a draft before: a name for a temporary is none that the draft handed out, and
    is a variable only if the draft was told so; if it is none, the variables that are known stay what
    they are. A label is none that the draft handed out. -/
theorem names_new_unless_given (signature : Signature) (indent : Nat) (before : List Op) (op : Op) :
    let start := ofSignature signature indent
    let m := start.run before
    (∀ name, m.name? op = some name →
      name ∉ start.names before ∧
      m.isLocal name = given (signature.params.any (·.name == name)) before name ∧
      (m.isLocal name = false → ∀ known, m.isLocal known = true →
        name ≠ known ∧ (m.step op).localType? known = m.localType? known)) ∧
    ∀ label, m.label? op = some label → label ∉ start.labels before := by
  intro start m
  refine ⟨fun name handed => ?_, fun label handed mem => ?_⟩
  · obtain ⟨numbered, -⟩ := m.name?_eq op name handed
    have unused : name ∉ start.names before := by
      intro mem
      obtain ⟨n, -, upper, same⟩ := numbered_of_mem_names mem
      have := tempName_inj (numbered.symm.trans same)
      change n ≤ m.scope.temps at upper
      omega
    refine ⟨unused, ?_, fun unknown known isKnown => ?_⟩
    · rw [isLocal_run unused]
      show given ((Scope.ofParams signature.params).isLocal name) before name = _
      rw [Scope.isLocal_ofParams]
    · have apart : name ≠ known := by
        rintro rfl
        exact Bool.false_ne_true (unknown.symm.trans isKnown)
      refine ⟨apart, ?_⟩
      unfold localType?
      rw [scope_step]
      cases op with
      | newTemp type init =>
        have other : tempName (m.scope.temps + 1) ≠ known := numbered ▸ apart
        simp [Op.scope, Scope.freshTemp, Scope.freshName, Locals.type?_insert, other]
      | freshName => rfl
      | _ => cases handed
  · obtain ⟨numbered, -⟩ := m.label?_eq op label handed
    obtain ⟨n, -, upper, same⟩ := numbered_of_mem_labels mem
    have := labelName_inj (numbered.symm.trans same)
    change n ≤ m.scope.labels at upper
    omega

/-- A parameter with the name of the first temporary: the name is handed out all the same. -/
theorem first_temporary_given :
    let start := ofSignature ⟨"run", .member, .void, [⟨"temp$1", .int⟩], []⟩ 2
    (start.run [.start]).name? (.newTemp .boolean none) = some "temp$1" ∧
      "temp$1" ∉ start.names [.start] ∧ (start.run [.start]).isLocal "temp$1" = true := by
  intro start
  have handed : (start.run [.start]).name? (.newTemp .boolean none) = some "temp$1" := by decide
  obtain ⟨unused, isGiven, -⟩ :=
    (names_new_unless_given ⟨"run", .member, .void, [⟨"temp$1", .int⟩], []⟩ 2 [.start]
      (.newTemp .boolean none)).1 "temp$1" handed
  exact ⟨handed, unused, isGiven.trans (by decide)⟩

end JavaBackend.MethodDraft
