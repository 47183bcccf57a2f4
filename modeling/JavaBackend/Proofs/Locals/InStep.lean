import JavaBackend.Proofs.Locals.Scope
import JavaBackend.Proofs.Words.Lowering

/-!
# Code and walks

`InStep` says that code and a walk come to the same: the walk fails if and only if the code assigns to
a variable that is not visible, and its names stand for what the method knows and for what is visible
behind the code (`Names.Stands`). What a block declares is in scope up to its end, while the method goes
on knowing the name.
-/

namespace JavaBackend

open Java (Stmt Code Expr Sink Handler Test)
open Java.Stmt

/-! ## Walks -/

namespace Walk

@[simp]
theorem andThen_skip (first : Walk) : first.andThen skip = first := by
  funext names
  simp [andThen, skip]

theorem skip_andThen (second : Walk) : skip.andThen second = second := by
  funext names
  simp [andThen, skip]

theorem andThen_assoc (first second third : Walk) :
    (first.andThen second).andThen third = first.andThen (second.andThen third) := by
  funext names
  simp [andThen, Bool.and_assoc]

@[simp]
theorem block_skip : skip.block = skip := rfl

@[simp]
theorem each_singleton {α : Type} (go : α → Walk) (part : α) : each go [part] = go part :=
  andThen_skip _

theorem each_append {α : Type} (go : α → Walk) (parts more : List α) :
    each go (parts ++ more) = (each go parts).andThen (each go more) := by
  induction parts with
  | nil => exact (skip_andThen _).symm
  | cons part rest ih => rw [List.cons_append, each, each, ih, andThen_assoc]

/-- A block at the end of another one. -/
theorem block_andThen_block (first second : Walk) :
    (first.andThen second.block).block = (first.andThen second).block := rfl

/-- A part that changes no names needs no block. -/
theorem block_apply_eq {body : Walk} {names : Names} (same : (body names).1 = names) :
    body.block names = body names := by
  rw [block, same]
  exact Prod.ext same.symm rfl

theorem binding_unknown {names : Names} {name : String} (unknown : names.isKnown name = false)
    (body : Walk) : binding name body names = (within name body).block names := by
  simp [binding, unknown]

theorem binding_known {names : Names} {name : String} (known : names.isKnown name = true)
    (body : Walk) : binding name body names = ((assign name).andThen body).block names := by
  simp [binding, known]

end Walk

theorem Loop.walk_apply (spec : Loop Tree) (names : Names) {held : Bool}
    (decided : (!spec.cond.isExpression (Walk.each Tree.walk spec.init.toList names).1.isKnown) = held) :
    spec.walk Tree.walk id names =
      (Walk.each Tree.walk spec.init.toList).andThen (spec.walkRounds Tree.walk held) names := by
  rw [← decided]
  rfl

theorem ForEach.walk_unknown (spec : ForEach Tree) (names : Names)
    (unknown : (spec.iterable.walk names).1.isKnown spec.var = false) :
    spec.walk Tree.walk names = spec.iterable.walk.andThen
      (Walk.within spec.var (Walk.each Tree.walk spec.body.toList)).block names := by
  rw [ForEach.walk, Walk.andThen, Walk.binding_unknown unknown]
  rfl

theorem ForEach.walk_known (spec : ForEach Tree) (names : Names)
    (known : (spec.iterable.walk names).1.isKnown spec.var = true) :
    spec.walk Tree.walk names = spec.iterable.walk.andThen
      ((Walk.assign spec.var).andThen (Walk.each Tree.walk spec.body.toList)).block names := by
  rw [ForEach.walk, Walk.andThen, Walk.binding_known known]
  rfl

/-- Operations over operands that change no names change none. -/
theorem Walk.each_unchanged {names : Names} {trees : List Tree}
    (same : ∀ tree ∈ trees, (tree.walk names).1 = names) :
    (Walk.each Tree.walk trees names).1 = names := by
  induction trees with
  | nil => rfl
  | cons tree rest ih =>
    obtain ⟨first, others⟩ := List.forall_mem_cons.mp same
    show (Walk.each Tree.walk rest (tree.walk names).1).1 = names
    rw [first]
    exact ih others

/-- A node whose parts change no names, and that assigns to known names only, changes none. -/
theorem Kind.walk_unchanged {names : Names} {kind : Kind Tree}
    (operation : kind.isOperation = true)
    (known : ∀ name ∈ kind.assigned?, names.isKnown name = true)
    (same : ∀ tree ∈ kind.children, (tree.walk names).1 = names) :
    (kind.walk Tree.walk id names).1 = names := by
  have all := Walk.each_unchanged same
  cases kind with
  | assign name value =>
    have value := same value List.mem_cons_self
    simp only [walk, Walk.andThen, value, Walk.assign, known name rfl, if_true]
  | binary op left right =>
    have left := same left List.mem_cons_self
    have right := same right (List.mem_cons_of_mem _ List.mem_cons_self)
    simp only [walk, Walk.andThen, left]
    split
    · rw [Walk.block_apply_eq right, right]
    · exact right
  | cond test yes no =>
    simp only [children, List.forall_mem_cons, List.forall_mem_append] at same
    obtain ⟨test, yes, no⟩ := same
    have first := Walk.each_unchanged yes
    have second := Walk.each_unchanged no
    simp only [walk, Walk.andThen, test, Walk.block_apply_eq first, first,
      Walk.block_apply_eq second, second]
  | loop | forEach | rescue | ensure => cases operation
  | _ => exact all

/-- An expression declares nothing. -/
theorem Tree.walk_unchanged {names : Names} {tree : Tree}
    (expression : tree.isExpression names.isKnown = true) : (tree.walk names).1 = names := by
  revert expression
  refine Tree.induction (motive := fun tree =>
    tree.isExpression names.isKnown = true → (tree.walk names).1 = names) ?_ tree
  intro kind type ih expression
  obtain ⟨operation, known, parts⟩ := Kind.isExpression_iff.mp expression
  rw [Tree.walk_node]
  exact Kind.walk_unchanged operation known fun tree mem => ih tree mem (parts tree mem)

theorem Kind.walk_of_isValue {kind : Kind Tree} (value : kind.isValue = true) :
    kind.walk Tree.walk id = Walk.each Tree.walk kind.children := by
  cases kind with
  | binary op left right =>
    have plain : op.isLogical = false := by simpa [isValue] using value
    simp only [walk, children, Walk.each, Walk.andThen_skip, plain, Bool.false_eq_true, if_false]
  | assign | cond | loop | forEach | rescue | ensure => cases value
  | _ => rfl

/-! ## Words -/

/-- The name is one that a program chooses, if the word is a variable. -/
def Word.Own : Word → Prop
  | .var name => isOwn name = true
  | _ => True

/-- The name is one of a temporary, if the word is a variable. -/
def Word.Hidden : Word → Prop
  | .var name => isOwn name = false
  | _ => True

theorem hidden_nextTemp (p : Progress) : isOwn p.nextTemp = false := isOwn_tempName _

/-- Nothing that a destination stores into is looked at. -/
theorem seen_sink {sink : Sink} (hidden : OverAll Word.Hidden sink.words)
    (visible assigned : List String) :
    seen visible (sink.assigned ++ assigned) = seen visible assigned := by
  cases sink with
  | into name => exact seen_hidden (hidden _ List.mem_cons_self)
  | _ => rfl

theorem codeInScope_put {visible : List String} {dest : Destination} {expr : Expr}
    (hidden : OverAll Word.Hidden dest.words) (plain : expr.assigned = []) :
    codeInScope visible (dest.put expr) = true := by
  cases dest with
  | discard => rfl
  | store sink =>
    rw [Destination.words_store] at hidden
    show (seen visible (sink.assigned ++ expr.assigned) && true) = true
    rw [seen_sink hidden, plain, seen_nil, Bool.and_true]

@[simp]
theorem codeDeclares_put (dest : Destination) (expr : Expr) : codeDeclares (dest.put expr) = [] := by
  cases dest <;> rfl

@[simp]
theorem declares_putEffect (dest : Destination) (expr : Expr) : (dest.putEffect expr).declares = [] := by
  cases dest <;> rfl

theorem inScope_putEffect {visible : List String} {dest : Destination}
    (hidden : OverAll Word.Hidden dest.words) (expr : Expr) :
    (dest.putEffect expr).inScope visible = seen visible expr.assigned := by
  cases dest with
  | discard => rfl
  | store sink =>
    rw [Destination.words_store] at hidden
    exact seen_sink hidden _ _

/-! ## Places -/

/-- The names stand for a place: of the own names, the method knows the ones that are known, and the
    visible ones are visible. -/
structure Names.Stands (names : Names) (p : Progress) (visible : List String) : Prop where
  known : ∀ name, isOwn name = true → names.isKnown name = p.scope.isLocal name
  visible : ∀ name, isOwn name = true → (name ∈ names.visible ↔ name ∈ visible)

theorem Locals.contains_insert_eq (locals : Locals) (inserted name : String) (type : JavaType) :
    (locals.insert inserted type).contains name = (inserted == name || locals.contains name) := by
  unfold Locals.contains
  rw [Locals.type?_insert]
  by_cases same : inserted = name <;> simp [same]

theorem Locals.contains_erase_eq (locals : Locals) (erased name : String) :
    (locals.erase erased).contains name = (erased != name && locals.contains name) := by
  unfold Locals.contains
  rw [Locals.type?_erase]
  by_cases same : erased = name <;> simp [same]

theorem Scope.isLocal_of_reserve? {scope scope' : Scope} {name : String} {type : JavaType}
    (reserved : scope.reserve? name type = some scope') (other : String) :
    scope'.isLocal other = (name == other || scope.isLocal other) := by
  unfold Scope.reserve? at reserved
  split at reserved <;> cases reserved
  exact Locals.contains_insert_eq _ _ _ _

theorem Scope.unknown_of_reserve? {scope scope' : Scope} {name : String} {type : JavaType}
    (reserved : scope.reserve? name type = some scope') : scope.isLocal name = false := by
  unfold Scope.reserve? at reserved
  split at reserved
  · cases reserved
  · next unknown => exact Bool.eq_false_iff.mpr unknown

theorem Scope.reserve?_of_unknown {scope : Scope} {name : String} (unknown : scope.isLocal name = false)
    (type : JavaType) :
    scope.reserve? name type = some { scope with locals := scope.locals.insert name type } := by
  simp [Scope.reserve?, unknown]

@[simp]
theorem Progress.scope_useField (p : Progress) (use : FieldUse) : (p.useField use).scope = p.scope := by
  unfold Progress.useField
  split <;> rfl

namespace Names.Stands

variable {names inside : Names} {p q : Progress} {visible around : List String}

/-- A name that nothing looks at may be visible, too. -/
theorem hide (stands : names.Stands p visible) {name : String} (hidden : isOwn name = false)
    (among : ∀ other, other ∈ around ↔ other = name ∨ other ∈ visible) : names.Stands p around where
  known := stands.known
  visible other own := by
    have differs : other ≠ name := by
      rintro rfl
      simp [hidden] at own
    rw [among, stands.visible other own, or_iff_right differs]

theorem takeTemp (stands : names.Stands p visible) (type : JavaType) :
    names.Stands (p.takeTemp type) visible where
  known name own := by
    have differs : (tempName (p.scope.temps + 1) == name) = false := by
      rw [beq_eq_false_iff_ne]
      rintro rfl
      simp [isOwn_tempName] at own
    show _ = (Locals.insert _ _ _).contains name
    rw [Locals.contains_insert_eq, differs, Bool.false_or]
    exact stands.known name own
  visible := stands.visible

theorem takeName (stands : names.Stands p visible) : names.Stands p.takeName visible :=
  ⟨stands.known, stands.visible⟩

theorem takeLabels (stands : names.Stands p visible) : names.Stands p.takeLabels visible :=
  ⟨stands.known, stands.visible⟩

theorem useField (stands : names.Stands p visible) (use : FieldUse) :
    names.Stands (p.useField use) visible := by
  unfold Progress.useField
  split <;> exact ⟨stands.known, stands.visible⟩

/-- The declaration of a new variable. -/
theorem declare (stands : names.Stands p visible) {name : String} {type : JavaType} {scope : Scope}
    (reserved : p.scope.reserve? name type = some scope)
    (among : ∀ other, other ∈ around ↔ other = name ∨ other ∈ visible) :
    (⟨name :: names.known, name :: names.visible⟩ : Names).Stands { p with scope := scope } around where
  known other own := by
    have before : names.known.contains other = p.scope.isLocal other := stands.known other own
    rw [Scope.isLocal_of_reserve? reserved, ← before, isKnown, List.contains_cons, BEq.comm]
  visible other own := by
    rw [among, ← stands.visible other own, List.mem_cons]

/-- Behind a block the names that it declares are visible no more, but they are known. -/
theorem close (stands : names.Stands p visible) (closed : inside.Stands q around) :
    (⟨inside.known, names.visible⟩ : Names).Stands q visible :=
  ⟨closed.known, stands.visible⟩

/-- The variable of a block is forgotten behind it. -/
theorem leave (stands : inside.Stands q visible) {binding : Param}
    (unknown : p.scope.isLocal binding.name = false) :
    (⟨inside.known.filter (· ≠ binding.name), inside.visible⟩ : Names).Stands
      (p.leave (some binding) q) visible := by
  obtain ⟨name, type⟩ := binding
  refine ⟨fun other own => ?_, stands.visible⟩
  have before : inside.known.contains other = q.scope.isLocal other := stands.known other own
  simp only [Progress.leave, Scope.reserve?_of_unknown unknown]
  show _ = (Locals.erase _ _).contains other
  rw [Locals.contains_erase_eq]
  show _ = (_ && q.scope.isLocal other)
  rw [← before]
  by_cases same : other = name
  · simp [isKnown, same]
  · simp [isKnown, same, Ne.symm same]

theorem isExpression_eq (stands : names.Stands p visible) {tree : Tree} (own : tree.Over Word.Own) :
    tree.isExpression names.isKnown = tree.isExpression p.scope.isLocal := by
  refine Tree.isExpression_congr (own.mono fun kind _ words name found => stands.known name ?_)
  cases kind with
  | assign assigned _ =>
    cases found
    exact words.2 _ List.mem_cons_self
  | _ => cases found

end Names.Stands

/-! ## Tasks -/

/-- Going through the trees of a task. -/
def Task.walk : Task → Walk
  | .own kind type => (Tree.node kind type).walk
  | .operand _ tree | .temp tree | .freshTemp tree | .kept tree | .statement tree _ => tree.walk
  | .operands _ trees | .effects trees | .seq trees _ _ => .each Tree.walk trees
  | .maybe tree _ | .arm tree _ _ => .each Tree.walk tree.toList
  | .receiver target => .each Tree.walk target.toList
  | .guarded body otherwise _ _ =>
    (Walk.each Tree.walk body.toList).andThen (Walk.each Tree.walk otherwise.toList)
  | .clauses handled _ _ => .each (RescueClause.walk Tree.walk) handled
  | .handlers types name _ body _ _ =>
    .each (fun _ => .handler name (.each Tree.walk body.toList)) types
  | .loop spec => spec.walk Tree.walk id
  | .forEach spec => spec.walk Tree.walk
  | .pass spec _ _ held => spec.walkPass Tree.walk held.isSome
  | .labeledBody body _ _ => (Walk.each Tree.walk body.toList).block
  | .within none task => task.walk
  | .within (some binding) task => .within binding.name task.walk

/-- What is visible in the code of a task, given what is visible where it is put. -/
def Task.around (visible : List String) : Task → List String
  | .within none task => task.around visible
  | .within (some binding) _ => binding.name :: visible
  | _ => visible

/-- The tasks that fill a block. -/
def Task.isBody : Task → Bool
  | .maybe _ _ | .arm _ _ _ | .labeledBody _ _ _ => true
  | _ => false

/-- What a task takes for granted about the names that are known where it starts. -/
def Task.Ready (isLocal : String → Bool) : Task → Prop
  | .own kind type => (Tree.node kind type).isInline isLocal = true
  | .handlers _ name known _ _ _ => ∀ bound ∈ name, isLocal bound = known
  | .within none task => task.Ready isLocal
  | .within (some binding) task => isLocal binding.name = false ∧ task.isBody = true
  | _ => True

theorem Task.around_of_isBody {task : Task} (body : task.isBody = true) (visible : List String) :
    task.around visible = visible := by
  cases task with
  | within => cases body
  | _ => rfl

theorem Task.ready_of_isBody {task : Task} (body : task.isBody = true) (isLocal : String → Bool) :
    task.Ready isLocal := by
  cases task with
  | maybe | arm | labeledBody => trivial
  | _ => cases body

theorem Lowers.done_of_isBody {ctx : Context} {p p' : Progress} {task : Task} {code : Code}
    {yield : Yield} (lowers : Lowers ctx p task code yield p') (body : task.isBody = true) :
    yield = .done := by
  cases lowers with
  | maybeNone | maybeSome | armNone | armSome | labeledBody => rfl
  | _ => cases body

namespace Yield

/-- The names that are assigned to where the yield is used. -/
def assigned : Yield → List String
  | .value expr => expr.assigned
  | .values exprs => Expr.assignedAll exprs
  | .done | .handlers _ => []

/-- Whether the yield may be used where these names are visible. -/
def inScope (visible : List String) : Yield → Bool
  | .handlers added => handlersInScope visible added
  | yield => seen visible yield.assigned

section

variable {visible : List String}

@[simp]
theorem inScope_done : inScope visible .done = true := rfl

@[simp]
theorem inScope_value (expr : Expr) : inScope visible (.value expr) = seen visible expr.assigned := rfl

@[simp]
theorem inScope_values (exprs : List Expr) :
    inScope visible (.values exprs) = seen visible (Expr.assignedAll exprs) := rfl

@[simp]
theorem inScope_handlers (added : List (Handler Code)) :
    inScope visible (.handlers added) = handlersInScope visible added := rfl

end

end Yield

/-- The code of a task and the walk through its trees come to the same. -/
structure InStep (p : Progress) (visible : List String) (code : Code) (yield : Yield) (p' : Progress)
    (out : Names × Bool) : Prop where
  behind : out.1.Stands p' (visible ++ codeDeclares code)
  checked : (codeInScope visible code && yield.inScope (visible ++ codeDeclares code)) = out.2
  /-- Only unknown names are declared. -/
  fresh : ∀ name ∈ codeDeclares code, isOwn name = true → p.scope.isLocal name = false
  /-- Only known names are assigned to by an expression. -/
  assigned : ∀ name ∈ yield.assigned, isOwn name = true → p'.scope.isLocal name = true
  grows : p'.Knows p.scope.isLocal

namespace InStep

variable {p q p' : Progress} {visible around : List String} {code more : Code}
  {yield given : Yield} {names names' : Names} {out out' : Names × Bool} {ok : Bool}

/-- Code that declares nothing. -/
theorem plain (stands : names.Stands p visible) (undeclared : codeDeclares code = [])
    (checked : codeInScope visible code = ok) : InStep p visible code .done p (names, ok) where
  behind := by rwa [undeclared, List.append_nil]
  checked := by rw [checked]; exact Bool.and_true _
  fresh := by simp [undeclared]
  assigned := List.forall_mem_nil _
  grows _ known := known

/-- The start may be any place with the same variables. -/
theorem startAt (inStep : InStep p visible code yield p' out) (start : Progress)
    (same : p.scope.isLocal = start.scope.isLocal) : InStep start visible code yield p' out :=
  ⟨inStep.behind, inStep.checked, same ▸ inStep.fresh, inStep.assigned, same ▸ inStep.grows⟩

/-- No code at all. -/
theorem nil (stands : names.Stands p visible) (checked : yield.inScope visible = true)
    (unassigned : yield.assigned = []) : InStep p visible [] yield p (names, true) where
  behind := by rwa [codeDeclares_nil, List.append_nil]
  checked := by rw [codeDeclares_nil, List.append_nil, checked]; rfl
  fresh := List.forall_mem_nil _
  assigned := by simp [unassigned]
  grows _ known := known

theorem done (stands : names.Stands p visible) : InStep p visible [] .done p (names, true) :=
  nil stands rfl rfl

/-- Another yield that assigns to the same names. -/
theorem give (inStep : InStep p visible code yield p' out)
    (checked : ∀ visible, given.inScope visible = yield.inScope visible)
    (assigned : ∀ name ∈ given.assigned, name ∈ yield.assigned) :
    InStep p visible code given p' out where
  behind := inStep.behind
  checked := by rw [checked, inStep.checked]
  fresh := inStep.fresh
  assigned name mem := inStep.assigned name (assigned name mem)
  grows := inStep.grows

/-- A variable in the place of nothing. -/
theorem giveVar (inStep : InStep p visible code .done p' out) (name : String) :
    InStep p visible code (.value (.var name)) p' out :=
  inStep.give (fun _ => rfl) (List.forall_mem_nil _)

/-- What is declared behind the code is unknown in front of it. -/
theorem fresh_append (front : InStep p visible code yield q out)
    (behind : InStep q around more given p' out') :
    ∀ name ∈ codeDeclares (code ++ more), isOwn name = true → p.scope.isLocal name = false := by
  intro name mem own
  rw [codeDeclares_append, List.mem_append] at mem
  rcases mem with mem | mem
  · exact front.fresh name mem own
  · have unknown := behind.fresh name mem own
    rw [Bool.eq_false_iff] at unknown ⊢
    exact fun known => unknown (front.grows name known)

/-- Code behind other code that uses what that gives. -/
theorem append (front : InStep p visible code yield q out)
    (behind : InStep q (visible ++ codeDeclares code) more given p'
      (names', yield.inScope (visible ++ codeDeclares code) && ok)) :
    InStep p visible (code ++ more) given p' (names', out.2 && ok) where
  behind := by simpa using behind.behind
  checked := by
    have first := front.checked
    have second := behind.checked
    rw [codeInScope_append, codeDeclares_append, ← List.append_assoc, Bool.and_assoc, second,
      ← Bool.and_assoc, first]
  fresh := front.fresh_append behind
  assigned := behind.assigned
  grows name known := behind.grows name (front.grows name known)

theorem andThen (front : InStep p visible code .done q out)
    (behind : InStep q (visible ++ codeDeclares code) more given p' out') :
    InStep p visible (code ++ more) given p' (out'.1, out.2 && out'.2) :=
  front.append behind

/-- The same, if nothing but the yield is to be checked. -/
theorem appendUse (front : InStep p visible code yield q out)
    (behind : InStep q (visible ++ codeDeclares code) more given p'
      (names', yield.inScope (visible ++ codeDeclares code))) :
    InStep p visible (code ++ more) given p' (names', out.2) := by
  rw [← Bool.and_true (yield.inScope _)] at behind
  have all := front.append behind
  rwa [Bool.and_true] at all

/-- Code that declares nothing behind other code, whose yield it uses. -/
theorem use (front : InStep p visible code yield p' out) (undeclared : codeDeclares more = [])
    (checked : codeInScope (visible ++ codeDeclares code) more =
      yield.inScope (visible ++ codeDeclares code)) :
    InStep p visible (code ++ more) .done p' out :=
  front.appendUse (plain front.behind undeclared checked)

theorem useStmt {stmt : Stmt} (front : InStep p visible code yield p' out)
    (undeclared : stmt.declares = [])
    (checked : stmt.inScope (visible ++ codeDeclares code) =
      yield.inScope (visible ++ codeDeclares code)) :
    InStep p visible (code ++ [stmt]) .done p' out :=
  front.use (by simp [undeclared]) (by simp [checked])

/-- A value that assigns nothing is put where it belongs. -/
theorem put {dest : Destination} {expr : Expr} (front : InStep p visible code .done p' out)
    (hidden : OverAll Word.Hidden dest.words) (unassigned : expr.assigned = []) :
    InStep p visible (code ++ dest.put expr) .done p' out :=
  front.use (codeDeclares_put dest expr) (codeInScope_put hidden unassigned)

theorem usePut {stmt : Stmt} {dest : Destination} {expr : Expr}
    (front : InStep p visible code yield p' out) (undeclared : stmt.declares = [])
    (checked : stmt.inScope (visible ++ codeDeclares code) =
      yield.inScope (visible ++ codeDeclares code))
    (hidden : OverAll Word.Hidden dest.words) (unassigned : expr.assigned = []) :
    InStep p visible (code ++ stmt :: dest.put expr) .done p' out := by
  have stored := (front.useStmt undeclared checked).put hidden unassigned
  rwa [List.append_assoc, List.singleton_append] at stored

/-- What an expression assigns to is not declared behind it. -/
theorem seen_behind (front : InStep p visible code yield q out)
    (behind : InStep q around more given p' out') :
    seen (visible ++ codeDeclares code ++ codeDeclares more) yield.assigned =
      seen (visible ++ codeDeclares code) yield.assigned := by
  refine seen_congr fun name mem own => ?_
  have undeclared : name ∉ codeDeclares more := fun declared => by
    have known := front.assigned name mem own
    rw [behind.fresh name declared own] at known
    cases known
  simp [undeclared]

/-- Values of which the later ones leave the earlier ones as they are. -/
theorem both {exprs others : List Expr} (front : InStep p visible code (.values exprs) q out)
    (behind : InStep q (visible ++ codeDeclares code) more (.values others) p' out') :
    InStep p visible (code ++ more) (.values (exprs ++ others)) p' (out'.1, out.2 && out'.2) where
  behind := by simpa using behind.behind
  checked := by
    have kept := front.seen_behind behind
    have first := front.checked
    have second := behind.checked
    simp only [Yield.inScope_values, Yield.assigned] at kept first second ⊢
    rw [codeInScope_append, codeDeclares_append, ← List.append_assoc, Expr.assignedAll_append,
      seen_append, kept, ← first, ← second]
    ac_rfl
  fresh := front.fresh_append behind
  assigned name mem own := by
    rw [Yield.assigned, Expr.assignedAll_append, List.mem_append] at mem
    rcases mem with mem | mem
    · exact behind.grows name (front.assigned name mem own)
    · exact behind.assigned name mem own
  grows name known := behind.grows name (front.grows name known)

/-! Declarations -/

theorem declareTemp (stands : names.Stands p visible) (type : JavaType) (init : Expr) :
    InStep p visible [p.declareTemp type init] .done (p.takeTemp type)
      (names, seen visible init.assigned) where
  behind := (stands.takeTemp type).hide (hidden_nextTemp p) (by simp [Progress.declareTemp, or_comm])
  checked := by simp [Progress.declareTemp]
  fresh name mem own := by
    have declared : name = p.nextTemp := by simpa [Progress.declareTemp] using mem
    rw [declared, hidden_nextTemp] at own
    cases own
  assigned := List.forall_mem_nil _
  grows := Progress.Knows.takeTemp (fun _ known => known) type

theorem declareFlag (stands : names.Stands p visible) :
    InStep p visible [p.declareFlag] .done (p.takeTemp .boolean) (names, true) :=
  declareTemp stands .boolean _

/-- A flag that is declared in front of the code. -/
theorem behindFlag (body : InStep q (visible ++ [p.nextTemp]) code yield p' out)
    (grows : q.Knows p.scope.isLocal) : InStep p visible (p.declareFlag :: code) yield p' out where
  behind := by simpa [Progress.declareFlag, Progress.declareTemp] using body.behind
  checked := by simpa [Progress.declareFlag, Progress.declareTemp] using body.checked
  fresh name mem own := by
    rcases List.mem_cons.mp mem with declared | mem
    · rw [declared, hidden_nextTemp] at own
      cases own
    · have unknown := body.fresh name mem own
      rw [Bool.eq_false_iff] at unknown ⊢
      exact fun known => unknown (grows name known)
  assigned := body.assigned
  grows name known := body.grows name (grows name known)

theorem flagCode (stands : names.Stands p visible) (redo : Bool) :
    InStep p visible (p.flagCode redo) .done (p.takeLabels.takeFlag redo) (names, true) := by
  cases redo with
  | false => exact ⟨(done stands.takeLabels).behind, rfl, List.forall_mem_nil _, List.forall_mem_nil _,
      fun _ known => known⟩
  | true =>
    have declared := declareFlag stands
    exact ⟨declared.behind.takeLabels, declared.checked, declared.fresh, declared.assigned,
      declared.grows⟩

theorem declare (stands : names.Stands p visible) {name : String} {type stored : JavaType} {scope : Scope}
    (reserved : p.scope.reserve? name stored = some scope) (init : Expr) :
    InStep p visible [.declare type name init] .done { p with scope := scope }
      (⟨name :: names.known, name :: names.visible⟩, seen visible init.assigned) where
  behind := stands.declare reserved (by simp [or_comm])
  checked := by simp
  fresh other mem _ := by
    have declared : other = name := by simpa using mem
    rw [declared]
    exact Scope.unknown_of_reserve? reserved
  assigned := List.forall_mem_nil _
  grows := Progress.Knows.reserve (fun _ known => known) reserved

/-- A constant is put where it belongs. -/
theorem storeLiteral (stands : names.Stands p visible) {sink : Sink}
    (hidden : OverAll Word.Hidden sink.words) (value : Literal) :
    InStep p visible [.store sink (.literal value)] .done p (names, true) :=
  plain stands rfl (by simp only [codeInScope, inScope, seen_sink hidden, Expr.assigned, seen_nil,
    Bool.and_true])

/-! Blocks -/

/-- A statement with a block in it. -/
theorem nest {stmt : Stmt} (stands : names.Stands p visible) (body : InStep p around code yield p' out)
    (undeclared : stmt.declares = [])
    (checked : stmt.inScope visible =
      (ok && (codeInScope around code && yield.inScope (around ++ codeDeclares code)))) :
    InStep p visible [stmt] .done p' (⟨out.1.known, names.visible⟩, ok && out.2) where
  behind := by simpa [undeclared] using stands.close body.behind
  checked := by
    rw [body.checked] at checked
    simp [checked]
  fresh := by simp [undeclared]
  assigned := List.forall_mem_nil _
  grows := body.grows

/-- A statement with two blocks in it. -/
theorem nestTwo {stmt : Stmt} (stands : names.Stands p visible)
    (first : InStep p visible code .done q out) (second : InStep q around more yield p' out')
    (undeclared : stmt.declares = [])
    (checked : stmt.inScope visible = (ok && (codeInScope visible code &&
      (codeInScope around more && yield.inScope (around ++ codeDeclares more))))) :
    InStep p visible [stmt] .done p' (⟨out'.1.known, names.visible⟩, ok && (out.2 && out'.2)) where
  behind := by simpa [undeclared] using stands.close second.behind
  checked := by
    have same := first.checked
    rw [Yield.inScope_done, Bool.and_true] at same
    rw [second.checked, same] at checked
    simp [checked]
  fresh := by simp [undeclared]
  assigned := List.forall_mem_nil _
  grows name known := second.grows name (first.grows name known)

theorem block (stands : names.Stands p visible) (body : InStep p visible code .done p' out) :
    InStep p visible [.block code] .done p' (⟨out.1.known, names.visible⟩, true && out.2) :=
  nest stands body rfl (by simp)

theorem ifThen (test : Test) (stands : names.Stands p visible)
    (yes : InStep p visible code .done p' out) :
    InStep p visible [.ifThen test code] .done p'
      (⟨out.1.known, names.visible⟩, seen visible test.expr.assigned && out.2) :=
  nest stands yes rfl (by simp)

theorem ifElse (test : Test) (stands : names.Stands p visible)
    (yes : InStep p visible code .done q out) (no : InStep q visible more .done p' out') :
    InStep p visible [.ifElse test code more] .done p'
      (⟨out'.1.known, names.visible⟩, seen visible test.expr.assigned && (out.2 && out'.2)) :=
  nestTwo stands yes no rfl (by simp)

theorem loop (checkFirst : Bool) (test : Test) (stands : names.Stands p visible)
    (body : InStep p visible code .done p' out) :
    InStep p visible [loopStmt checkFirst test code] .done p'
      (⟨out.1.known, names.visible⟩, seen visible test.expr.assigned && out.2) := by
  cases checkFirst <;> exact nest stands body rfl (by simp [loopStmt])

theorem labeled (label : String) {stmt : Stmt} (body : InStep p visible [stmt] .done p' out) :
    InStep p visible [.labeled label stmt] .done p' out :=
  ⟨body.behind, body.checked, body.fresh, body.assigned, body.grows⟩

theorem labeledStmt (inner : String) (flag : Option String) (stands : names.Stands p visible)
    (hidden : ∀ name ∈ flag, isOwn name = false) (body : InStep p visible code .done p' out) :
    InStep p visible [labeledStmt inner code flag] .done p' (⟨out.1.known, names.visible⟩, out.2) := by
  cases flag with
  | none => exact labeled inner (block stands body)
  | some name =>
    have sink : OverAll Word.Hidden (Sink.into name).words :=
      OverAll.cons_iff.mpr ⟨hidden name rfl, .nil⟩
    have cleared := storeLiteral stands sink (.bool false)
    have rest : InStep p (visible ++ codeDeclares [.store (.into name) (.literal (.bool false))]) code
        .done p' out := by
      simpa using body
    exact labeled inner (loop false ⟨.var name, false⟩ stands (cleared.andThen rest))

/-- A block under a heading that makes a name visible. -/
theorem forEach (type : JavaType) (name : String) (iterable : Expr) (stands : names.Stands p visible)
    (body : InStep p (name :: visible) code .done p' out) :
    InStep p visible [.forEach type name iterable code] .done p'
      (⟨out.1.known, names.visible⟩, seen visible iterable.assigned && out.2) :=
  nest stands body rfl (by simp)

theorem tryFinally (stands : names.Stands p visible) (body : InStep p visible code .done q out)
    (cleanup : InStep q visible more .done p' out') :
    InStep p visible [.tryFinally code more] .done p'
      (⟨out'.1.known, names.visible⟩, true && (out.2 && out'.2)) :=
  nestTwo stands body cleanup rfl (by simp)

theorem tryCatch {added : List (Handler Code)} (body : InStep p visible code .done q out)
    (handled : InStep q visible [] (.handlers added) p' out') :
    InStep p visible [.tryCatch code added] .done p' (out'.1, out.2 && out'.2) where
  behind := handled.behind
  checked := by
    have first := body.checked
    have second := handled.checked
    simp only [Yield.inScope_done, Yield.inScope_handlers, codeInScope, codeDeclares_nil,
      List.append_nil, Bool.and_true, Bool.true_and] at first second
    simp [first, second]
  fresh := List.forall_mem_nil _
  assigned := List.forall_mem_nil _
  grows name known := handled.grows name (body.grows name known)

/-- A handler in front of others. -/
theorem handler (type : JavaType) (name : String) {added : List (Handler Code)}
    (body : InStep p (name :: visible) code .done q out)
    (others : InStep q visible [] (.handlers added) p' out') :
    InStep p visible [] (.handlers (⟨type, name, code⟩ :: added)) p' (out'.1, out.2 && out'.2) where
  behind := others.behind
  checked := by
    have first := body.checked
    have second := others.checked
    simp only [Yield.inScope_done, Yield.inScope_handlers, codeInScope, codeDeclares_nil,
      List.append_nil, Bool.and_true, Bool.true_and] at first second
    simp [first, second]
  fresh := List.forall_mem_nil _
  assigned := List.forall_mem_nil _
  grows name known := others.grows name (body.grows name known)

/-- The handlers of a clause in front of those of others. -/
theorem handlers {added others : List (Handler Code)} (first : InStep p visible [] (.handlers added) q out)
    (second : InStep q visible [] (.handlers others) p' out') :
    InStep p visible [] (.handlers (added ++ others)) p' (out'.1, out.2 && out'.2) where
  behind := second.behind
  checked := by
    have left := first.checked
    have right := second.checked
    simp only [Yield.inScope_handlers, codeInScope, codeDeclares_nil, List.append_nil,
      Bool.true_and] at left right
    simp [handlersInScope_append, left, right]
  fresh := List.forall_mem_nil _
  assigned := List.forall_mem_nil _
  grows name known := second.grows name (first.grows name known)

end InStep

end JavaBackend
