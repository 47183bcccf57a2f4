import JavaBackend.Source.Arena
import JavaBackend.Proofs.Lowering.Derivation

/-!
# Lowering by positions

The nodes of an arena can be lowered where they are stored, by functions that call each other on positions.
Several of them pass a node on to another one at the same position: `expression` to `renderValue` or to
`spill`, `spill` to `statement`, and `statement` back to `renderValue`. Whether that comes to an end is not
plain, since it depends on the kind of the node and on the variables that are known.

`Call.body` is what each function does, given what the calls that it makes return. In `Call.run` a call gets
an answer only if it is below the call that makes it: at an earlier position, or at the same one in an
earlier phase. Every other call would end in a fault. `Call.run_eq_lowered` says that none is made: each
function returns what the lowering of trees gives, whichever that fault is.
-/

namespace JavaBackend

open Java (Expr)

variable {α β : Type}

theorem Kind.map_congr {f g : α → β} {kind : Kind α} (same : ∀ child ∈ kind.children, f child = g child) :
    kind.map f = kind.map g := by
  cases kind with
  | call receiver _ _ _ => cases receiver <;> simp_all [map, children, Receiver.map, Receiver.toList]
  | cond test yes no =>
    simp only [children, List.forall_mem_cons, List.forall_mem_append, Option.mem_toList] at same
    rw [map, map, same.1, Option.map_congr same.2.1, Option.map_congr same.2.2]
  | loop spec =>
    simp only [children, List.forall_mem_cons, List.forall_mem_append, Option.mem_toList] at same
    obtain ⟨init, cond, ⟨pre, body⟩, post⟩ := same
    rw [map, map, Loop.map, Loop.map, cond, Option.map_congr init, Option.map_congr pre,
      Option.map_congr body, Option.map_congr post]
  | forEach spec =>
    simp only [children, List.forall_mem_cons, Option.mem_toList] at same
    rw [map, map, ForEach.map, ForEach.map, same.1, Option.map_congr same.2]
  | ret _ | print _ _ =>
    simp only [children, Option.mem_toList] at same
    rw [map, map, Option.map_congr same]
  | rescue body clauses otherwise =>
    simp only [children, List.forall_mem_append, Option.mem_toList] at same
    have handled : ∀ clause ∈ clauses, clause.map f = clause.map g := fun clause mem => by
      have body := Option.map_congr fun child found =>
        same.1.2 child (List.mem_filterMap.mpr ⟨clause, mem, found⟩)
      rw [RescueClause.map, RescueClause.map, body]
    rw [map, map, Option.map_congr same.1.1, Option.map_congr same.2, List.map_congr_left handled]
  | _ => simp_all [map, children]

namespace Arena

variable (arena : Arena)

/-- The node at a position. -/
def entry (id : Nat) : Entry := arena.entries.getD id ⟨.literal .null, .void⟩

/-- The tree at a position. -/
def tree (id : Nat) : Tree := arena.trees.getD id missing

/-- A node refers to earlier positions. -/
theorem lt_of_mem_children {id child : Nat} (mem : child ∈ (arena.entry id).kind.children) :
    child < id := by
  unfold entry at mem
  rw [Array.getD_eq_getD_getElem?] at mem
  by_cases inside : id < arena.entries.size
  · rw [Array.getElem?_eq_getElem inside] at mem
    exact arena.earlier id inside child mem
  · rw [Array.getElem?_eq_none (Nat.le_of_not_lt inside)] at mem
    cases mem

/-- The trees at the first positions: each is the node at its position over the trees that this refers to. -/
def Stores (n : Nat) (trees : Array Tree) : Prop :=
  trees.size = n ∧ ∀ id < n, trees.getD id missing =
    .node ((arena.entry id).kind.map fun child => trees.getD child missing) (arena.entry id).type

/-- A tree that is added leaves those in front as they are. -/
theorem getD_push {trees : Array Tree} {tree : Tree} {id : Nat} (front : id < trees.size) :
    (trees.push tree).getD id missing = trees.getD id missing := by
  rw [Array.getD_eq_getD_getElem?, Array.getElem?_push, if_neg (Nat.ne_of_lt front),
    Array.getD_eq_getD_getElem?]

theorem Stores.push {n : Nat} {trees : Array Tree} (stores : arena.Stores n trees) :
    arena.Stores (n + 1) (trees.push (.node ((arena.entry n).kind.map fun child =>
      trees.getD child missing) (arena.entry n).type)) := by
  obtain ⟨rfl, stored⟩ := stores
  refine ⟨Array.size_push _, fun id bound => ?_⟩
  have front : ∀ child ∈ (arena.entry id).kind.children, child < trees.size := fun child mem =>
    Nat.lt_of_lt_of_le (arena.lt_of_mem_children mem) (Nat.le_of_lt_succ bound)
  rw [Kind.map_congr fun child mem => getD_push (front child mem)]
  rcases Nat.lt_succ_iff_lt_or_eq.mp bound with front | rfl
  · rw [getD_push front, stored id front]
  · rw [Array.getD_eq_getD_getElem?, Array.getElem?_push_size, Option.getD_some]

theorem stores_trees : arena.Stores arena.entries.size arena.trees := by
  refine Array.foldl_induction arena.Stores ⟨rfl, fun id none => nomatch none⟩ fun i trees stores => ?_
  have entry : arena.entries[i] = arena.entry i := by simp [Arena.entry]
  rw [entry]
  exact stores.push

/-- A tree is the node at its position over the trees that the node refers to. -/
theorem tree_eq (id : Nat) :
    arena.tree id = .node ((arena.entry id).kind.map arena.tree) (arena.entry id).type := by
  obtain ⟨size, stored⟩ := arena.stores_trees
  by_cases inside : id < arena.entries.size
  · exact stored id inside
  · simp [tree, entry, inside, size, missing, Kind.map]

/-- The tree at a position, as a part of a larger one. -/
def part (id : Nat) : Part := (arena.tree id).part

theorem lowering_tree (id : Nat) :
    (arena.tree id).lowering = ((arena.entry id).kind.map arena.part).lowering (arena.entry id).type := by
  rw [tree_eq, Tree.lowering_node, Kind.map_map]
  rfl

end Arena

/-! ## Calls -/

/-- A call of one of the functions. Loops, calls and handlers are handed on with the positions of their
    parts. -/
inductive Call where
  | expression (id : Nat)
  | renderValue (id : Nat)
  /-- The expression of a node that has one. -/
  | own (id : Nat)
  | statement (id : Nat) (dest : Destination)
  | storeValue (id : Nat) (dest : Destination)
  | logical (decides : Bool) (left right : Nat) (dest : Destination)
  | callStatement (receiver : Receiver Nat) (method : String) (args : List Nat) (returns : JavaType)
    (dest : Destination)
  | rescue (body : Option Nat) (clauses : List (RescueClause Nat)) (otherwise : Option Nat) (type : JavaType)
    (dest : Destination)
  | whileLoop (spec : Loop Nat)
  | complexWhile (spec : Loop Nat)
  | forEach (spec : ForEach Nat)
  | spill (id : Nat)
  | evaluateToTemp (id : Nat)
  | operands (ids : List Nat)
  | reload (name : String) (source : Option Nat)

namespace Call

/-- What a function returns. -/
@[reducible]
def Result : Call → Type
  | .expression _ | .renderValue _ | .own _ => Expr
  | .spill _ | .evaluateToTemp _ => Temp
  | .operands _ => List Expr
  | _ => Unit

variable (arena : Arena)

/-- What a function returns by the lowering of trees. -/
def lowered : (call : Call) → Lower call.Result
  | .expression id => (arena.part id).toExpr
  | .renderValue id => (arena.part id).toInline
  | .own id => (arena.tree id).lowering.inline.getD (return .literal .null)
  | .statement id dest => (arena.part id).toStatement dest
  | .storeValue id dest =>
    (Lowering.ofValue ((arena.entry id).kind.children.map arena.part) (arena.part id).toInline).statement dest
  | .logical decides left right dest => lowerLogical decides (arena.part left) (arena.part right) dest
  | .callStatement receiver method args returns dest =>
    lowerCall (receiver.map arena.part) method (args.map arena.part) returns dest
  | .rescue body clauses otherwise type dest =>
    lowerRescue (body.map arena.part) (clauses.map (·.map arena.part)) (otherwise.map arena.part) type dest
  | .whileLoop spec => lowerLoop (spec.map arena.part)
  | .complexWhile spec => lowerLabeledLoop (spec.map arena.part)
  | .forEach spec => lowerForEach (spec.map arena.part)
  | .spill id => (arena.part id).toTemp
  | .evaluateToTemp id => (arena.part id).toFreshTemp
  | .operands ids => operandValues (ids.map arena.part)
  | .reload name source => Temp.refresh ⟨name, source.map arena.part⟩

/-! ## The functions -/

section

variable (ask : (call : Call) → Lower call.Result)

/-- A node whose lowering is asked for. -/
def asked (id : Nat) : Part where
  tree := arena.tree id
  result := Thunk.mk fun _ =>
    { inline := (arena.tree id).lowering.inline.map fun _ => ask (.own id)
      statement := fun dest => ask (.statement id dest) }

/-- What each function does, by means of the calls that it makes. Of a part only its own expression and
    its statements are asked for (`asked`); whatever else is done with a part stands in place here. -/
def body (call : Call) : Lower call.Result :=
  let part := asked arena ask
  match call with
  | .expression id => do
    if (← (part id).isExpression) || (part id).tree.kind.combinesOperands then
      ask (.renderValue id)
    else
      return .var (← ask (.spill id)).name
  | .renderValue id => do
    if (arena.tree id).lowering.inline.isSome && (arena.tree id).isInline (← Lower.scope).isLocal then
      ask (.own id)
    else
      return .var (← ask (.spill id)).name
  | .own id =>
    (((arena.entry id).kind.map part).lowering (arena.entry id).type).inline.getD (return .literal .null)
  | .statement id dest =>
    match (arena.entry id).kind with
    | .new _ _ => (Lowering.ofEffect (ask (.renderValue id))).statement dest
    | .call receiver method args returns => ask (.callStatement receiver method args returns dest)
    | .binary .and left right => ask (.logical false left right dest)
    | .binary .or left right => ask (.logical true left right dest)
    | .rescue body clauses otherwise => ask (.rescue body clauses otherwise (arena.entry id).type dest)
    | .loop spec => do
      ask (.whileLoop spec)
      putValue dest (.literal .null)
    | .forEach spec => do
      ask (.forEach spec)
      putValue dest (.literal .null)
    | kind =>
      if (arena.tree id).kind.isValue then ask (.storeValue id dest)
      else ((kind.map part).lowering (arena.entry id).type).statement dest
  | .storeValue id dest =>
    (Lowering.ofValue ((arena.entry id).kind.children.map part) (ask (.renderValue id))).statement dest
  | .logical decides left right dest => lowerLogical decides (part left) (part right) dest
  | .callStatement receiver method args returns dest =>
    lowerCall (receiver.map part) method (args.map part) returns dest
  | .rescue body clauses otherwise type dest =>
    lowerRescue (body.map part) (clauses.map (·.map part)) (otherwise.map part) type dest
  | .whileLoop spec => do
    let loop := spec.map part
    let labeled := loop.isLabeled (← Lower.scope).isLocal
    if !loop.redo then
      refuseRedo loop.body (if labeled then .labeledWhile else .plainWhile)
    lowerEffects loop.init
    if labeled then ask (.complexWhile spec) else lowerPlainLoop loop
  | .complexWhile spec => lowerLabeledLoop (spec.map part)
  | .forEach spec => lowerForEach (spec.map part)
  | .spill id => (part id).toTemp
  | .evaluateToTemp id => do
    if ← (part id).isExpression then
      let init ← ask (.renderValue id)
      return ⟨← Lower.newTemp (part id).tree.type.held init, some (part id)⟩
    else
      ask (.spill id)
  | .operands ids => operandValues (ids.map part)
  | .reload name source => Temp.refresh ⟨name, source.map part⟩

end

/-! ## The order of calls -/

/-- The first position behind all of the given ones. -/
def above (ids : List Nat) : Nat := ids.foldr (fun id least => max (id + 1) least) 0

/-- The position of the node that a function is called for. What is handed on in parts has the first
    position behind these. -/
def position : Call → Nat
  | .expression id | .renderValue id | .own id | .statement id _ | .storeValue id _ | .spill id
  | .evaluateToTemp id => id
  | .logical _ left right _ => above [left, right]
  | .callStatement receiver _ args _ _ => above (receiver.toList ++ args)
  | .rescue body clauses otherwise _ _ => above (Kind.rescue body clauses otherwise).children
  | .whileLoop spec | .complexWhile spec => above (Kind.loop spec).children
  | .forEach spec => above (Kind.forEach spec).children
  | .operands ids => above ids
  | .reload _ source => source.getD 0

/-- The statements of the node are made from its expression. -/
def handsBack (id : Nat) : Bool :=
  match (arena.entry id).kind with
  | .new _ _ => true
  | _ => (arena.tree id).kind.isValue

/-- The order of the calls for one node. A node that is handed back to `renderValue` is never in want of a
    variable there, and the other ones never come back from `statement`. -/
def phase : Call → Nat
  | .own _ | .whileLoop _ => 1
  | .renderValue id => if handsBack arena id then 2 else 4
  | .storeValue id _ => if handsBack arena id then 3 else 5
  | .statement id _ => if handsBack arena id then 4 else 2
  | .spill id => if handsBack arena id then 5 else 3
  | .expression _ | .evaluateToTemp _ | .reload _ _ => 6
  | _ => 0

/-- The call is for an earlier position, or for the same one in an earlier phase. -/
def Below (next call : Call) : Prop :=
  next.position < call.position ∨ next.position = call.position ∧ next.phase arena < call.phase arena

instance (next call : Call) : Decidable (Below arena next call) := by
  unfold Below
  infer_instance

/-- The functions, if a call is answered only below the one that makes it. -/
def run (giveUp : Fault) (call : Call) : Lower call.Result :=
  call.body arena fun next => if _below : Below arena next call then next.run giveUp else Lower.fail giveUp
termination_by (call.position, call.phase arena)
decreasing_by exact Prod.lex_def.mpr _below

/-! ## The functions return -/

theorem lt_above {ids : List Nat} {id : Nat} (mem : id ∈ ids) : id < above ids := by
  induction ids with
  | nil => cases mem
  | cons first rest ih =>
    rcases List.mem_cons.mp mem with rfl | mem
    · exact Nat.le_max_left _ _
    · exact Nat.lt_of_lt_of_le (ih mem) (Nat.le_max_right _ _)

theorem above_le {ids : List Nat} {n : Nat} (less : ∀ id ∈ ids, id < n) : above ids ≤ n := by
  induction ids with
  | nil => exact Nat.zero_le n
  | cons first rest ih =>
    obtain ⟨one, others⟩ := List.forall_mem_cons.mp less
    exact Nat.max_le.mpr ⟨one, ih others⟩

variable {arena}

theorem two_le_phase (id : Nat) (dest : Destination) : 2 ≤ (Call.statement id dest).phase arena := by
  show 2 ≤ if handsBack arena id then 4 else 2
  split <;> decide

/-- What a node hands on in parts comes before its statements. -/
theorem below_statement {next : Call} {id : Nat} {dest : Destination}
    (parts : next.position = above (arena.entry id).kind.children) (first : next.phase arena ≤ 1) :
    Below arena next (.statement id dest) := by
  have least : next.phase arena < (Call.statement id dest).phase arena :=
    Nat.lt_of_le_of_lt first (two_le_phase id dest)
  have most : next.position ≤ id := parts ▸ above_le fun _ mem => arena.lt_of_mem_children mem
  rcases Nat.lt_or_eq_of_le most with less | same
  · exact .inl less
  · exact .inr ⟨same, least⟩

variable {ask : (call : Call) → Lower call.Result}

theorem asked_eq {id : Nat} (own : ask (.own id) = lowered arena (.own id))
    (statement : ∀ dest, ask (.statement id dest) = lowered arena (.statement id dest)) :
    asked arena ask id = arena.part id := by
  have inline : ((arena.tree id).lowering.inline.map fun _ => ask (.own id)) =
      (arena.tree id).lowering.inline := by
    rw [own, lowered]
    cases (arena.tree id).lowering.inline <;> rfl
  unfold asked
  rw [inline, funext statement]
  rfl

end Call

/-- An expression that can be used wherever the node stands. -/
theorem Part.toInline_eq {part : Part} {value : Lower Expr} (own : part.result.get.inline = some value)
    (placed : ∀ isLocal, part.tree.isInline isLocal = true) : part.toInline = value := by
  funext ctx p
  rw [toInline_apply, own]
  exact if_pos (placed _)

theorem Tree.lowering_of_isValue {tree : Tree} (isValue : tree.kind.isValue = true) :
    tree.lowering = .ofValue (tree.kind.children.map part) tree.part.toInline := by
  obtain ⟨kind, type⟩ := tree
  have shape : ∃ value, (node kind type).lowering = .ofValue (kind.children.map part) value := by
    rw [lowering_node]
    cases kind with
    | binary op _ _ => cases op <;> first | exact ⟨_, rfl⟩ | cases isValue
    | _ => first | exact ⟨_, rfl⟩ | cases isValue
  obtain ⟨value, same⟩ := shape
  have own : (node kind type).part.toInline = value :=
    Part.toInline_eq (by show (node kind type).lowering.inline = _; rw [same]; rfl)
      (Kind.isInline_of_isValue isValue type)
  rw [own, same]
  rfl

namespace Call

/-- A node that is handed back has an expression that can be used wherever it stands. -/
theorem own_of_handsBack {id : Nat} (handed : handsBack arena id = true) :
    (arena.tree id).lowering.inline = some (arena.part id).toInline ∧
      ∀ isLocal, (arena.tree id).isInline isLocal = true := by
  have own : ∃ value, (arena.tree id).lowering.inline = some value ∧
      ∀ isLocal, (arena.tree id).isInline isLocal = true := by
    have node := arena.tree_eq id
    cases kind : (arena.entry id).kind with
    | new type args =>
      rw [node, kind, Tree.lowering_node]
      exact ⟨_, rfl, fun _ => rfl⟩
    | _ =>
      rw [handsBack, kind] at handed
      rw [Tree.lowering_of_isValue handed]
      refine ⟨_, rfl, fun isLocal => ?_⟩
      rw [node] at handed ⊢
      exact Kind.isInline_of_isValue handed _ isLocal
  obtain ⟨value, found, placed⟩ := own
  have inline : (arena.part id).toInline = value := Part.toInline_eq found placed
  exact ⟨inline ▸ found, placed⟩

theorem handsBack_of_isValue {id : Nat} (value : (arena.tree id).kind.isValue = true) :
    handsBack arena id = true := by
  unfold handsBack
  split
  · rfl
  · exact value

theorem lowered_statement {id : Nat} {dest : Destination} {kind : Kind Nat}
    (found : (arena.entry id).kind = kind) : lowered arena (.statement id dest) =
      ((kind.map arena.part).lowering (arena.entry id).type).statement dest := by
  show (arena.tree id).lowering.statement dest = _
  rw [arena.lowering_tree, found]

/-- The statements of a node, if the calls below return what they should. -/
theorem body_statement {id : Nat} {dest : Destination}
    (ih : ∀ next, Below arena next (.statement id dest) → ask next = next.lowered arena) :
    body arena ask (.statement id dest) = lowered arena (.statement id dest) := by
  have parts : ∀ child ∈ (arena.entry id).kind.children, asked arena ask child = arena.part child :=
    fun child mem =>
      have less := arena.lt_of_mem_children mem
      asked_eq (ih _ (.inl less)) fun _ => ih _ (.inl less)
  have handed {kind : Kind Nat} (found : (arena.entry id).kind = kind) (next : Call)
      (same : next.position = above kind.children) (first : next.phase arena ≤ 1) :
      ask next = next.lowered arena := ih next (below_statement (found ▸ same) first)
  simp only [body]
  split
  · next type args found =>
    have back : handsBack arena id = true := by rw [handsBack, found]
    have value := ih (.renderValue id) (.inr ⟨rfl, by simp [phase, back]⟩)
    have own := (own_of_handsBack back).1
    rw [arena.lowering_tree, found] at own
    rw [value, lowered_statement found, lowered, ← Option.some.inj own]
    rfl
  · next receiver method args returns found =>
    rw [handed found (.callStatement receiver method args returns dest) rfl (Nat.zero_le 1),
      lowered_statement found]
    rfl
  · next left right found =>
    rw [handed found (.logical false left right dest) rfl (Nat.zero_le 1), lowered_statement found]
    rfl
  · next left right found =>
    rw [handed found (.logical true left right dest) rfl (Nat.zero_le 1), lowered_statement found]
    rfl
  · next main clauses otherwise found =>
    rw [handed found (.rescue main clauses otherwise _ dest) rfl (Nat.zero_le 1), lowered_statement found]
    rfl
  · next spec found =>
    rw [handed found (.whileLoop spec) rfl (Nat.le_refl 1), lowered_statement found]
    rfl
  · next spec found =>
    rw [handed found (.forEach spec) rfl (Nat.zero_le 1), lowered_statement found]
    rfl
  · split
    · next value =>
      have back := handsBack_of_isValue value
      rw [ih (.storeValue id dest) (.inr ⟨rfl, by simp [phase, back]⟩)]
      have children : (arena.tree id).kind.children.map Tree.part =
          (arena.entry id).kind.children.map arena.part := by
        rw [arena.tree_eq, Tree.kind, Kind.children_map, List.map_map]
        rfl
      show _ = (arena.tree id).lowering.statement dest
      rw [Tree.lowering_of_isValue value, children]
      rfl
    · rw [lowered_statement rfl, Kind.map_congr parts]

theorem body_eq_lowered {call : Call} (ih : ∀ next, Below arena next call → ask next = next.lowered arena) :
    call.body arena ask = call.lowered arena := by
  have parts : ∀ ids : List Nat, (∀ id ∈ ids, id < call.position) →
      ∀ id ∈ ids, asked arena ask id = arena.part id :=
    fun ids less id mem => asked_eq (ih _ (.inl (less id mem))) fun _ => ih _ (.inl (less id mem))
  have phased : ∀ next : Call, next.position = call.position → next.phase arena < call.phase arena →
      ask next = next.lowered arena :=
    fun next same less => ih next (.inr ⟨same, less⟩)
  have here : ∀ id, id = call.position → (∀ dest, (Call.statement id dest).phase arena < call.phase arena) →
      asked arena ask id = arena.part id := fun id same less =>
    asked_eq (phased (.own id) same (Nat.lt_trans (two_le_phase id .discard) (less .discard)))
      fun dest => phased (.statement id dest) same (less dest)
  cases call with
  | expression id =>
    have value := phased (.renderValue id) rfl (by simp only [phase]; split <;> decide)
    have held := phased (.spill id) rfl (by simp only [phase]; split <;> decide)
    simp only [body, value, held]
    rfl
  | renderValue id =>
    have own := phased (.own id) rfl (by simp only [phase]; split <;> decide)
    funext ctx p
    rw [lowered, Part.toInline_apply]
    simp only [body, Lower.scope_bind, own]
    cases handed : handsBack arena id with
    | true =>
      obtain ⟨inline, placed⟩ := own_of_handsBack handed
      have found : (arena.part id).result.get.inline = some (arena.part id).toInline := inline
      have here : (arena.part id).tree.isInline p.scope.isLocal = true := placed _
      simp only [found, here, inline, placed, lowered]
      rfl
    | false =>
      have held := phased (.spill id) rfl (by simp [phase, handed])
      have found : (arena.part id).result.get.inline = (arena.tree id).lowering.inline := rfl
      have here : (arena.part id).tree = arena.tree id := rfl
      rw [held, found, here, lowered, lowered]
      cases (arena.tree id).lowering.inline with
      | none => rfl
      | some inline => cases (arena.tree id).isInline p.scope.isLocal <;> rfl
  | own id =>
    have same := parts (arena.entry id).kind.children fun _ => arena.lt_of_mem_children
    rw [body, lowered, arena.lowering_tree, Kind.map_congr same]
  | statement id dest => exact body_statement ih
  | storeValue id dest =>
    have value := phased (.renderValue id) rfl (by simp only [phase]; split <;> decide)
    have same := parts (arena.entry id).kind.children fun _ => arena.lt_of_mem_children
    rw [body, lowered, List.map_congr_left same, value]
    rfl
  | logical decides left right dest =>
    have both := parts [left, right] fun _ => lt_above
    rw [body, lowered, both left (by simp), both right (by simp)]
  | callStatement receiver method args returns dest =>
    have same : (Kind.call receiver method args returns).map (asked arena ask) = Kind.map arena.part _ :=
      Kind.map_congr (parts _ fun _ => lt_above)
    obtain ⟨target, -, values, -⟩ := Kind.call.inj same
    rw [body, lowered, target, values]
  | rescue guardedPart clauses otherwise type dest =>
    have same : (Kind.rescue guardedPart clauses otherwise).map (asked arena ask) = Kind.map arena.part _ :=
      Kind.map_congr (parts _ fun _ => lt_above)
    obtain ⟨main, handlers, last⟩ := Kind.rescue.inj same
    rw [body, lowered, main, handlers, last]
  | whileLoop spec =>
    have same : (Kind.loop spec).map (asked arena ask) = Kind.map arena.part _ :=
      Kind.map_congr (parts _ fun _ => lt_above)
    have labeled := phased (.complexWhile spec) rfl Nat.zero_lt_one
    simp only [body, Kind.loop.inj same, labeled]
    rfl
  | complexWhile spec =>
    have same : (Kind.loop spec).map (asked arena ask) = Kind.map arena.part _ :=
      Kind.map_congr (parts _ fun _ => lt_above)
    rw [body, lowered, Kind.loop.inj same]
  | forEach spec =>
    have same : (Kind.forEach spec).map (asked arena ask) = Kind.map arena.part _ :=
      Kind.map_congr (parts _ fun _ => lt_above)
    rw [body, lowered, Kind.forEach.inj same]
  | spill id =>
    rw [body, lowered, here id rfl fun dest => by simp only [phase]; split <;> decide]
  | evaluateToTemp id =>
    have value := phased (.renderValue id) rfl (by simp only [phase]; split <;> decide)
    have held := phased (.spill id) rfl (by simp only [phase]; split <;> decide)
    have same := here id rfl fun dest => by simp only [phase]; split <;> decide
    simp only [body, value, held, same]
    rfl
  | operands ids => rw [body, lowered, List.map_congr_left (parts ids fun _ => lt_above)]
  | reload name source =>
    cases source with
    | none => rfl
    | some id =>
      have same := here id rfl fun dest => by simp only [phase]; split <;> decide
      rw [body, lowered, Option.map_some, Option.map_some, same]

theorem run_eq_lowered (giveUp : Fault) (call : Call) : call.run arena giveUp = call.lowered arena := by
  rw [run]
  refine body_eq_lowered fun next below => ?_
  rw [dif_pos below]
  exact next.run_eq_lowered giveUp
termination_by (call.position, call.phase arena)
decreasing_by exact Prod.lex_def.mpr below

/-- The functions return, for every node and from every state. What they return is what their bodies make of
    each other's answers, and for it no call is made but at an earlier position, or at the same one in an
    earlier phase. -/
theorem run_answers_every_call (arena : Arena) (call : Call) :
    call.lowered arena = call.body arena (lowered arena) ∧
      ∀ giveUp ctx p, call.run arena giveUp ctx p = call.lowered arena ctx p := by
  constructor
  · exact (body_eq_lowered fun _ _ => rfl).symm
  · intro giveUp ctx p
    rw [run_eq_lowered]

end Call

end JavaBackend
