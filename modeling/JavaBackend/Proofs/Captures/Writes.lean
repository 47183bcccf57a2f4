import JavaBackend.Proofs.Locals.Lowering
import JavaBackend.Proofs.Temps.Lowering

/-!
# The variables that code writes

`Stmt.writes` lists the variables that a statement declares, assigns or binds, in its blocks, too, and
`Tree.setNames` those that a source tree assigns or binds. `Lowers.writes` says that the code of a tree
writes these, and the temporaries that are handed out for it, and nothing else.
-/

namespace JavaBackend

open Java (Stmt Code Expr Sink Handler Test)

/-! ## Code -/

namespace Java.Stmt

mutual

/-- The variables that a statement declares, assigns or binds. -/
@[simp]
def writes : Stmt → List String
  | .declare _ name init => name :: init.assigned
  | .store sink value => sink.assigned ++ value.assigned
  | .setField field value => field.assigned ++ value.assigned
  | .eval expr => expr.assigned
  | .print _ value => Expr.assignedAll value.toList
  | .delegate _ args => Expr.assignedAll args
  | .ret | .break _ | .continue _ => []
  | .labeled _ body => body.writes
  | .block body => codeWrites body
  | .ifThen test body | .whileLoop test body | .doLoop body test =>
    test.expr.assigned ++ codeWrites body
  | .ifElse test yes no => test.expr.assigned ++ (codeWrites yes ++ codeWrites no)
  | .forEach _ name iterable body => name :: (iterable.assigned ++ codeWrites body)
  | .tryCatch body handlers => codeWrites body ++ handlersWrite handlers
  | .tryFinally body cleanup => codeWrites body ++ codeWrites cleanup

/-- The variables that the statements of a block write. -/
@[simp]
def codeWrites : List Stmt → List String
  | [] => []
  | stmt :: rest => stmt.writes ++ codeWrites rest

@[simp]
def handlerWrites : Handler (List Stmt) → List String
  | ⟨_, name, body⟩ => name :: codeWrites body

@[simp]
def handlersWrite : List (Handler (List Stmt)) → List String
  | [] => []
  | handler :: rest => handlerWrites handler ++ handlersWrite rest

end

@[simp]
theorem codeWrites_append (code more : Code) :
    codeWrites (code ++ more) = codeWrites code ++ codeWrites more := by
  induction code with
  | nil => rfl
  | cons stmt rest ih => rw [List.cons_append, codeWrites, codeWrites, ih, List.append_assoc]

@[simp]
theorem handlersWrite_append (handlers others : List (Handler Code)) :
    handlersWrite (handlers ++ others) = handlersWrite handlers ++ handlersWrite others := by
  induction handlers with
  | nil => rfl
  | cons handler rest ih =>
    rw [List.cons_append, handlersWrite, handlersWrite, ih, List.append_assoc]

end Java.Stmt

open Java.Stmt

/-! ## Trees -/

/-- The variables that a node itself assigns or binds. -/
def Kind.bound {α : Type} : Kind α → List String
  | .assign name _ => [name]
  | .forEach spec => [spec.var]
  | .rescue _ clauses _ => clauses.filterMap RescueClause.name
  | _ => []

theorem Kind.bound_map {α β : Type} (f : α → β) (kind : Kind α) : (kind.map f).bound = kind.bound := by
  cases kind with
  | rescue body clauses otherwise =>
    simp only [map, bound, List.filterMap_map]
    rfl
  | _ => rfl

/-- The variables that a tree assigns or binds. -/
def Tree.setNames : Tree → List String :=
  Tree.para fun kind _ => kind.bound ++ kind.children.flatMap (·.result.get)

/-- The variables that a node over these subtrees assigns or binds. -/
def Kind.setNames (kind : Kind Tree) : List String := kind.bound ++ kind.children.flatMap Tree.setNames

theorem Tree.setNames_node (kind : Kind Tree) (type : JavaType) :
    (Tree.node kind type).setNames = kind.setNames := by
  rw [Tree.setNames, Tree.para_node, Kind.bound_map, Kind.children_map, List.flatMap_map]
  rfl

/-- The variables that a clause assigns or binds. -/
def RescueClause.setNames (clause : RescueClause Tree) : List String :=
  clause.name.toList ++ clause.body.toList.flatMap Tree.setNames

theorem RescueClause.mem_setNames {name : String} (clauses : List (RescueClause Tree)) :
    name ∈ clauses.flatMap setNames ↔ name ∈ clauses.filterMap RescueClause.name ∨
      name ∈ (clauses.filterMap RescueClause.body).flatMap Tree.setNames := by
  induction clauses with
  | nil => simp
  | cons clause rest ih =>
    obtain ⟨types, own, body⟩ := clause
    rw [List.flatMap_cons, List.mem_append, ih]
    cases own <;> cases body <;> simp [setNames, or_assoc, or_left_comm, or_comm]

/-! ## Tasks -/

/-- The variable that takes a value. -/
def Destination.sinks : Destination → List String
  | .discard => []
  | .store sink => sink.assigned

namespace Task

/-- The variables that the trees of a task assign or bind. -/
@[simp]
def sets : Task → List String
  | .own kind _ => kind.setNames
  | .operand _ tree | .temp tree | .freshTemp tree | .kept tree | .statement tree _ => tree.setNames
  | .operands _ trees | .effects trees | .seq trees _ _ => trees.flatMap Tree.setNames
  | .maybe tree _ | .arm tree _ _ | .labeledBody tree _ _ => tree.toList.flatMap Tree.setNames
  | .receiver target => target.toList.flatMap Tree.setNames
  | .guarded body otherwise _ _ => (body.toList ++ otherwise.toList).flatMap Tree.setNames
  | .clauses all _ _ => all.flatMap RescueClause.setNames
  | .handlers types name _ body _ _ =>
    if types.isEmpty then [] else name.toList ++ body.toList.flatMap Tree.setNames
  | .loop spec => (Kind.loop spec).setNames
  | .forEach spec => (Kind.forEach spec).setNames
  | .pass spec _ _ held =>
    (spec.pre.toList ++ spec.body.toList ++ spec.post.toList ++
      (held.map fun _ => spec.cond).toList).flatMap Tree.setNames
  | .within _ task => task.sets

/-- The variables from outside that the code of a task may write. -/
@[simp]
def sinks : Task → List String
  | .statement _ dest | .maybe _ dest | .arm _ dest _ | .seq _ _ dest | .guarded _ _ _ dest
  | .clauses _ _ dest | .handlers _ _ _ _ _ dest => dest.sinks
  | .pass _ _ flag held => flag.toList ++ held.toList
  | .labeledBody _ _ flag => flag.toList
  | .within _ task => task.sinks
  | _ => []

end Task

/-- The variables that are written where a yield is put. -/
@[simp]
def Yield.writes : Yield → List String
  | .done => []
  | .value expr => expr.assigned
  | .values exprs => Expr.assignedAll exprs
  | .handlers added => handlersWrite added

/-- The flag of the loop around. -/
def Context.flag? (ctx : Context) : Option String := ctx.loops.head?.bind (·.redoFlag)

/-! ## Temporaries -/

/-- The name is that of a temporary behind number `lo`, up to number `hi`. -/
def HandedOut (lo hi : Nat) (name : String) : Prop := ∃ k, lo < k ∧ k ≤ hi ∧ name = tempName k

theorem handedOut_split {lo mid hi : Nat} (lower : lo ≤ mid) (upper : mid ≤ hi) {name : String} :
    HandedOut lo hi name ↔ HandedOut lo mid name ∨ HandedOut mid hi name := by
  constructor
  · rintro ⟨k, above, below, same⟩
    by_cases early : k ≤ mid
    · exact .inl ⟨k, above, early, same⟩
    · exact .inr ⟨k, by omega, below, same⟩
  · rintro (⟨k, above, below, same⟩ | ⟨k, above, below, same⟩)
    · exact ⟨k, above, by omega, same⟩
    · exact ⟨k, by omega, below, same⟩

theorem not_handedOut_self {n : Nat} {name : String} : ¬HandedOut n n name := by
  rintro ⟨k, above, below, -⟩
  omega

theorem handedOut_next {n : Nat} {name : String} :
    HandedOut n (n + 1) name ↔ name = tempName (n + 1) := by
  constructor
  · rintro ⟨k, above, below, same⟩
    rwa [show k = n + 1 by omega] at same
  · exact fun same => ⟨n + 1, by omega, by omega, same⟩

/-- What is written is what the source sets, and the temporaries handed out. -/
structure Fair (name : String) (lo : Nat) (sets written : Prop) (hi : Nat) : Prop where
  grows : lo ≤ hi
  written_iff : written ↔ sets ∨ HandedOut lo hi name

namespace Fair

variable {name : String} {lo mid hi : Nat} {sets sets' written written' : Prop}

theorem nil (none : ¬sets) (nothing : ¬written) : Fair name lo sets written lo :=
  ⟨Nat.le_refl lo, by simp [none, nothing, not_handedOut_self]⟩

theorem append (first : Fair name lo sets written mid) (second : Fair name mid sets' written' hi) :
    Fair name lo (sets ∨ sets') (written ∨ written') hi := by
  refine ⟨Nat.le_trans first.grows second.grows, ?_⟩
  rw [handedOut_split first.grows second.grows, first.written_iff, second.written_iff]
  exact or_or_or_comm

theorem congr (fair : Fair name lo sets written hi) (same : sets' ↔ sets) (equal : written' ↔ written) :
    Fair name lo sets' written' hi :=
  ⟨fair.grows, equal.trans (fair.written_iff.trans (or_congr_left same.symm))⟩

/-- What is set and written there and then. -/
theorem same (both : Prop) : Fair name lo both both lo :=
  ⟨Nat.le_refl lo, by simp [not_handedOut_self]⟩

/-- A temporary is handed out and written. -/
theorem next : Fair name lo False (name = tempName (lo + 1)) (lo + 1) :=
  ⟨Nat.le_succ lo, by simp [handedOut_next]⟩

/-- Code behind a temporary, which may write that, too. -/
theorem behindTemp (grows : lo + 1 ≤ hi)
    (behind : name ≠ tempName (lo + 1) → Fair name (lo + 1) sets written hi) :
    Fair name lo sets (name = tempName (lo + 1) ∨ written) hi := by
  by_cases handed : name = tempName (lo + 1)
  · exact ⟨by omega, iff_of_true (.inl handed) (.inr ⟨lo + 1, by omega, grows, handed⟩)⟩
  · exact (next.append (behind handed)).congr (by simp) Iff.rfl

/-- A pass of a labeled loop, with its flag if there is one. -/
theorem flagged {q : Progress} (redo : Bool)
    (grows : (q.takeLabels.takeFlag redo).scope.temps ≤ hi)
    (behind : q.flag redo ≠ some name →
      Fair name (q.takeLabels.takeFlag redo).scope.temps sets written hi) :
    Fair name q.scope.temps sets (name ∈ codeWrites (q.flagCode redo) ∨ written) hi := by
  cases redo with
  | false => exact (behind (by simp [Progress.flag])).congr Iff.rfl (by simp [Progress.flagCode])
  | true =>
    have behind : name ≠ tempName (q.scope.temps + 1) →
        Fair name (q.scope.temps + 1) sets written hi := fun other =>
      behind (by simpa [Progress.flag, Progress.nextTemp, eq_comm] using other)
    refine (behindTemp grows behind).congr Iff.rfl ?_
    have kept : q.takeLabels.scope.temps = q.scope.temps := rfl
    simp [Progress.flagCode, Progress.declareFlag, Progress.declareTemp, Progress.nextTemp, kept]

end Fair

/-! ## The rules -/

section

variable {ctx : Context} {p p' : Progress} {task : Task} {code : Code} {yield : Yield}

theorem Progress.temps_takeFlag (p : Progress) (redo : Bool) :
    p.scope.temps ≤ (p.takeLabels.takeFlag redo).scope.temps := by
  cases redo with
  | false => exact Nat.le_refl _
  | true => exact Nat.le_succ _

/-- Temporaries are only ever handed out. -/
theorem Lowers.temps_le (lowers : Lowers ctx p task code yield p') :
    p.scope.temps ≤ p'.scope.temps := by
  induction lowers with
  | own _ _ ih => rwa [Kind.temps_noteUse]
  | inlineOwn _ _ ih | inlineTemp _ ih | valueInline _ _ ih | valueTemp _ _ ih | fixedInline _ _ ih
  | fixedTemp _ ih | keptInline _ _ ih | keptTemp _ ih | freshTemp _ ih | tempAssign _ ih
  | discardValue _ _ ih | storeValue _ _ ih | putEffect _ _ ih | assignKnown _ _ ih
  | receiverValue _ ih | seq _ ih | seqLast _ ih | maybeSome _ ih | armSome _ ih | retVoid _ _ ih
  | retInline _ _ _ ih | retStore _ _ ih | raiseInline _ _ ih | raiseStore _ ih | print _ ih
  | guardedPlain _ ih | rescueNone _ ih | loop _ ih | forEach _ ih | labeledBody _ ih => exact ih
  | operandsNil | receiverOwn | receiverNamed | seqNil | effectsNil | maybeNone | armNone | jump
  | retNone | clausesNil | handlersNil => exact Nat.le_refl _
  | operandsCons _ _ ih₁ ih₂ | voidCall _ _ _ ih₁ ih₂ | condThen _ _ ih₁ ih₂ | andStore _ _ ih₁ ih₂
  | orStore _ _ ih₁ ih₂ | logicalDiscard _ _ _ ih₁ ih₂ | seqCons _ _ ih₁ ih₂
  | effectsCons _ _ ih₁ ih₂ | guardedElse _ _ ih₁ ih₂ | rescue _ _ _ ih₁ ih₂
  | clausesCons _ _ ih₁ ih₂ | handlersNamed _ _ ih₁ ih₂ | ensure _ _ ih₁ ih₂
  | plainElements _ _ _ _ ih₁ ih₂ => exact Nat.le_trans ih₁ ih₂
  | freshInline _ _ ih | tempLoop _ _ ih => exact Nat.le_succ_of_le ih
  | tempStore _ ih => exact Nat.le_of_succ_le ih
  | assignNew _ reserved ih => rwa [Scope.temps_of_reserve? reserved]
  | setField _ ih => rwa [Progress.temps_useField] at ih
  | condElse _ _ _ ih₁ ih₂ ih₃ => exact Nat.le_trans ih₁ (Nat.le_trans ih₂ ih₃)
  | plainLoop _ _ _ _ _ _ _ ih₁ ih₂ ih₃ ih₄ | pass _ _ _ _ ih₁ ih₂ ih₃ ih₄ => omega
  | @testedLoop _ _ spec _ _ _ _ _ q _ _ _ _ _ _ ih₁ ih₂ ih₃ =>
    have flagged := q.temps_takeFlag spec.redo
    omega
  | @heldLoop _ _ spec _ _ _ p₁ q _ _ _ _ _ ih₁ ih₂ ih₃ =>
    have flagged := q.temps_takeFlag spec.redo
    have next : (p₁.takeTemp .boolean).scope.temps = p₁.scope.temps + 1 := rfl
    omega
  | handlersFresh _ _ _ ih₁ ih₂ => exact Nat.le_of_succ_le (Nat.le_trans ih₁ ih₂)
  | copiedElements _ _ _ _ ih₁ ih₂ | labeledElements _ _ _ _ ih₁ ih₂ =>
    exact Nat.le_trans ih₁ (Nat.le_of_succ_le ih₂)
  | labeledCopies _ _ _ _ ih₁ ih₂ =>
    exact Nat.le_trans ih₁ (Nat.le_of_succ_le (Nat.le_of_succ_le ih₂))
  | within _ ih => rwa [Progress.temps_leave, ← Progress.temps_enter]

theorem Kind.bound_of_build? {type : JavaType} {kind : Kind Tree} {exprs : List Expr} {expr : Expr}
    (built : kind.build? ctx type exprs = some expr) : kind.bound = kind.assigned?.toList := by
  cases kind with
  | forEach | rescue => cases built
  | _ => rfl

theorem Kind.bound_of_isValue {kind : Kind Tree} (value : kind.isValue = true) : kind.bound = [] := by
  cases kind with
  | assign | forEach | rescue => cases value
  | _ => rfl

theorem Destination.not_mem_put {dest : Destination} {name : String} (outside : name ∉ dest.sinks)
    {value : Expr} (pure : value.assigned = []) : name ∉ codeWrites (dest.put value) := by
  cases dest with
  | discard => simp [put]
  | store sink => simpa [put, pure, sinks] using outside

theorem EnclosingLoop.Jumps.writes {loop : EnclosingLoop} {action : Jump}
    (jumps : loop.Jumps action code) : ∀ name ∈ codeWrites code, loop.redoFlag = some name := by
  cases jumps with
  | redo labeled flagged => simp [Sink.assigned, flagged]
  | _ => simp

/-- The code of a task writes the variables that its trees set, and the temporaries that are handed
    out for it. Apart from these it only writes where its value is put, and the flag of the loop
    around. -/
theorem Lowers.writes (lowers : Lowers ctx p task code yield p') {name : String}
    (outside : name ∉ task.sinks) (around : ctx.flag? ≠ some name) :
    Fair name p.scope.temps (name ∈ task.sets) (name ∈ codeWrites code ∨ name ∈ yield.writes)
      p'.scope.temps := by
  induction lowers with
  | @own _ _ kind _ _ _ _ _ _ built ih =>
    rw [Kind.temps_noteUse]
    have front := ih (by simp) around
    refine (front.append (.same (name ∈ kind.assigned?.toList))).congr ?_ ?_
    · simp [Kind.setNames, Kind.bound_of_build? built, or_comm]
    · simp [Kind.assigned_build? built, or_comm, or_assoc]
  | inlineOwn _ _ ih =>
    rw [Task.sets, Tree.setNames_node]
    exact ih (by simp) around
  | inlineTemp _ ih | valueInline _ _ ih | valueTemp _ _ ih | fixedInline _ _ ih | fixedTemp _ ih
  | keptInline _ _ ih | keptTemp _ ih | freshTemp _ ih => exact ih outside around
  | operandsNil | effectsNil | maybeNone | handlersNil | clausesNil | receiverNamed =>
    exact .nil (by simp [Receiver.toList]) (by simp)
  | operandsCons _ _ ih₁ ih₂ =>
    refine ((ih₁ (by simp) around).append (ih₂ (by simp) around)).congr (by simp) ?_
    simp [or_assoc, or_left_comm]
  | freshInline _ _ ih | tempLoop _ _ ih =>
    refine ((ih (by simp [Destination.sinks]) around).append .next).congr (by simp) ?_
    simp [Progress.declareTemp, Progress.nextTemp, or_comm, or_assoc]
  | tempAssign _ ih => exact (ih (by simp [Destination.sinks]) around).congr (by simp) (by simp)
  | tempStore stored ih =>
    refine (Fair.behindTemp stored.temps_le fun other => ih ?_ around).congr (by simp) ?_
    · simpa [Destination.sinks, Sink.assigned, Progress.nextTemp] using other
    · simp [Progress.declareTemp, Progress.nextTemp]
  | discardValue value _ ih =>
    refine (ih (by simp) around).congr ?_ Iff.rfl
    simp [Tree.setNames_node, Kind.setNames, Kind.bound_of_isValue value]
  | storeValue value _ ih =>
    refine (ih (by simp) around).congr (by simp [Tree.setNames_node]) ?_
    simp_all [Destination.sinks]
  | @putEffect _ _ _ _ dest _ _ _ _ _ ih =>
    refine (ih (by simp) around).congr (by simp [Tree.setNames_node]) ?_
    cases dest <;> simp_all [Destination.sinks, Destination.putEffect]
  | @assignKnown _ _ own _ _ dest _ _ _ _ _ ih =>
    have put : name ∉ codeWrites (dest.put (.var own)) := Destination.not_mem_put outside rfl
    refine ((ih (by simp) around).append (.same (name = own))).congr ?_ ?_
    · simp [Tree.setNames_node, Kind.setNames, Kind.bound, Kind.children, or_comm]
    · simp [put, Sink.assigned, or_comm, or_assoc]
  | @assignNew _ _ own _ _ dest _ _ _ _ _ reserved ih =>
    have put : name ∉ codeWrites (dest.put (.var own)) := Destination.not_mem_put outside rfl
    rw [Scope.temps_of_reserve? reserved]
    refine ((ih (by simp) around).append (.same (name = own))).congr ?_ ?_
    · simp [Tree.setNames_node, Kind.setNames, Kind.bound, Kind.children, or_comm]
    · simp [put, or_comm, or_assoc]
  | @setField ctx _ field _ isStatic _ dest _ _ _ _ ih =>
    have put := Destination.not_mem_put outside (ctx.assigned_field field isStatic)
    have front := ih (by simp) around
    rw [Progress.temps_useField] at front
    refine front.congr ?_ ?_
    · simp [Tree.setNames_node, Kind.setNames, Kind.bound, Kind.children]
    · simp [put]
  | voidCall _ received _ ih₁ ih₂ =>
    refine ((ih₁ (by simp) around).append (ih₂ (by simp) around)).congr ?_ ?_
    · simp [Tree.setNames_node, Kind.setNames, Kind.bound, Kind.children]
    · have other : name ∉ Sink.assigned _ := outside
      simp [other, or_assoc, or_comm, or_left_comm]
  | @receiverOwn ctx _ =>
    refine .nil (by simp [Receiver.toList]) ?_
    cases ctx.isStatic <;> simp
  | receiverValue _ ih => exact (ih (by simp) around).congr (by simp [Receiver.toList]) (by simp)
  | condElse _ _ _ ih₁ ih₂ ih₃ =>
    refine ((ih₁ (by simp) around).append ((ih₂ outside around).append (ih₃ outside around))).congr
      ?_ ?_
    · simp [Tree.setNames_node, Kind.setNames, Kind.bound, Kind.children]
    · simp [or_assoc]
  | condThen _ _ ih₁ ih₂ | logicalDiscard _ _ _ ih₁ ih₂ =>
    refine ((ih₁ (by simp) around).append (ih₂ outside around)).congr ?_ ?_
    · simp [Tree.setNames_node, Kind.setNames, Kind.bound, Kind.children]
    · simp [or_assoc]
  | andStore _ _ ih₁ ih₂ | orStore _ _ ih₁ ih₂ =>
    refine ((ih₁ (by simp) around).append (ih₂ outside around)).congr ?_ ?_
    · simp [Tree.setNames_node, Kind.setNames, Kind.bound, Kind.children]
    · simp_all [or_assoc, Destination.sinks]
  | seq _ ih | rescueNone _ ih =>
    refine (ih outside around).congr ?_ Iff.rfl
    simp [Tree.setNames_node, Kind.setNames, Kind.bound, Kind.children]
  | seqNil | armNone => exact .nil (by simp) (by simpa using Destination.not_mem_put outside rfl)
  | seqLast _ ih | maybeSome _ ih | armSome _ ih | guardedPlain _ ih =>
    exact (ih outside around).congr (by simp) Iff.rfl
  | seqCons _ _ ih₁ ih₂ | guardedElse _ _ ih₁ ih₂ =>
    refine ((ih₁ (by simp [Destination.sinks]) around).append (ih₂ outside around)).congr ?_ ?_
    · simp
    · simp
  | effectsCons _ _ ih₁ ih₂ =>
    refine ((ih₁ (by simp [Destination.sinks]) around).append (ih₂ (by simp) around)).congr ?_ ?_
    · simp
    · simp
  | jump around' jumps =>
    refine .nil (by simp [Tree.setNames_node, Kind.setNames, Kind.bound, Kind.children]) ?_
    simp only [Yield.writes, List.not_mem_nil, or_false]
    intro mem
    exact around (by simp [Context.flag?, around', jumps.writes name mem])
  | retNone =>
    exact .nil (by simp [Tree.setNames_node, Kind.setNames, Kind.bound, Kind.children]) (by simp)
  | retVoid _ _ ih | retStore _ _ ih | raiseStore _ ih =>
    refine (ih (by simp [Destination.sinks, Sink.assigned]) around).congr ?_ ?_
    · simp [Tree.setNames_node, Kind.setNames, Kind.bound, Kind.children]
    · simp
  | retInline _ _ _ ih | raiseInline _ _ ih =>
    refine (ih (by simp) around).congr ?_ ?_
    · simp [Tree.setNames_node, Kind.setNames, Kind.bound, Kind.children]
    · simp [Sink.assigned]
  | @print _ _ value _ _ dest _ exprs _ operand ih =>
    have put : name ∉ codeWrites (dest.put (.literal .null)) := Destination.not_mem_put outside rfl
    refine (ih (by simp) around).congr ?_ ?_
    · simp [Tree.setNames_node, Kind.setNames, Kind.bound, Kind.children]
    · have only : exprs.head?.toList = exprs := by
        cases value with
        | none => cases operand; rfl
        | some tree =>
          cases operand with
          | operandsCons _ others => cases others; rfl
      simp [put, only]
  | rescue _ _ _ ih₁ ih₂ =>
    refine ((ih₁ outside around).append (ih₂ outside around)).congr ?_ ?_
    · rw [Task.sets, Task.sets, Task.sets, RescueClause.mem_setNames, Tree.setNames_node]
      simp [Kind.setNames, Kind.bound, Kind.children, or_assoc, or_comm, or_left_comm]
    · simp
  | @clausesCons _ _ clause _ _ _ _ _ _ _ _ _ ih₁ ih₂ =>
    refine ((ih₁ outside around).append (ih₂ outside around)).congr ?_ ?_
    · cases clause.types <;> simp [RescueClause.setNames, or_assoc]
    · simp
  | @handlersNamed _ _ _ rest own _ _ _ _ _ _ _ _ _ ih₁ ih₂ =>
    refine (((ih₁ outside around).append (.same (name = own))).append
      (ih₂ outside around)).congr ?_ ?_
    · cases rest <;> simp [or_comm]
    · simp [or_left_comm, or_assoc]
  | @handlersFresh _ p _ rest own _ _ _ _ _ _ _ _ taken _ _ ih₁ ih₂ =>
    have copied (temp : String) : codeWrites (copyCode temp own) = own.toList := by
      cases own <;> simp [copyCode, Sink.assigned]
    refine ((Fair.next.append (ih₁ outside around)).append
      ((Fair.same (name ∈ own.toList)).append (ih₂ outside around))).congr ?_ ?_
    · cases rest <;> simp [or_comm, or_left_comm]
    · simp [copied, Progress.nextTemp, or_assoc, or_left_comm]
  | ensure _ _ ih₁ ih₂ =>
    refine ((ih₁ outside around).append (ih₂ (by simp [Destination.sinks]) around)).congr ?_ ?_
    · simp [Tree.setNames_node, Kind.setNames, Kind.bound, Kind.children]
    · simp
  | @loop _ _ _ _ dest _ _ _ ih | @forEach _ _ _ _ dest _ _ _ ih =>
    have put : name ∉ codeWrites (dest.put (.literal .null)) := Destination.not_mem_put outside rfl
    refine (ih (by simp) around).congr (by simp [Tree.setNames_node]) ?_
    simp [put]
  | @plainLoop _ _ spec _ _ _ _ _ _ _ _ _ _ post _ _ _ _ _ ih₁ ih₂ ih₃ ih₄ =>
    have inside {ctx : Context} {loop : EnclosingLoop} (unflagged : loop.redoFlag = none) :
        (ctx.enter loop).flag? ≠ some name := by
      simp [Context.flag?, Context.enter, unflagged]
    have front := (ih₁ (by simp [Destination.sinks]) around).append (ih₂ (by simp) around)
    have pass := (ih₃ (by simp [Destination.sinks]) (inside rfl)).append
      (ih₄ (by simp [Destination.sinks]) (inside rfl))
    refine (front.append pass).congr ?_ ?_
    · simp [Kind.setNames, Kind.bound, Kind.children, post, or_assoc]
    · cases spec.checkFirst <;> simp [loopStmt, or_assoc]
  | @testedLoop _ _ spec _ _ _ _ _ q _ _ _ _ _ passed ih₁ ih₂ ih₃ =>
    have front := (ih₁ (by simp [Destination.sinks]) around).append (ih₂ (by simp) around)
    have pass := Fair.flagged spec.redo passed.temps_le fun other =>
      ih₃ (by simpa using other) (by simpa [Context.flag?, Context.enter] using other)
    refine (front.append pass).congr ?_ ?_
    · simp [Kind.setNames, Kind.bound, Kind.children, or_assoc]
    · cases spec.checkFirst <;> simp [loopStmt, or_assoc]
  | @heldLoop _ _ spec _ _ _ p₁ q _ _ _ tested passed ih₁ ih₂ ih₃ =>
    have held : Fair name p₁.scope.temps _ _ _ :=
      Fair.behindTemp (Nat.le_trans tested.temps_le (Nat.le_trans (q.temps_takeFlag spec.redo)
        passed.temps_le)) fun fresh =>
        (ih₂ (by simpa [Destination.sinks, Sink.assigned, Progress.nextTemp] using fresh) around).append
          (Fair.flagged spec.redo passed.temps_le fun other =>
            ih₃ (by simpa [Progress.nextTemp] using ⟨other, fresh⟩)
              (by simpa [Context.flag?, Context.enter] using other))
    refine ((ih₁ (by simp [Destination.sinks]) around).append held).congr ?_ ?_
    · cases spec.checkFirst <;>
        simp [Kind.setNames, Kind.bound, Kind.children, or_comm, or_left_comm]
    · cases spec.checkFirst <;>
        simp [loopStmt, Progress.declareFlag, Progress.declareTemp, Progress.nextTemp]
  | @pass _ _ spec _ flag held _ _ _ _ _ _ _ _ _ _ _ _ ih₁ ih₂ ih₃ ih₄ =>
    simp only [Task.sinks, List.mem_append, not_or] at outside
    have test := ih₄ (by cases held <;> simp_all [Destination.sinks, Sink.assigned]) around
    refine ((ih₁ (by simp [Destination.sinks]) around).append ((ih₂ outside.1 around).append
      ((ih₃ (by simp [Destination.sinks]) around).append test))).congr ?_ ?_
    · simp
    · simp
  | @labeledBody _ _ _ _ flag _ _ _ ih =>
    refine (ih (by simp [Destination.sinks]) around).congr Iff.rfl ?_
    cases flag <;> simp_all [labeledStmt, Sink.assigned]
  | @plainElements _ _ spec _ _ _ _ _ _ _ _ _ ih₁ ih₂ =>
    refine ((ih₁ (by simp) around).append ((Fair.same (name = spec.var)).append
      (ih₂ (by simp [Destination.sinks]) (by simp [Context.flag?, Context.enter])))).congr ?_ ?_
    · simp [Kind.setNames, Kind.bound, Kind.children, or_left_comm]
    · simp [or_assoc, or_left_comm]
  | @copiedElements _ _ spec _ _ _ _ _ _ _ _ _ ih₁ ih₂ =>
    refine ((ih₁ (by simp) around).append ((Fair.next.append (Fair.same (name = spec.var))).append
      (ih₂ (by simp [Destination.sinks]) (by simp [Context.flag?, Context.enter])))).congr ?_ ?_
    · simp [Kind.setNames, Kind.bound, Kind.children, or_left_comm]
    · simp [Sink.assigned, Progress.nextTemp, or_assoc, or_left_comm]
  | @labeledElements _ _ spec _ _ _ q _ _ _ _ passed ih₁ ih₂ =>
    have pass : Fair name q.scope.temps _ _ _ := Fair.behindTemp passed.temps_le fun other =>
      ih₂ (by simpa [Progress.nextTemp] using other)
        (by simpa [Context.flag?, Context.enter, Progress.nextTemp, eq_comm] using other)
    refine ((ih₁ (by simp) around).append ((Fair.same (name = spec.var)).append pass)).congr ?_ ?_
    · simp [Kind.setNames, Kind.bound, Kind.children, or_left_comm]
    · simp [Progress.declareFlag, Progress.declareTemp, Progress.nextTemp, or_assoc, or_left_comm]
  | @labeledCopies _ _ spec _ _ _ q _ _ _ _ passed ih₁ ih₂ =>
    have pass : Fair name q.takeName.scope.temps _ _ _ := Fair.behindTemp passed.temps_le fun other =>
      ih₂ (by simpa [Progress.nextTemp] using other)
        (by simpa [Context.flag?, Context.enter, Progress.nextTemp, eq_comm] using other)
    refine ((ih₁ (by simp) around).append ((Fair.next.append (Fair.same (name = spec.var))).append
      pass)).congr ?_ ?_
    · simp [Kind.setNames, Kind.bound, Kind.children, or_left_comm]
    · simp [Sink.assigned, Progress.declareFlag, Progress.declareTemp, Progress.nextTemp, or_assoc,
        or_left_comm]
  | within _ ih =>
    have inside := ih outside around
    rw [Progress.temps_enter] at inside
    rw [Progress.temps_leave]
    exact inside

end

end JavaBackend
