import JavaBackend.Proofs.Captures.Runs
import JavaBackend.Proofs.Lowering.Appended

/-!
# Every path stores

A variable for a value starts with a default, so Java accepts code that forgets to store the value on
some path, and goes on with the default. `Stmt.stores` is the check that no path forgets it, read off
the statements alone: both branches of a conditional, the block of a `try` and each of its handlers have
to store, and a path that leaves by a jump, a `return` or a `throw` need not. `Runs.stores` says that
the check is enough for the runs of the code, and `Lowers.stores` that all generated code passes it.
-/

namespace JavaBackend

open Java (Stmt Code Expr Sink Handler Phrase Runs Exit Vars)
open Lower (Ends)

/-! ## The check -/

namespace Java

/-- Whether putting a value there leaves the method. -/
def Sink.leaves : Sink → Bool
  | .result | .thrown => true
  | .into _ | .lead _ => false

/-- Whether a value that is put into `target` is stored in the sink, or the path is left. -/
def Sink.takes (sink target : Sink) : Bool := target == sink || target.leaves

theorem Sink.takes_of_leaves {target : Sink} (leaves : target.leaves = true) (sink : Sink) :
    sink.takes target = true := by
  rw [takes, leaves, Bool.or_true]

namespace Stmt

mutual

/-- Whether each path through the statement stores a value in the sink, or is left. -/
def stores (sink : Sink) : Stmt → Bool
  | .store target _ => sink.takes target
  | .ret | .break _ | .continue _ => true
  | .block body => codeStores sink body
  | .ifElse _ yes no => codeStores sink yes && codeStores sink no
  | .tryCatch body handlers => codeStores sink body && handlersStore sink handlers
  | .tryFinally body _ => codeStores sink body
  | .declare _ _ _ | .setField _ _ | .eval _ | .print _ _ | .delegate _ _ | .labeled _ _ | .ifThen _ _
  | .whileLoop _ _ | .doLoop _ _ | .forEach _ _ _ _ => false

/-- A block stores if its last statement does. -/
def codeStores (sink : Sink) : List Stmt → Bool
  | [] => false
  | [last] => last.stores sink
  | _ :: next :: rest => codeStores sink (next :: rest)

def handlerStores (sink : Sink) : Handler (List Stmt) → Bool
  | ⟨_, _, body⟩ => codeStores sink body

def handlersStore (sink : Sink) : List (Handler (List Stmt)) → Bool
  | [] => true
  | handler :: rest => handlerStores sink handler && handlersStore sink rest

end

variable {sink : Sink}

theorem handlersStore_iff {handlers : List (Handler Code)} :
    handlersStore sink handlers = true ↔
      ∀ handler ∈ handlers, codeStores sink handler.body = true := by
  induction handlers with
  | nil => simp [handlersStore]
  | cons handler rest ih =>
    obtain ⟨type, name, body⟩ := handler
    rw [handlersStore, handlerStores, Bool.and_eq_true, ih, List.forall_mem_cons]

theorem codeStores_cons {stmt : Stmt} {rest : Code} (some? : rest ≠ []) :
    codeStores sink (stmt :: rest) = codeStores sink rest := by
  obtain ⟨next, more, rfl⟩ := List.exists_cons_of_ne_nil some?
  rw [codeStores]

theorem codeStores_append {code more : Code} (some? : more ≠ []) :
    codeStores sink (code ++ more) = codeStores sink more := by
  induction code with
  | nil => rfl
  | cons stmt rest ih => rw [List.cons_append, codeStores_cons (by simp [some?]), ih]

end Stmt

open Stmt (codeStores handlersStore handlersStore_iff codeStores_cons codeStores_append)

/-! ## Runs of code that passes the check -/

variable {self : Value} {σ σ' : Vars} {events : History} {sink : Sink}

/-- What the check says of a phrase. -/
def Phrase.stores (sink : Sink) : Phrase → Bool
  | .stmt _ step => step.stores sink
  | .code body => codeStores sink body
  | .expr _ | .exprs _ | .passes _ _ _ _ => false

/-- A run that goes on behind code that passes the check has put a value into the sink. -/
theorem Runs.stores {phrase : Phrase} {exit : Exit} (runs : Runs self σ phrase events exit σ')
    (stores : phrase.stores sink = true) (completes : exit = .done) :
    ∃ value, .put sink.text value ∈ events := by
  induction runs with
  | literal | this | var | owner | assign | assignThrows | logicalLeft | logicalThrows | logicalRight
  | condThrows | cond | operation | operationThrows | exprsNil | exprsThrows | exprsCons | exprsLater
  | passesNil | passesLeave | passesCons => cases stores
  | throws | ret | break_ | continue_ => cases completes
  | @effect _ _ stmt _ _ _ isEffect => cases stmt <;> cases isEffect <;> cases stores
  | declare | labeled | ifThen | whileEnds | whileLeaves | whileAgain | doLeaves | doThen | forEach
  | codeNil => cases stores
  | @store _ _ target _ _ value =>
    -- a sink that leaves the method does not go on behind the statement
    have same : target = sink := by
      simp only [Phrase.stores, Stmt.stores, Sink.takes, Bool.or_eq_true, beq_iff_eq] at stores
      refine stores.resolve_right fun leaves => ?_
      cases target with
      | into | lead => cases leaves
      | result | thrown => nomatch completes
    subst same
    exact ⟨value, List.mem_append_right _ (List.mem_singleton_self _)⟩
  | block _ ih => exact ih stores completes
  | @ifElse _ _ test yes no _ value _ _ _ _ _ _ _ ih =>
    simp only [Phrase.stores, Stmt.stores, Bool.and_eq_true] at stores
    have branch : codeStores sink (if test.holdsOf value then yes else no) = true := by
      cases test.holdsOf value with
      | true => exact stores.1
      | false => exact stores.2
    obtain ⟨put, mem⟩ := ih branch completes
    exact ⟨put, List.mem_append_right _ mem⟩
  | tryPasses _ ih =>
    simp only [Phrase.stores, Stmt.stores, Bool.and_eq_true] at stores
    exact ih stores.1 completes
  | tryCatches _ catches _ _ ih =>
    simp only [Phrase.stores, Stmt.stores, Bool.and_eq_true] at stores
    obtain ⟨put, mem⟩ := ih (handlersStore_iff.mp stores.2 _ catches) completes
    exact ⟨put, List.mem_append_right _ mem⟩
  | @tryFinally _ _ _ _ _ exit _ _ last _ _ _ ih _ =>
    -- the whole goes on only if both parts do
    have body : exit = .done := by
      cases last with
      | done => exact completes
      | _ => nomatch completes
    obtain ⟨put, mem⟩ := ih stores body
    exact ⟨put, List.mem_append_left _ mem⟩
  | @codeCons _ stmt rest _ _ _ _ _ _ _ ih₁ ih₂ =>
    cases rest with
    | nil =>
      obtain ⟨put, mem⟩ := ih₁ stores rfl
      exact ⟨put, List.mem_append_left _ mem⟩
    | cons next more =>
      obtain ⟨put, mem⟩ := ih₂ (by rwa [Phrase.stores, codeStores_cons (by simp)] at stores) completes
      exact ⟨put, List.mem_append_right _ mem⟩
  | codeLeaves _ leaves => cases leaves completes

end Java

open Java.Stmt (codeStores handlersStore handlersStore_iff codeStores_append)

/-! ## Generated code -/

/-- Whether the value goes into the sink, or out of the method. -/
def Destination.reaches (sink : Sink) : Destination → Bool
  | .discard => false
  | .store target => sink.takes target

variable {sink : Sink} {dest : Destination} {code : Code}

theorem Destination.codeStores_put (reaches : dest.reaches sink = true) (code : Code) (value : Expr) :
    codeStores sink (code ++ dest.put value) = true := by
  cases dest with
  | discard => cases reaches
  | store target => rwa [Destination.put, codeStores_append (by simp)]

theorem Destination.codeStores_putEffect (reaches : dest.reaches sink = true) (code : Code)
    (value : Expr) : codeStores sink (code ++ [dest.putEffect value]) = true := by
  cases dest with
  | discard => cases reaches
  | store target => rwa [Destination.putEffect, codeStores_append (by simp)]

/-- What the value of a task asks of its code and of its handlers, if it goes into the sink. -/
def Task.Stores (sink : Sink) (code : Code) (yield : Yield) : Task → Prop
  | .statement _ dest | .arm _ dest _ | .seq _ _ dest | .guarded _ _ _ dest =>
    dest.reaches sink = true → codeStores sink code = true
  | .clauses _ _ dest | .handlers _ _ _ _ _ dest =>
    dest.reaches sink = true → ∀ handlers, yield = .handlers handlers →
      handlersStore sink handlers = true
  | .within _ task => task.Stores sink code yield
  | _ => True

/-- Wherever the value of a task goes, its code stores it there on every path. -/
theorem Lowers.stores {ctx : Context} {p p' : Progress} {task : Task} {yield : Yield}
    (lowers : Lowers ctx p task code yield p') : task.Stores sink code yield := by
  induction lowers with
  | own | inlineOwn | inlineTemp | valueInline | valueTemp | fixedInline | fixedTemp | keptInline
  | keptTemp | operandsNil | operandsCons | freshInline | freshTemp | tempLoop | tempAssign | tempStore
  | receiverOwn | receiverNamed | receiverValue | effectsNil | effectsCons | maybeNone | maybeSome
  | plainLoop | testedLoop | heldLoop | pass | labeledBody | plainElements | copiedElements
  | labeledElements | labeledCopies => trivial
  | discardValue | condThen | logicalDiscard => nofun
  | storeValue => exact fun reaches => (codeStores_append (by simp)).trans reaches
  | putEffect => exact fun reaches => Destination.codeStores_putEffect reaches _ _
  | assignKnown | assignNew | setField | print =>
    intro reaches
    rw [List.append_cons]
    exact Destination.codeStores_put reaches _ _
  | voidCall =>
    intro reaches
    rw [← List.append_assoc]
    exact (codeStores_append (by simp)).trans reaches
  | condElse _ _ _ _ yes no =>
    intro reaches
    rw [codeStores_append (by simp)]
    exact Bool.and_eq_true_iff.mpr ⟨yes reaches, no reaches⟩
  | andStore _ _ _ run =>
    intro reaches
    rw [codeStores_append (by simp)]
    exact Bool.and_eq_true_iff.mpr ⟨run reaches, reaches⟩
  | orStore _ _ _ run =>
    intro reaches
    rw [codeStores_append (by simp)]
    exact Bool.and_eq_true_iff.mpr ⟨reaches, run reaches⟩
  | seqNil | armNone => exact fun reaches => Destination.codeStores_put reaches [] _
  | seq _ ih | seqLast _ ih | armSome _ ih | guardedPlain _ ih | rescueNone _ ih => exact ih
  | seqCons _ _ _ ih | guardedElse _ _ _ ih =>
    intro reaches
    have others := ih reaches
    rwa [codeStores_append]
    rintro rfl
    cases others
  | jump _ jumps => cases jumps <;> exact fun _ => rfl
  | retNone => exact fun _ => rfl
  | retVoid =>
    intro _
    rw [codeStores_append (by simp)]
    rfl
  | retInline | raiseInline =>
    intro _
    rw [codeStores_append (by simp)]
    exact Java.Sink.takes_of_leaves rfl sink
  | retStore _ _ ih | raiseStore _ ih =>
    -- the value leaves the method, whatever becomes of that of the node
    exact fun _ => ih (Java.Sink.takes_of_leaves rfl sink)
  | rescue _ _ _ body handlers =>
    exact fun reaches => Bool.and_eq_true_iff.mpr ⟨body reaches, handlers reaches _ rfl⟩
  | clausesNil | handlersNil =>
    rintro - _ ⟨⟩
    rfl
  | clausesCons _ _ first others =>
    rintro reaches _ ⟨⟩
    have both := fun handler mem => handlersStore_iff.mp (first reaches _ rfl) handler mem
    refine handlersStore_iff.mpr fun handler mem => ?_
    rcases List.mem_append.mp mem with mem | mem
    · exact both handler mem
    · exact handlersStore_iff.mp (others reaches _ rfl) handler mem
  | handlersNamed _ _ handled others =>
    rintro reaches _ ⟨⟩
    exact Bool.and_eq_true_iff.mpr ⟨handled reaches, others reaches _ rfl⟩
  | handlersFresh _ _ _ handled others =>
    rintro reaches _ ⟨⟩
    have body := handled reaches
    refine Bool.and_eq_true_iff.mpr ⟨?_, others reaches _ rfl⟩
    refine Eq.trans (codeStores_append ?_) body
    rintro rfl
    cases body
  | ensure _ _ body _ => exact body
  | loop | forEach => exact fun reaches => Destination.codeStores_put reaches _ _
  | within _ ih => exact ih

/-! ## Statements in a method -/

/-- The statements for a tree whose value is wanted store it on every path: the code that lowering ends
    with is appended to the method and passes the check, and each of its runs that goes on behind it has
    put a value into the sink. -/
theorem value_stored_on_every_path {c : ClassDraft} {index : Nat} {m : MethodDraft}
    {loops : List EnclosingLoop} {tree : Tree} {sink : Sink} (found : c.methods[index]? = some m)
    (opened : m.stage = .opened)
    (ok : (c.lower index loops (tree.toStatement (.store sink))).1 = .ok ()) :
    ∃ code p', Ends (tree.toStatement (.store sink)) (c.context m loops) ⟨m.scope, []⟩ code () p' ∧
      (c.lower index loops (tree.toStatement (.store sink))).2.methods[index]? =
        some { m with scope := p'.scope, out := (Stmt.codePieces code).foldl layPiece m.out } ∧
      codeStores sink code = true ∧
      ∀ self σ events σ', Runs self σ (.code code) events .done σ' →
        ∃ value, .put sink.text value ∈ events := by
  obtain ⟨code, p', ends⟩ := ClassDraft.ends_of_lower found ok
  have left := (ClassDraft.lower_of_ends found opened ends).2
  have stores : codeStores sink code = true := by
    refine (tree.derives.statement _ ends).stores ?_
    simp [Destination.reaches, Java.Sink.takes]
  exact ⟨code, p', ends, left, stores, fun self σ events σ' runs => runs.stores stores rfl⟩

/-- A branch whose exceptions are handled: the guarded part is missing, another part follows it, which
    is a loop, and the handler returns if `c` holds. -/
def handledLoop : Tree :=
  let test : Tree := .node (.var "c") .boolean
  let leave : Tree := .node (.cond test (some (.node (.ret none) .void)) none) .void
  let loop : Tree := .node (.loop ⟨test, true, false, some (.node (.jump .break) .void), false, none,
    none, none⟩) .void
  .node (.cond test (some (.node (.rescue none [⟨[], none, some leave⟩] (some loop)) .object)) none)
    .object

theorem handledLoop_stored :
    let m : MethodDraft :=
      (MethodDraft.ofSignature ⟨"run", .member, .void, [⟨"c", .boolean⟩], []⟩ 2).start
    let c : ClassDraft := ⟨"a.mirah", none, "A", .classType .object false, [], [], .ofStep 2, [], [m],
      true, {}⟩
    c.methods[0]? = some m ∧ m.stage = .opened ∧
      (c.lower 0 [] (handledLoop.toStatement (.store (.into (tempName 1))))).1 = .ok () ∧
      ∃ code p', Ends (handledLoop.toStatement (.store (.into (tempName 1)))) (c.context m [])
          ⟨m.scope, []⟩ code () p' ∧
        (c.lower 0 [] (handledLoop.toStatement (.store (.into (tempName 1))))).2.methods[0]? =
          some { m with scope := p'.scope, out := (Stmt.codePieces code).foldl layPiece m.out } ∧
        codeStores (.into (tempName 1)) code = true ∧
        ∀ self σ events σ', Runs self σ (.code code) events .done σ' →
          ∃ value, .put (Sink.into (tempName 1)).text value ∈ events := by
  intro m c
  have found : c.methods[0]? = some m := rfl
  have opened : m.stage = .opened := rfl
  have ok : (c.lower 0 [] (handledLoop.toStatement (.store (.into (tempName 1))))).1 = .ok () := rfl
  exact ⟨found, opened, ok, value_stored_on_every_path found opened ok⟩

end JavaBackend
