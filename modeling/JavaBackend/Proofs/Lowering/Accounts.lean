import JavaBackend.Proofs.Lowering.Loops

/-!
# Accounts of lowering

Two things are said of all computations that lower nodes, of those that fail, too: which jump they are
refused for, and what they leave behind. Each is said of a computation and of the parts that it lowers, in
order. An `Account` is a statement of this form with a rule for each way to build a computation. From the
rules it follows for every node that lowers its parts in order and does nothing else of its own
(`Account.covers_node`), for handlers of exceptions, and for a loop behind its start. Jumps, declarations and
uses of fields are left to each account.
-/

namespace JavaBackend

open Java (Stmt Code Piece Expr Test Handler Sink)
open Lower

variable {α β γ : Type}

/-- A statement that declares nothing, is no jump and has no statements in it. -/
def Java.Stmt.isLine : Stmt → Bool
  | .store _ _ | .setField _ _ | .eval _ | .print _ _ | .ret => true
  | _ => false

/-- A part that is lowered in its turn. -/
structure Turn where
  part : Part
  /-- Whether the body of the loop may be run again whose pass it is in. -/
  within : Option Bool

namespace Turn

/-- A part in no loop of its own. -/
def of (part : Part) : Turn := ⟨part, none⟩

/-- The turn in a pass of one more loop. -/
def inLoop (redo : Bool) (turn : Turn) : Turn := { turn with within := turn.within.or (some redo) }

end Turn

/-- What is left of a loop behind its start. A condition that is held in a variable is evaluated at the
    end of a pass, and in front of the loop only if it is tested first. -/
def Loop.turns (spec : Loop Part) (held : Bool) : List Turn :=
  (if held && !spec.checkFirst then [] else [.of spec.cond]) ++
    ((spec.pre.toList ++ spec.body.toList ++ spec.post.toList).map Turn.of ++
      if held then [Turn.of spec.cond] else []).map (.inLoop spec.redo)

/-- The body of a clause, once for each type that it handles. -/
def RescueClause.turns (clause : RescueClause Part) : List Turn :=
  (if clause.types.isEmpty then [anyException] else clause.types).flatMap fun _ => clause.body.toList.map .of

/-- Lowering the node is lowering its parts in order. -/
def Kind.isStraight : Kind α → Bool
  | .assign _ _ | .field _ _ | .setField _ _ _ | .loop _ | .forEach _ | .jump _ | .ret _ | .rescue _ _ _ =>
    false
  | _ => true

/-- What is laid out around a block: its opening, the statement that it becomes part of, and the types of
    the variables that this declares. -/
inductive Around : List Piece → (Code → Stmt) → List JavaType → Prop
  | loop (checkFirst : Bool) (test : Test) :
    Around [loopOpening checkFirst test] (loopStmt checkFirst test) []
  | block : Around [.opening ""] .block []
  | again (test : Test) : Around [.opening "do"] (.doLoop · test) []
  | each (element : JavaType) (var : String) (iterable : Expr) :
    Around [.opening (Java.forHeading element var iterable)] (.forEach element var iterable) [element]
  | labeled {opening : List Piece} {stmt : Code → Stmt} {types : List JavaType}
    (around : Around opening stmt types) (label : String) :
    Around (labelPiece label :: opening) (fun code => .labeled label (stmt code)) types

/-- What is said of computations that lower parts in order, by a rule for each way to build one. -/
structure Account where
  /-- What a block may change. -/
  Index : Type
  Of {α : Type} : Index → Lower α → List Turn → Prop
  /-- Handlers are added behind others, for the exceptions of some code. -/
  Adds : Index → Code → (List (Handler Code) → Lower (List (Handler Code))) → List Turn → Prop
  /-- The types that variables may be declared with. -/
  Types : Index → JavaType → Prop
  /-- Inside of a block that declares a variable, or none. -/
  bind : Index → Option String → Index
  bind_none (i : Index) : bind i none = i
  object (i : Index) : Types i .object
  boolean (i : Index) : Types i .boolean
  types_bind {i type} (allowed : Types i type) (name : String) : Types (bind i (some name)) type
  /-- The choice between two computations may depend on the progress. -/
  of_apply {α : Type} {i turns} {m : Lower α}
    (choice : ∀ ctx p, ∃ m', m ctx p = m' ctx p ∧ Of i m' turns) : Of i m turns
  of_pure {α : Type} {i} (a : α) : Of i (pure a) []
  of_bind {α β : Type} {i turns more} {m : Lower α} {g : α → Lower β}
    (first : Of i m turns) (next : ∀ a, Of i (g a) more) : Of i (m >>= g) (turns ++ more)
  of_context {i} : Of i context []
  of_emit {i stmt} (line : stmt.isLine = true) : Of i (emit stmt) []
  of_newTemp {i type} (allowed : Types i type) (init : Expr) : Of i (newTemp type init) []
  of_freshName {i} : Of i freshName []
  of_freshLabel {i} : Of i freshLabel []
  of_ifThen {i turns} {body : Lower Unit} (first : Of i body turns) (test : Test) :
    Of i (do
      let code ← block [Piece.opening (Java.ifHeading test)] body
      emit (.ifThen test code)) turns
  of_ifElse {i turns more} {yes no : Lower Unit} (first : Of i yes turns)
    (second : Of i no more) (test : Test) :
    Of i (do
      let code ← block [Piece.opening (Java.ifHeading test)] yes
      let other ← block (.opening (Java.ifHeading test) :: (Stmt.codePieces code ++ [.next "else"])) no
      emit (.ifElse test code other)) (turns ++ more)
  of_tryFinally {i turns more} {body cleanup : Lower Unit} (first : Of i body turns)
    (second : Of i cleanup more) :
    Of i (do
      let code ← block [Piece.opening "try"] body
      let last ← block (Piece.opening "try" :: (Stmt.codePieces code ++ [.next "finally"])) cleanup
      emit (.tryFinally code last)) (turns ++ more)
  of_tryCatch {i turns more} {body : Lower Unit}
    {add : Code → List (Handler Code) → Lower (List (Handler Code))} (first : Of i body turns)
    (second : ∀ code, Adds i code (add code) more) :
    Of i (do
      let code ← block [Piece.opening "try"] body
      let handlers ← add code []
      emit (.tryCatch code handlers)) (turns ++ more)
  adds_pure {i code} : Adds i code pure []
  adds_bind {i code turns more}
    {add others : List (Handler Code) → Lower (List (Handler Code))} (first : Adds i code add turns)
    (second : Adds i code others more) : Adds i code (fun handlers => add handlers >>= others) (turns ++ more)
  /-- A handler with a variable of its own. -/
  adds_fresh {i code turns} {body : String → Lower Unit}
    (lowered : ∀ name, Of i (body name) turns) (type : JavaType) :
    Adds i code (fun handlers => do
      let name ← freshName
      let inner ← block (Piece.opening "try" :: Stmt.codePieces code ++ Stmt.handlersPieces handlers ++
        [Piece.next (Java.catchHeading type name)]) (body name)
      return handlers ++ [⟨type, name, inner⟩]) turns
  /-- A handler whose variable is the one that its clause names. -/
  adds_named {i code name turns} {body : Lower Unit} (lowered : Of (bind i (some name)) body turns)
    (type : JavaType) :
    Adds i code (fun handlers => do
      let inner ← block (Piece.opening "try" :: Stmt.codePieces code ++ Stmt.handlersPieces handlers ++
        [Piece.next (Java.catchHeading type name)]) (withLocal name type body)
      return handlers ++ [⟨type, name, inner⟩]) turns
  /-- Whether a name is known decides which handlers are added. -/
  adds_isLocal_bind {i code name turns} {add : Bool → List (Handler Code) → Lower (List (Handler Code))}
    (known : Adds (bind i (some name)) code (add true) turns) (unknown : Adds i code (add false) turns) :
    Adds i code (fun handlers => isLocal name >>= fun known => add known handlers) turns
  of_around {i opening stmt types turns} {body : Lower Unit} (around : Around opening stmt types)
    (allowed : ∀ type ∈ types, Types i type) (lowered : Of i body turns) :
    Of i (do
      let code ← block opening body
      emit (stmt code)) turns
  of_inLoop {i turns} {m : Lower Unit} (lowered : Of i m turns) (loop : EnclosingLoop) :
    Of i (inLoop loop m) (turns.map (.inLoop (loop.labels.isSome && loop.redoFlag.isSome)))
  of_withLocal {i name turns} {m : Lower Unit} (lowered : Of (bind i (some name)) m turns) (type : JavaType) :
    Of i (withLocal name type m) turns
  /-- Whether a name is known decides which computation is run. -/
  of_isLocal_bind {i name turns} {g : Bool → Lower Unit} (known : Of (bind i (some name)) (g true) turns)
    (unknown : Of i (g false) turns) : Of i (isLocal name >>= g) turns
  of_node {α : Type} {i kind} {m : Lower α} (straight : kind.isStraight = true)
    (lowered : Of i m (kind.children.map fun child => .of child.part)) (type : JavaType) :
    Of i m [.of (Tree.node kind type).part]

namespace Account

variable {A : Account} {i : A.Index} {turns : List Turn}

/-- No part is lowered behind. -/
theorem of_then {m : Lower α} {g : α → Lower β} (first : A.Of i m turns) (next : ∀ a, A.Of i (g a) []) :
    A.Of i (m >>= g) turns :=
  List.append_nil turns ▸ A.of_bind first next

/-- No part is lowered in front. -/
theorem of_after {m : Lower α} {g : α → Lower β} (first : A.Of i m []) (next : ∀ a, A.Of i (g a) turns) :
    A.Of i (m >>= g) turns :=
  A.of_bind first next

theorem of_map {m : Lower α} (lowered : A.Of i m turns) (g : α → β) : A.Of i (g <$> m) turns := by
  rw [← bind_pure_comp]
  exact of_then lowered fun _ => A.of_pure _

theorem of_mapM {rule : Part → Lower β} (items : List Part)
    (each : ∀ part ∈ items, A.Of i (rule part) [.of part]) :
    A.Of i (items.mapM rule) (items.map .of) := by
  induction items with
  | nil => exact A.of_pure []
  | cons part rest ih =>
    rw [List.mapM_cons]
    refine A.of_bind (each part List.mem_cons_self) fun a => ?_
    exact of_then (ih fun other mem => each other (List.mem_cons_of_mem _ mem)) fun as => A.of_pure _

/-! ## Values -/

/-- The account holds of both ways to lower the part. -/
structure Covers (A : Account) (i : A.Index) (part : Part) : Prop where
  held : A.Types i part.tree.type.held
  inline : A.Of i part.toInline [.of part]
  statement : ∀ dest, A.Of i (part.toStatement dest) [.of part]

theorem of_toTemp {part : Part} (held : A.Types i part.tree.type.held)
    (statement : ∀ dest, A.Of i (part.toStatement dest) [.of part]) :
    A.Of i part.toTemp [.of part] := by
  have looped : A.Of i (do
      part.toStatement .discard
      let name ← newTemp .object (.literal .null)
      return (⟨name, none⟩ : Temp)) [.of part] :=
    of_then (statement .discard) fun _ => of_then (A.of_newTemp (A.object i) _) fun _ => A.of_pure _
  unfold Part.toTemp
  split
  · exact looped
  · exact looped
  · exact of_then (statement .discard) fun _ => A.of_pure _
  · refine of_after (A.of_newTemp held _) fun name => ?_
    exact of_then (statement (.store (.into name))) fun _ => A.of_pure _

namespace Covers

variable {part : Part}

theorem toTemp (covers : A.Covers i part) : A.Of i part.toTemp [.of part] :=
  of_toTemp covers.held covers.statement

theorem toExpr (covers : A.Covers i part) : A.Of i part.toExpr [.of part] := by
  refine A.of_apply fun ctx p => ?_
  rw [Part.toExpr_apply]
  split
  · exact ⟨_, rfl, covers.inline⟩
  · exact ⟨_, rfl, of_map covers.toTemp _⟩

theorem toFreshTemp (covers : A.Covers i part) : A.Of i part.toFreshTemp [.of part] := by
  refine A.of_apply fun ctx p => ?_
  rw [Part.toFreshTemp_apply]
  split
  · refine ⟨_, rfl, of_then covers.inline fun init => ?_⟩
    exact of_then (A.of_newTemp covers.held _) fun _ => A.of_pure _
  · exact ⟨_, rfl, covers.toTemp⟩

theorem toFixed (covers : A.Covers i part) : A.Of i part.toFixed [.of part] := by
  have viaTemp : A.Of i (do return Expr.var (← part.toFreshTemp).name) [.of part] :=
    of_then covers.toFreshTemp fun _ => A.of_pure _
  unfold Part.toFixed
  split
  · exact covers.inline
  · exact covers.inline
  · exact viaTemp

theorem toKept (covers : A.Covers i part) : A.Of i part.toKept [.of part] := by
  unfold Part.toKept
  split
  · exact covers.inline
  · exact covers.inline
  · exact of_map covers.toFreshTemp _

end Covers

theorem of_operandRule_bind {items : List Part} {g : (Part → Lower Expr) → Lower α}
    (inPlace : A.Of i (g Part.toInline) turns) (before : A.Of i (g Part.toFixed) turns) :
    A.Of i (operandRule items >>= g) turns := by
  refine A.of_apply fun ctx p => ?_
  rw [operandRule_bind]
  split
  · exact ⟨_, rfl, inPlace⟩
  · exact ⟨_, rfl, before⟩

theorem of_operandValues {items : List Part} (covers : ∀ part ∈ items, A.Covers i part) :
    A.Of i (operandValues items) (items.map .of) :=
  of_operandRule_bind (of_mapM items fun part mem => (covers part mem).inline)
    (of_mapM items fun part mem => (covers part mem).toFixed)

theorem of_putValue (dest : Destination) (value : Expr) : A.Of i (putValue dest value) [] := by
  cases dest with
  | discard => exact A.of_pure ()
  | store sink => exact A.of_emit rfl

theorem of_putEffect (dest : Destination) (value : Expr) : A.Of i (putEffect dest value) [] := by
  cases dest <;> exact A.of_emit rfl

theorem of_copyInto (name : Option String) (copied : String) : A.Of i (copyInto name copied) [] := by
  cases name with
  | none => exact A.of_pure ()
  | some name => exact A.of_emit rfl

theorem of_lowerArm {arm : Option Part} (covers : ∀ part ∈ arm, A.Covers i part) (dest : Destination)
    (type : JavaType) : A.Of i (lowerArm arm dest type) (arm.toList.map .of) := by
  cases arm with
  | none => exact of_putValue _ _
  | some part => exact (covers part rfl).statement dest

theorem of_lowerEffects {arm : Option Part} (covers : ∀ part ∈ arm, A.Covers i part) :
    A.Of i (lowerEffects arm) (arm.toList.map .of) := by
  cases arm with
  | none => exact A.of_pure ()
  | some part => exact (covers part rfl).statement .discard

/-! ## Statements -/

theorem of_fieldExpr (name : String) (isStatic : Bool) : A.Of i (fieldExpr name isStatic) [] :=
  of_then A.of_context fun _ => A.of_pure _

theorem of_ownReceiver : A.Of i ownReceiver [] := of_then A.of_context fun _ => A.of_pure _

/-- A call whose operands are evaluated by one rule. -/
theorem of_callWith {receiver : Receiver Part} {args : List Part} {rule : Part → Lower Expr}
    (each : ∀ part ∈ receiver.toList ++ args, A.Of i (rule part) [.of part]) (method : String) :
    A.Of i (do
      let target ←
        match receiver with
        | .implicit => ownReceiver
        | .named type => pure (.owner type.source)
        | .value target => rule target
      return Expr.call target method (← args.mapM rule)) ((receiver.toList ++ args).map .of) := by
  have call : ∀ target, A.Of i (do return Expr.call target method (← args.mapM rule))
      (args.map .of) := fun target =>
    of_then (of_mapM args fun part mem => each part (List.mem_append_right _ mem)) fun _ => A.of_pure _
  cases receiver with
  | implicit => exact of_after of_ownReceiver call
  | named type => exact of_after (A.of_pure _) call
  | value target => exact A.of_bind (each target List.mem_cons_self) call

theorem of_callExpr {receiver : Receiver Part} {args : List Part}
    (covers : ∀ part ∈ receiver.toList ++ args, A.Covers i part) (method : String) :
    A.Of i (callExpr receiver method args) ((receiver.toList ++ args).map .of) :=
  of_operandRule_bind (of_callWith (fun part mem => (covers part mem).inline) method)
    (of_callWith (fun part mem => (covers part mem).toFixed) method)

theorem of_voidReceiver {receiver : Receiver Part} (covers : ∀ part ∈ receiver.toList, A.Covers i part) :
    A.Of i (voidReceiver receiver) (receiver.toList.map .of) := by
  cases receiver with
  | implicit => exact of_after A.of_context fun _ => of_then of_ownReceiver fun _ => A.of_pure _
  | named type => exact A.of_pure _
  | value target =>
    rw [voidReceiver_value]
    exact of_map (covers target (List.mem_singleton_self target)).toKept _

theorem of_lowerCall {receiver : Receiver Part} {args : List Part}
    (covers : ∀ part ∈ receiver.toList ++ args, A.Covers i part) (method : String) (returns : JavaType)
    (dest : Destination) :
    A.Of i (lowerCall receiver method args returns dest) ((receiver.toList ++ args).map .of) := by
  unfold lowerCall
  split
  · rw [List.forall_mem_append] at covers
    rw [List.map_append]
    refine A.of_bind (of_voidReceiver covers.1) fun _ => ?_
    refine of_then (of_operandValues covers.2) fun _ => ?_
    exact of_then (A.of_emit rfl) fun _ => of_putValue _ _
  · exact of_then (of_callExpr covers method) fun _ => of_putEffect _ _

section Branches

variable {test left right : Part} {yes no : Option Part}

theorem of_lowerCond (testCovers : A.Covers i test) (yesCovers : ∀ part ∈ yes, A.Covers i part)
    (noCovers : ∀ part ∈ no, A.Covers i part) (type : JavaType) (dest : Destination) :
    A.Of i (lowerCond test yes no type dest)
      (.of test :: (yes.toList ++ no.toList).map .of) := by
  rw [List.map_append]
  refine A.of_bind testCovers.toExpr fun expr => ?_
  have first := of_lowerArm yesCovers dest type.held
  have both := A.of_ifElse first (of_lowerArm noCovers dest type.held) ⟨expr, false⟩
  cases no with
  | some part => exact both
  | none =>
    cases dest with
    | store sink => exact both
    | discard =>
      show A.Of i _ (_ ++ [])
      rw [List.append_nil]
      exact A.of_ifThen first _

theorem of_armExpr {arm : Option Part} (covers : ∀ part ∈ arm, A.Covers i part) (type : JavaType) :
    A.Of i (armExpr type arm) (arm.toList.map .of) := by
  cases arm with
  | none => exact A.of_pure _
  | some part => exact (covers part rfl).inline

theorem of_condExpr (testCovers : A.Covers i test) (yesCovers : ∀ part ∈ yes, A.Covers i part)
    (noCovers : ∀ part ∈ no, A.Covers i part) (type : JavaType) :
    A.Of i (condExpr test yes no type) (.of test :: (yes.toList ++ no.toList).map .of) := by
  rw [List.map_append]
  refine A.of_bind testCovers.inline fun _ => A.of_bind (of_armExpr yesCovers type) fun _ => ?_
  exact of_then (of_armExpr noCovers type) fun _ => A.of_pure _

theorem of_binaryExpr (leftCovers : A.Covers i left) (rightCovers : A.Covers i right) (op : BinaryOp) :
    A.Of i (binaryExpr op left right) [.of left, .of right] := by
  refine of_operandRule_bind ?_ ?_
  · exact A.of_bind leftCovers.inline fun _ => of_then rightCovers.inline fun _ => A.of_pure _
  · exact A.of_bind leftCovers.toFixed fun _ => of_then rightCovers.toFixed fun _ => A.of_pure _

theorem of_lowerLogical (leftCovers : A.Covers i left) (rightCovers : A.Covers i right) (decides : Bool)
    (dest : Destination) :
    A.Of i (lowerLogical decides left right dest) [.of left, .of right] := by
  refine A.of_bind leftCovers.toExpr fun expr => ?_
  have run := rightCovers.statement dest
  have skip : A.Of i (putValue dest (.literal (.bool decides))) [] := of_putValue _ _
  cases dest with
  | discard => exact A.of_ifThen run _
  | store sink =>
    cases decides with
    | true => exact A.of_ifElse skip run _
    | false => exact A.of_ifElse run skip _

end Branches

theorem of_lowerSeq (type : JavaType) (dest : Destination) (nodes : List Part)
    (covers : ∀ part ∈ nodes, A.Covers i part) :
    A.Of i (lowerSeq type dest nodes) (nodes.map .of) := by
  induction nodes with
  | nil => exact of_putValue _ _
  | cons first rest ih =>
    have firstCovers := covers first List.mem_cons_self
    cases rest with
    | nil => exact firstCovers.statement dest
    | cons second rest =>
      refine A.of_bind (firstCovers.statement .discard) fun _ => ?_
      exact ih fun part mem => covers part (List.mem_cons_of_mem first mem)

/-- A value that leaves the method: in place if it is an expression. -/
theorem of_lowerLeaving {value : Part} (covers : A.Covers i value) (sink : Sink) :
    A.Of i (do
      if ← value.isExpression then emit (.store sink (← value.toInline))
      else value.toStatement (.store sink)) [.of value] := by
  refine A.of_apply fun ctx p => ?_
  rw [Part.isExpression_bind]
  split
  · exact ⟨_, rfl, of_then covers.inline fun _ => A.of_emit rfl⟩
  · exact ⟨_, rfl, covers.statement _⟩

theorem of_lowerReturn {value : Option Part} (covers : ∀ part ∈ value, A.Covers i part) :
    A.Of i (lowerReturn value) (value.toList.map .of) := by
  cases value with
  | none => exact A.of_emit rfl
  | some part =>
    have partCovers := covers part rfl
    refine of_after A.of_context fun ctx => ?_
    split
    · exact of_then (partCovers.statement .discard) fun _ => A.of_emit rfl
    · exact of_lowerLeaving partCovers .result

theorem of_lowerPrint {value : Option Part} (covers : ∀ part ∈ value, A.Covers i part) (newline : Bool)
    (dest : Destination) : A.Of i (lowerPrint value newline dest) (value.toList.map .of) := by
  have rest : ∀ printed, A.Of i (do
      Lower.emit (.print newline printed)
      putValue dest (.literal .null)) [] := fun printed =>
    of_then (A.of_emit rfl) fun _ => of_putValue _ _
  cases value with
  | none => exact of_then (A.of_pure _) rest
  | some part => exact of_then (of_map (covers part rfl).toExpr _) rest

theorem of_guarded {body otherwise : Option Part} (bodyCovers : ∀ part ∈ body, A.Covers i part)
    (otherwiseCovers : ∀ part ∈ otherwise, A.Covers i part) (type : JavaType) (dest : Destination) :
    A.Of i (guarded body otherwise type dest) ((body.toList ++ otherwise.toList).map .of) := by
  rw [List.map_append]
  cases otherwise with
  | none => exact (List.append_nil _).symm ▸ of_lowerArm bodyCovers dest type
  | some part =>
    refine A.of_bind (of_lowerArm bodyCovers .discard type) fun _ => ?_
    exact (otherwiseCovers part rfl).statement dest

/-- An assignment, if the declaration of its variable lowers no part. -/
theorem of_lowerAssign {value : Part} (covers : A.Covers i value) {name : String} {type : JavaType}
    (declares : ∀ init, A.Of i (declareLocal type.held name init) []) (dest : Destination) :
    A.Of i (lowerAssign name value type dest) [.of value] := by
  refine of_then covers.toExpr fun expr => A.of_apply fun ctx p => ?_
  rw [Lower.isLocal_bind]
  refine ⟨_, rfl, ?_⟩
  split
  · exact of_then (A.of_emit rfl) fun _ => of_putValue _ _
  · exact of_then (declares _) fun _ => of_putValue _ _

theorem of_assignField {value : Part} (covers : A.Covers i value) (name : String) (isStatic : Bool)
    (dest : Destination) :
    A.Of i (do
      let value ← value.toExpr
      let field ← fieldExpr name isStatic
      Lower.emit (.setField field value)
      putValue dest field) [.of value] := by
  refine of_then covers.toExpr fun _ => of_then (of_fieldExpr name isStatic) fun _ => ?_
  exact of_then (A.of_emit rfl) fun _ => of_putValue _ _

/-! ## Exceptions -/

section Handlers

variable {code : Code} {clause : RescueClause Part}

theorem adds_foldlM {add : List (Handler Code) → γ → Lower (List (Handler Code))} {handled : γ → List Turn}
    (items : List γ) (each : ∀ item ∈ items, A.Adds i code (fun handlers => add handlers item) (handled item)) :
    A.Adds i code (fun handlers => items.foldlM add handlers) (items.flatMap handled) := by
  induction items with
  | nil => exact A.adds_pure
  | cons item rest ih =>
    simp only [List.foldlM_cons]
    refine A.adds_bind (each item List.mem_cons_self) ?_
    exact ih fun other mem => each other (List.mem_cons_of_mem _ mem)

/-- A handler with a variable of its own. -/
theorem adds_addHandler {body : Lower Unit} (lowered : A.Of i body turns) {known : Bool}
    (own : clause.name.isSome = true → known = true) (type : JavaType) :
    A.Adds i code (fun handlers => addHandler (Thunk.mk fun _ => .opening "try" :: Stmt.codePieces code)
      clause known body handlers type) turns := by
  have copied := fun name => of_after (of_copyInto clause.name name) fun _ => lowered
  unfold addHandler
  dsimp only
  cases named : clause.name with
  | none => exact A.adds_fresh (named ▸ copied) type
  | some name =>
    cases own (by rw [named]; rfl)
    exact A.adds_fresh (named ▸ copied) type

/-- A clause has a handler for each of its types, and one at least. -/
theorem adds_addHandlers (covers : ∀ part ∈ clause.body, A.Covers (A.bind i clause.name) part)
    (dest : Destination) (type : JavaType) :
    A.Adds i code (fun handlers => addHandlers (Thunk.mk fun _ => .opening "try" :: Stmt.codePieces code)
      dest type handlers clause) clause.turns := by
  have body := of_lowerArm covers dest type
  unfold addHandlers RescueClause.turns
  dsimp only
  cases named : clause.name with
  | none =>
    rw [named, A.bind_none] at body
    simp only [pure_bind]
    refine adds_foldlM _ fun type _ => adds_addHandler body ?_ type
    rw [named]
    exact nofun
  | some name =>
    rw [named] at body
    refine A.adds_isLocal_bind ?_ ?_
    · exact adds_foldlM _ fun type _ => adds_addHandler body (fun _ => rfl) type
    · refine adds_foldlM _ fun type _ => ?_
      unfold addHandler
      rw [named]
      exact A.adds_named body type

theorem of_lowerRescue {body otherwise : Option Part} {clauses : List (RescueClause Part)}
    (bodyCovers : ∀ part ∈ body, A.Covers i part)
    (clausesCover : ∀ clause ∈ clauses, ∀ part ∈ clause.body, A.Covers (A.bind i clause.name) part)
    (otherwiseCovers : ∀ part ∈ otherwise, A.Covers i part) (type : JavaType) (dest : Destination) :
    A.Of i (lowerRescue body clauses otherwise type dest)
      ((body.toList ++ otherwise.toList).map .of ++ clauses.flatMap (·.turns)) := by
  have main := of_guarded bodyCovers otherwiseCovers type.held dest
  cases clauses with
  | nil => exact (List.append_nil _).symm ▸ main
  | cons first rest =>
    refine A.of_tryCatch main fun code => adds_foldlM (first :: rest) fun clause mem => ?_
    exact adds_addHandlers (clausesCover clause mem) dest type.held

end Handlers

/-! ## Nodes -/

/-- The account holds of both ways to lower a node. -/
structure Describes (A : Account) (i : A.Index) (lowering : Lowering) (turns : List Turn) : Prop where
  inline : ∀ m ∈ lowering.inline, A.Of i m turns
  statement : ∀ dest, A.Of i (lowering.statement dest) turns

theorem describes_of {inline : Lower Expr} {statement : Destination → Lower Unit}
    (value : A.Of i inline turns) (lowered : ∀ dest, A.Of i (statement dest) turns) :
    A.Describes i ⟨some inline, statement⟩ turns where
  inline m mem := by
    cases mem
    exact value
  statement := lowered

theorem describes_ofStatement {statement : Destination → Lower Unit}
    (lowered : ∀ dest, A.Of i (statement dest) turns) : A.Describes i (.ofStatement statement) turns where
  inline _ mem := nomatch mem
  statement := lowered

theorem describes_ofValue {children : List Part} {value : Lower Expr}
    (covers : ∀ part ∈ children, A.Covers i part) (own : A.Of i value (children.map .of)) :
    A.Describes i (.ofValue children value) (children.map .of) := by
  refine describes_of own fun dest => ?_
  cases dest with
  | discard =>
    clear own
    induction children with
    | nil => exact A.of_pure ()
    | cons part rest ih =>
      refine A.of_bind ((covers part List.mem_cons_self).statement .discard) fun _ => ?_
      exact ih fun other mem => covers other (List.mem_cons_of_mem _ mem)
  | store sink => exact of_then own fun _ => A.of_emit rfl

/-- A node that builds an expression around the value of its only child. -/
theorem describes_ofValue_singleton {operand : Part} (covers : A.Covers i operand) (build : Expr → Expr) :
    A.Describes i (.ofValue [operand] (do return build (← operand.toExpr))) [.of operand] :=
  describes_ofValue (List.forall_mem_singleton.mpr covers) (of_then covers.toExpr fun _ => A.of_pure _)

/-- A node that lowers its parts in order and does nothing else of its own. -/
theorem describes_node {kind : Kind Part} (straight : kind.isStraight = true)
    (covers : ∀ part ∈ kind.children, A.Covers i part) (type : JavaType) :
    A.Describes i (kind.lowering type) (kind.children.map .of) := by
  have leaf : ∀ value, A.Describes i (.ofValue [] (pure value)) [] :=
    fun value => describes_ofValue (List.forall_mem_nil _) (A.of_pure value)
  cases kind with
  | assign _ _ | field _ _ | setField _ _ _ | loop _ | forEach _ | jump _ | ret _ | rescue _ _ _ =>
    cases straight
  | literal literal => exact leaf _
  | self => exact leaf _
  | var name => exact leaf _
  | unary op operand => exact describes_ofValue_singleton (covers _ List.mem_cons_self) _
  | isNull operand => exact describes_ofValue_singleton (covers _ List.mem_cons_self) _
  | instanceOf operand type => exact describes_ofValue_singleton (covers _ List.mem_cons_self) _
  | cast type operand => exact describes_ofValue_singleton (covers _ List.mem_cons_self) _
  | newArray component size => exact describes_ofValue_singleton (covers _ List.mem_cons_self) _
  | concat nodes => exact describes_ofValue covers (of_then (of_operandValues covers) fun _ => A.of_pure _)
  | call receiver method args returns =>
    refine ⟨fun m mem => ?_, of_lowerCall covers method returns⟩
    simp only [Kind.lowering] at mem
    split at mem
    · cases mem
    · cases mem
      exact of_callExpr covers method
  | new owner args =>
    have built := of_then (of_operandValues covers) fun values => A.of_pure (Expr.new owner values)
    exact describes_of built fun dest => of_then built fun _ => of_putEffect dest _
  | binary op left right =>
    have leftCovers := covers left List.mem_cons_self
    have rightCovers := covers right (List.mem_cons_of_mem _ List.mem_cons_self)
    have value := of_binaryExpr leftCovers rightCovers op
    have logical := of_lowerLogical leftCovers rightCovers
    cases op with
    | and => exact describes_of value (logical false)
    | or => exact describes_of value (logical true)
    | _ => exact describes_ofValue covers value
  | cond test yes no =>
    have testCovers := covers test List.mem_cons_self
    have yesCovers : ∀ part ∈ yes, A.Covers i part := fun part mem =>
      covers part (by simp [Kind.children, Option.mem_def.mp mem])
    have noCovers : ∀ part ∈ no, A.Covers i part := fun part mem =>
      covers part (by simp [Kind.children, Option.mem_def.mp mem])
    exact describes_of (of_condExpr testCovers yesCovers noCovers type)
      (of_lowerCond testCovers yesCovers noCovers type)
  | seq nodes => exact describes_ofStatement fun dest => of_lowerSeq type dest nodes covers
  | raise value =>
    exact describes_ofStatement fun _ => of_lowerLeaving (covers value List.mem_cons_self) .thrown
  | ensure body cleanup =>
    have bodyCovers := covers body List.mem_cons_self
    have cleanupCovers := covers cleanup (List.mem_cons_of_mem _ List.mem_cons_self)
    exact describes_ofStatement fun dest =>
      A.of_tryFinally (bodyCovers.statement dest) (cleanupCovers.statement .discard)
  | print value newline =>
    exact describes_ofStatement
      (of_lowerPrint (fun part mem => covers part (Option.mem_toList.mpr mem)) newline)

/-- The account holds of all ways to ask for a tree if it holds of both ways to lower its root. -/
theorem covers_of_describes {tree : Tree} (allowed : A.Types i tree.type.held)
    (describes : A.Describes i tree.lowering [.of tree.part]) : A.Covers i tree.part := by
  have held : A.Of i tree.part.toTemp [.of tree.part] := of_toTemp allowed describes.statement
  have temp : A.Of i tree.part.toTempVar [.of tree.part] := of_map held _
  refine ⟨allowed, A.of_apply fun ctx p => ?_, describes.statement⟩
  rw [Part.toInline_apply]
  split
  · next inline own =>
    split
    · exact ⟨inline, rfl, describes.inline inline own⟩
    · exact ⟨_, rfl, temp⟩
  · exact ⟨_, rfl, temp⟩

theorem covers_node {kind : Kind Tree} {type : JavaType} (straight : kind.isStraight = true)
    (held : A.Types i type.held) (covers : ∀ tree ∈ kind.children, A.Covers i tree.part) :
    A.Covers i (Tree.node kind type).part := by
  have same : (kind.map Tree.part).isStraight = true := by
    cases kind <;> exact straight
  have children : ∀ part ∈ (kind.map Tree.part).children, A.Covers i part := by
    rw [Kind.children_map]
    exact List.forall_mem_map.mpr covers
  have node := describes_node same children type
  rw [Kind.children_map, List.map_map] at node
  refine covers_of_describes held ?_
  rw [Tree.lowering_node]
  exact ⟨fun m mem => A.of_node straight (node.inline m mem) type,
    fun dest => A.of_node straight (node.statement dest) type⟩

end Account

/-! ## Loops -/

namespace Account

variable {A : Account} {i : A.Index} {turns last : List Turn} {spec : Loop Part}

theorem of_lowerLabeledBody {body : Option Part} (covers : ∀ part ∈ body, A.Covers i part) (inner : String)
    (flag : Option String) : A.Of i (lowerLabeledBody body inner flag) (body.toList.map .of) := by
  have effects := of_lowerEffects covers
  cases flag with
  | none => exact A.of_around (.labeled .block inner) (List.forall_mem_nil _) effects
  | some flag =>
    refine A.of_around (.labeled (.again _) inner) (List.forall_mem_nil _) ?_
    exact of_after (A.of_emit rfl) fun _ => effects

theorem of_lowerPlainLoop (covers : spec.Each (A.Covers i)) {isLocal : String → Bool}
    (plain : spec.isLabeled isLocal = false) : A.Of i (lowerPlainLoop spec) (spec.turns false) := by
  obtain ⟨redo, post, -⟩ := Loop.isLabeled_eq_false plain
  have turns : spec.turns false = .of spec.cond ::
      ((spec.pre.toList ++ spec.body.toList).map .of).map (.inLoop false) := by
    simp [Loop.turns, redo, post]
  rw [turns]
  refine A.of_bind covers.cond.inline fun cond => ?_
  refine A.of_around (.loop _ _) (List.forall_mem_nil _) (A.of_inLoop ?_ ⟨.plainWhile, none, none⟩)
  rw [List.map_append]
  exact A.of_bind (of_lowerEffects covers.pre) fun _ => of_lowerEffects covers.body

/-- A pass of a loop, which evaluates the condition again at its end if that is held in a variable. -/
theorem of_lowerPass (covers : spec.Each (A.Covers i)) {held : Option Temp}
    (again : A.Of i (match held with | some held => held.refresh | none => pure ()) last) (inner : String)
    (flag : Option String) : A.Of i (lowerPass spec inner flag held)
      ((spec.pre.toList ++ spec.body.toList ++ spec.post.toList).map .of ++ last) := by
  rw [List.map_append, List.map_append, List.append_assoc, List.append_assoc]
  refine A.of_bind (of_lowerEffects covers.pre) fun _ => ?_
  refine A.of_bind (of_lowerLabeledBody covers.body inner flag) fun _ => ?_
  exact A.of_bind (of_lowerEffects covers.post) fun _ => again

theorem of_lowerTestedLoop (covers : spec.Each (A.Covers i)) (held : Option Temp)
    (again : A.Of i (match held with | some held => held.refresh | none => pure ()) last) (cond : Expr) :
    A.Of i (lowerTestedLoop spec cond held)
      (((spec.pre.toList ++ spec.body.toList ++ spec.post.toList).map Turn.of ++ last).map
        (.inLoop spec.redo)) := by
  refine of_after A.of_freshLabel fun outer => of_after A.of_freshLabel fun inner => ?_
  refine A.of_around (.labeled (.loop _ _) outer) (List.forall_mem_nil _) ?_
  have pass := of_lowerPass covers again inner
  -- There is a flag just if the body may be run again.
  cases redo : spec.redo with
  | true =>
    rw [if_pos rfl, bind_map_left]
    exact of_after (A.of_newTemp (A.boolean i) _) fun name => A.of_inLoop (pass (some name)) _
  | false =>
    rw [if_neg Bool.false_ne_true, pure_bind]
    exact A.of_inLoop (pass none) _

/-- A condition that needs statements is held in a variable. -/
theorem of_lowerLabeledLoop (covers : spec.Each (A.Covers i)) (ctx : Context) (p : Progress) :
    ∃ m, lowerLabeledLoop spec ctx p = m ctx p ∧
      A.Of i m (spec.turns !spec.cond.tree.isExpression p.scope.isLocal) := by
  refine ⟨_, lowerLabeledLoop_apply spec ctx p, ?_⟩
  unfold Loop.turns
  cases spec.cond.tree.isExpression p.scope.isLocal with
  | true => exact A.of_bind covers.cond.inline fun cond => of_lowerTestedLoop covers none (A.of_pure ()) cond
  | false =>
    refine of_after (A.of_newTemp (A.boolean i) _) fun name => ?_
    have refresh : A.Of i (Temp.refresh ⟨name, some spec.cond⟩) [.of spec.cond] :=
      covers.cond.statement (.store (.into name))
    have rest := of_lowerTestedLoop covers (some ⟨name, some spec.cond⟩) refresh (.var name)
    cases spec.checkFirst with
    | true => exact A.of_bind refresh fun _ => rest
    | false => exact A.of_bind (A.of_pure ()) fun _ => rest

theorem of_lowerElements {spec : ForEach Part} {j : A.Index} (copyOf : Option String)
    (element : A.Types i (spec.iterable.tree.type.component?.getD .object))
    (covers : ∀ part ∈ spec.body, A.Covers j part)
    (each : ∀ body element, A.Of j body (spec.body.toList.map .of) →
      A.Of i (eachBody spec element copyOf body) turns) (iterable : Expr) :
    A.Of i (lowerElements spec iterable copyOf) (turns.map (.inLoop spec.redo)) := by
  have declared := List.forall_mem_singleton.mpr element
  unfold lowerElements
  cases spec.redo with
  | true =>
    refine of_after A.of_freshLabel fun outer => of_after A.of_freshLabel fun inner => ?_
    refine A.of_around (.labeled (.each _ _ _) outer) declared (of_after (of_copyInto _ _) fun _ => ?_)
    refine of_after (A.of_newTemp (A.boolean i) _) fun flag => A.of_inLoop ?_ _
    exact each _ _ (of_lowerLabeledBody covers inner (some flag))
  | false =>
    refine A.of_around (.each _ _ _) declared (of_after (of_copyInto _ _) fun _ => A.of_inLoop ?_ _)
    exact each _ _ (of_lowerEffects covers)

/-- The loop has a variable of its own if the element's name is known. -/
theorem of_elements {spec : ForEach Part} (covers : A.Covers i spec.iterable)
    (element : A.Types i (spec.iterable.tree.type.component?.getD .object))
    (bodyCovers : ∀ part ∈ spec.body, A.Covers (A.bind i (some spec.var)) part) :
    A.Of i (spec.iterable.toExpr >>= fun iterable =>
        eachCopy spec >>= fun copyOf => lowerElements spec iterable copyOf)
      (.of spec.iterable :: spec.body.toList.map (⟨·, some spec.redo⟩)) := by
  refine A.of_bind covers.toExpr fun iterable => ?_
  unfold eachCopy
  rw [bind_assoc]
  refine A.of_isLocal_bind ?_ ?_
  · rw [if_pos rfl, bind_map_left]
    refine of_after A.of_freshName fun fresh => ?_
    have lowered := of_lowerElements (some fresh) (A.types_bind element _) bodyCovers
      (fun _ _ lowered => lowered) iterable
    rwa [List.map_map] at lowered
  · rw [if_neg Bool.false_ne_true, pure_bind]
    have lowered := of_lowerElements none element bodyCovers
      (fun _ type lowered => A.of_withLocal lowered type) iterable
    rwa [List.map_map] at lowered

end Account

end JavaBackend
