import JavaBackend.Proofs.Temps.Scope

/-!
# The temporaries of generated code

Lowering numbers its temporaries in the order of their introduction and uses them inside the block
that introduces them. `Lowers.fits` follows both through the rules: the names that a task may use
are those around its code, and what it gives may use those that its code declares, too.
-/

namespace JavaBackend

open Java (Stmt Code Piece Expr Test Handler Sink)
open Java.Stmt

/-! ## Numbers -/

/-- The names of the temporaries after number `n` up to number `m`, in order. -/
inductive Numbered : Nat → List String → Nat → Prop where
  | nil {n} : Numbered n [] n
  | cons {n names m} (rest : Numbered (n + 1) names m) :
    Numbered n (tempName (n + 1) :: names) m

namespace Numbered

variable {n m k : Nat} {names more : List String}

theorem append (first : Numbered n names m) (others : Numbered m more k) :
    Numbered n (names ++ more) k := by
  induction first with
  | nil => exact others
  | cons _ ih => exact .cons (ih others)

theorem single : Numbered n [tempName (n + 1)] (n + 1) := .cons .nil

theorem above (numbered : Numbered n names m) : ∀ name ∈ names, ∃ k, n < k ∧ name = tempName k := by
  induction numbered with
  | nil => simp
  | @cons n _ _ _ ih =>
    refine List.forall_mem_cons.mpr ⟨⟨n + 1, Nat.lt_succ_self n, rfl⟩, fun name mem => ?_⟩
    obtain ⟨k, more, same⟩ := ih name mem
    exact ⟨k, Nat.lt_of_succ_lt more, same⟩

theorem nodup (numbered : Numbered n names m) : names.Nodup := by
  induction numbered with
  | nil => exact List.nodup_nil
  | @cons n _ _ rest ih =>
    refine List.nodup_cons.mpr ⟨fun mem => ?_, ih⟩
    obtain ⟨k, more, same⟩ := rest.above _ mem
    exact Nat.ne_of_lt more (tempName_inj same)

end Numbered

/-! ## Words -/

namespace Word

variable {names : List String} {word : Word}

theorem Unmarked.seenIn (free : word.Unmarked) : word.SeenIn names := by
  intro name mem
  rw [free.temps_eq] at mem
  cases mem

theorem SeenIn.mono (seen : word.SeenIn names) (more : List String) : word.SeenIn (names ++ more) :=
  fun name mem => List.mem_append_left _ (seen name mem)

theorem standard_seenIn : Standard (SeenIn names) where
  object := standard_unmarked.object.seenIn
  boolean := standard_unmarked.boolean.seenIn
  exception := standard_unmarked.exception.seenIn
  component _ := (show Unmarked (.type _) from trivial).seenIn
  owner _ := (standard_unmarked.owner trivial).seenIn
  null := standard_unmarked.null.seenIn
  zero := standard_unmarked.zero.seenIn
  bool value := (standard_unmarked.bool value).seenIn

end Word

section

variable {names : List String} {words : List Word}

theorem OverAll.seenIn (free : OverAll Word.Unmarked words) : OverAll (·.SeenIn names) words :=
  fun word mem => (free word mem).seenIn

theorem OverAll.mono (seen : OverAll (·.SeenIn names) words) (more : List String) :
    OverAll (·.SeenIn (names ++ more)) words :=
  fun word mem => (seen word mem).mono more

theorem OverAll.named {name : String} (seen : OverAll (·.SeenIn names) [.var name]) :
    ∀ other ∈ some name, (Word.var other).SeenIn names := by
  rintro _ ⟨⟩
  exact seen _ List.mem_cons_self

end

/-! ## Tasks -/

/-- The temporaries that handlers introduce. -/
def Yield.introduced : Yield → List String
  | .handlers added => handlersIntroduced added
  | _ => []

/-- What a task gives may be used where the names are introduced. -/
def Yield.Scoped : Yield → List String → Prop
  | .handlers added, names => HandlersScoped added names
  | yield, names => OverAll (·.SeenIn names) yield.words

/-- The temporaries of code stay inside their blocks and have the numbers after `n` up to `m`. -/
structure Fits (names : List String) (n : Nat) (code : Code) (yield : Yield) (m : Nat) : Prop where
  inside : CodeScoped code names
  given : yield.Scoped (names ++ codeDeclared code)
  numbered : Numbered n (codeIntroduced code ++ yield.introduced) m

section

variable {names : List String} {n m k l : Nat} {code more : Code} {yield given : Yield}
  {test : Test} {dest : Destination} {expr : Expr} {exprs : List Expr}

/-- What is visible in front of code is visible behind it. -/
theorem OverAll.after {words : List Word} (seen : OverAll (·.SeenIn names) words)
    (_ : Fits names n code yield m) : OverAll (·.SeenIn (names ++ codeDeclared code)) words :=
  seen.mono _

namespace Fits

theorem value (fits : Fits names n code (.value expr) m) :
    OverAll (·.SeenIn (names ++ codeDeclared code)) expr.words := fits.given

theorem values (fits : Fits names n code (.values exprs) m) :
    OverAll (·.SeenIn (names ++ codeDeclared code)) (Expr.wordsAll exprs) := fits.given

theorem nil (seen : given.Scoped names) (plain : given.introduced = [] := by rfl) :
    Fits names n [] given n :=
  ⟨trivial, by simpa using seen, by simpa [codeIntroduced, plain] using .nil⟩

theorem append (first : Fits names n code yield m)
    (second : Fits (names ++ codeDeclared code) m more given k)
    (plain : yield.introduced = [] := by rfl) : Fits names n (code ++ more) given k where
  inside := codeScoped_append.mpr ⟨first.inside, second.inside⟩
  given := by
    rw [codeDeclared_append, ← List.append_assoc]
    exact second.given
  numbered := by
    have numbered := first.numbered.append second.numbered
    rwa [plain, List.append_nil, ← List.append_assoc, ← codeIntroduced_append] at numbered

/-- Code with another result, which uses what the code declares. -/
theorem give (fits : Fits names n code yield m) (seen : given.Scoped (names ++ codeDeclared code))
    (same : yield.introduced = given.introduced := by rfl) : Fits names n code given m :=
  ⟨fits.inside, seen, same ▸ fits.numbered⟩

/-- A declared variable can be used behind its declaration. -/
theorem giveDeclared {type : JavaType} {name : String}
    (fits : Fits names n (code ++ .declare type name expr :: more) .done m) :
    Fits names n (code ++ .declare type name expr :: more) (.value (.var name)) m := by
  refine fits.give (OverAll.cons_iff.mpr ⟨fun temp mem => ?_, .nil⟩)
  have listed : temp ∈ (Word.var name).temps ++ codeDeclared more := List.mem_append_left _ mem
  rw [codeDeclared_append]
  exact List.mem_append_right _ (List.mem_append_right _ listed)

theorem declaredVar {type : JavaType} {name : String}
    (_ : Fits names n [.declare type name expr] .done m) :
    OverAll (·.SeenIn (names ++ codeDeclared [.declare type name expr])) [.var name] :=
  OverAll.cons_iff.mpr
    ⟨fun _ mem => List.mem_append_right _ (List.mem_append_left _ mem), .nil⟩

/-! One statement -/

theorem line {stmt : Stmt} (seen : stmt.Scoped names) (undeclared : stmt.introduced = [] := by rfl) :
    Fits names n [stmt] .done n where
  inside := ⟨seen, trivial⟩
  given := .nil
  numbered := by simpa [codeIntroduced, undeclared, Yield.introduced] using .nil

theorem cons {stmt : Stmt} (seen : stmt.Scoped names) (rest : Fits names n code yield m)
    (undeclared : stmt.introduced = [] := by rfl) (same : stmt.declared = [] := by rfl) :
    Fits names n (stmt :: code) yield m := by
  have last : Fits (names ++ codeDeclared [stmt]) n code yield m := by
    simpa [codeDeclared_cons, same] using rest
  exact append (line seen undeclared) last

/-- A declaration, given the temporaries in the name of the variable. -/
theorem declare {type : JavaType} {name : String} (seen : OverAll (·.SeenIn names) expr.words)
    (named : Numbered n (Word.var name).temps m) :
    Fits names n [.declare type name expr] .done m where
  inside := ⟨seen, trivial⟩
  given := .nil
  numbered := by simpa [codeIntroduced, Stmt.introduced, Yield.introduced] using named

theorem put (sink : OverAll (·.SeenIn names) dest.words) (seen : OverAll (·.SeenIn names) expr.words) :
    Fits names n (dest.put expr) .done n := by
  cases dest with
  | discard => exact .nil .nil
  | store => exact .line (OverAll.append_iff.mpr ⟨sink, seen⟩)

theorem putEffect (sink : OverAll (·.SeenIn names) dest.words)
    (seen : OverAll (·.SeenIn names) expr.words) :
    Fits names n [dest.putEffect expr] .done n := by
  cases dest with
  | discard => exact .line seen
  | store => exact .line (OverAll.append_iff.mpr ⟨sink, seen⟩)

theorem ifElse (seen : OverAll (·.SeenIn names) test.expr.words) (yes : Fits names n code .done m)
    (no : Fits names m more .done k) : Fits names n [.ifElse test code more] .done k where
  inside := ⟨⟨seen, yes.inside, no.inside⟩, trivial⟩
  given := .nil
  numbered := by
    simpa [codeIntroduced, Stmt.introduced, Yield.introduced] using
      yes.numbered.append no.numbered

theorem ifThen (seen : OverAll (·.SeenIn names) test.expr.words) (yes : Fits names n code .done m) :
    Fits names n [.ifThen test code] .done m where
  inside := ⟨⟨seen, yes.inside⟩, trivial⟩
  given := .nil
  numbered := by simpa [codeIntroduced, Stmt.introduced, Yield.introduced] using yes.numbered

theorem loop {checkFirst : Bool} (seen : OverAll (·.SeenIn names) test.expr.words)
    (body : Fits names n code .done m) : Fits names n [loopStmt checkFirst test code] .done m := by
  cases checkFirst <;> exact
    ⟨⟨⟨seen, body.inside⟩, trivial⟩, .nil,
      by simpa [loopStmt, codeIntroduced, Stmt.introduced, Yield.introduced] using body.numbered⟩

theorem labeled {label : String} {stmt : Stmt} (seen : (Word.label label).SeenIn names)
    (body : Fits names n [stmt] .done m) : Fits names n [.labeled label stmt] .done m where
  inside := ⟨⟨seen, body.inside.1⟩, trivial⟩
  given := .nil
  numbered := by
    simpa [codeIntroduced, Stmt.introduced, Yield.introduced] using body.numbered

theorem block (body : Fits names n code .done m) : Fits names n [.block code] .done m where
  inside := ⟨body.inside, trivial⟩
  given := .nil
  numbered := by
    simpa [codeIntroduced, Stmt.introduced, Yield.introduced] using body.numbered

theorem tryFinally (body : Fits names n code .done m) (cleanup : Fits names m more .done k) :
    Fits names n [.tryFinally code more] .done k where
  inside := ⟨⟨body.inside, cleanup.inside⟩, trivial⟩
  given := .nil
  numbered := by
    simpa [codeIntroduced, Stmt.introduced, Yield.introduced] using
      body.numbered.append cleanup.numbered

theorem tryCatch {added : List (Handler Code)} (body : Fits names n code .done m)
    (handled : Fits names m [] (.handlers added) k) :
    Fits names n [.tryCatch code added] .done k where
  inside := by
    have given := handled.given
    rw [codeDeclared_nil, List.append_nil] at given
    exact ⟨⟨body.inside, given⟩, trivial⟩
  given := .nil
  numbered := by
    simpa [codeIntroduced, Stmt.introduced, Yield.introduced] using
      body.numbered.append handled.numbered

theorem labeledStmt {inner : String} {flag : Option String}
    (label : (Word.label inner).SeenIn names) (flagged : ∀ name ∈ flag, (Word.var name).SeenIn names)
    (body : Fits names n code .done m) : Fits names n [labeledStmt inner code flag] .done m := by
  cases flag with
  | none => exact labeled label (block body)
  | some name =>
    have seen := flagged name rfl
    have clear : Stmt.Scoped (.store (.into name) (.literal (.bool false))) names := by
      simpa [Stmt.Scoped] using ⟨seen, Word.standard_seenIn.bool false⟩
    exact labeled label (loop (over_var seen) (cons clear body) : Fits names n [loopStmt false _ _] _ m)

/-- A loop over values, given the temporaries in the name of its variable. -/
theorem forEach {type : JavaType} {name : String} (seen : OverAll (·.SeenIn names) expr.words)
    (named : Numbered n (Word.var name).temps m)
    (body : Fits (names ++ (Word.var name).temps) m code .done k) :
    Fits names n [.forEach type name expr code] .done k where
  inside := ⟨⟨seen, body.inside⟩, trivial⟩
  given := .nil
  numbered := by
    simpa [codeIntroduced, Stmt.introduced, Yield.introduced] using
      named.append body.numbered

/-- A handler in front of others. -/
theorem handler {type : JavaType} {name : String} {added : List (Handler Code)}
    (named : Numbered n (Word.var name).temps m)
    (body : Fits (names ++ (Word.var name).temps) m code .done k)
    (others : Fits names k [] (.handlers added) l) :
    Fits names n [] (.handlers (⟨type, name, code⟩ :: added)) l where
  inside := trivial
  given := ⟨by simpa [HandlerScoped] using body.inside, others.given⟩
  numbered := by
    simpa [codeIntroduced, Yield.introduced, handlersIntroduced, handlerIntroduced] using
      named.append (body.numbered.append others.numbered)

/-- The handlers of a clause in front of those of others. -/
theorem handlers {added others : List (Handler Code)} (first : Fits names n [] (.handlers added) m)
    (second : Fits names m [] (.handlers others) k) :
    Fits names n [] (.handlers (added ++ others)) k where
  inside := trivial
  given := handlersScoped_append.mpr ⟨first.given, second.given⟩
  numbered := by
    simpa [codeIntroduced, Yield.introduced] using first.numbered.append second.numbered

end Fits

end

section

variable {names : List String} {ctx : Context} {p p' : Progress} {task : Task} {code : Code}
  {yield : Yield}

/-- A name without the mark introduces no temporary. -/
theorem numbered_unmarked {name : String} (free : (Word.var name).Unmarked) (n : Nat) :
    Numbered n (Word.var name).temps n := by
  rw [free.temps_eq]
  exact .nil

theorem numbered_nextTemp (p : Progress) :
    Numbered p.scope.temps (Word.var p.nextTemp).temps (p.scope.temps + 1) := by
  rw [Progress.nextTemp, Word.temps_tempName]
  exact .single

@[simp]
theorem Progress.temps_useField (use : FieldUse) :
    (p.useField use).scope.temps = p.scope.temps := by
  unfold Progress.useField
  split <;> rfl

@[simp]
theorem Kind.temps_noteUse (kind : Kind Tree) (type : JavaType) :
    (kind.noteUse type p).scope.temps = p.scope.temps := by
  cases kind with
  | field => exact Progress.temps_useField _
  | _ => rfl

theorem Scope.temps_of_reserve? {scope scope' : Scope} {name : String} {type : JavaType}
    (reserved : scope.reserve? name type = some scope') : scope'.temps = scope.temps := by
  unfold Scope.reserve? at reserved
  split at reserved
  · cases reserved
  · cases reserved
    rfl

theorem Progress.temps_enter (binding : Option Param) :
    (p.enter binding).scope.temps = p.scope.temps := by
  unfold Progress.enter
  split
  · rfl
  · split
    · rfl
    · next reserved => exact Scope.temps_of_reserve? reserved

theorem Progress.temps_leave (binding : Option Param) :
    (p.leave binding p').scope.temps = p'.scope.temps := by
  unfold Progress.leave
  split
  · rfl
  · split <;> rfl

/-- The statement that copies a new temporary into a variable. -/
theorem scoped_copy {name : String} (free : (Word.var name).Unmarked) (p : Progress) :
    Stmt.Scoped (.store (.into name) (.var p.nextTemp)) (names ++ (Word.var p.nextTemp).temps) := by
  have own : (Word.var p.nextTemp).SeenIn (names ++ (Word.var p.nextTemp).temps) :=
    fun _ mem => List.mem_append_right _ mem
  simpa [Stmt.Scoped] using ⟨free.seenIn, own⟩

theorem fits_declareTemp (p : Progress) (type : JavaType) {init : Expr}
    (seen : OverAll (·.SeenIn names) init.words) :
    Fits names p.scope.temps [p.declareTemp type init] .done (p.takeTemp type).scope.temps :=
  .declare seen (numbered_nextTemp p)

theorem fits_declareFlag (names : List String) (p : Progress) :
    Fits names p.scope.temps [p.declareFlag] .done (p.takeTemp .boolean).scope.temps :=
  fits_declareTemp p _ (over_default Word.standard_seenIn _)

theorem fits_flagCode (names : List String) (p : Progress) (redo : Bool) :
    Fits names p.scope.temps (p.flagCode redo) .done (p.takeLabels.takeFlag redo).scope.temps := by
  cases redo with
  | false => exact .nil .nil
  | true => exact fits_declareFlag names p

theorem seenIn_flag (names : List String) (p : Progress) (redo : Bool) :
    ∀ name ∈ p.flag redo, (Word.var name).SeenIn (names ++ codeDeclared (p.flagCode redo)) := by
  cases redo with
  | false => exact fun _ found => nomatch found
  | true => exact (fits_declareFlag names p).declaredVar.named

/-- The temporaries of a task's code stay inside their blocks and are numbered in order. -/
theorem Lowers.fits (lowers : Lowers ctx p task code yield p') (names : List String)
    (around : OverAll (·.SeenIn names) ctx.words)
    (ofWords : task.Spans Word.Unmarked (·.SeenIn names)) :
    Fits names p.scope.temps code yield p'.scope.temps := by
  have standard {names : List String} : Word.Standard (·.SeenIn names) := Word.standard_seenIn
  have label {names : List String} (n : Nat) : (Word.label (labelName n)).SeenIn names :=
    (Word.unmarked_labelName n).seenIn
  induction lowers generalizing names with
  | own _ built ih =>
    obtain ⟨-, own, children⟩ := Tree.over_node.mp ofWords
    have operands := ih names around children
    rw [Kind.temps_noteUse]
    exact operands.give (Kind.over_build? standard built (around.after operands)
      own.seenIn operands.values)
  | inlineOwn _ _ ih | inlineTemp _ ih | valueInline _ _ ih | valueTemp _ _ ih | fixedInline _ _ ih
  | fixedTemp _ ih | keptInline _ _ ih | keptTemp _ ih | freshTemp _ ih => exact ih names around ofWords
  | operandsNil | effectsNil | maybeNone => exact .nil .nil
  | handlersNil | clausesNil => exact .nil trivial
  | operandsCons _ _ ih₁ ih₂ =>
    obtain ⟨first, rest⟩ := List.forall_mem_cons.mp ofWords
    have front := ih₁ names around first
    have behind := ih₂ _ (around.after front) rest
    have all := front.append behind
    refine all.give (OverAll.append_iff.mpr ⟨?_, all.values⟩)
    rw [codeDeclared_append, ← List.append_assoc]
    exact front.value.after behind
  | @freshInline _ _ _ _ _ q _ _ ih =>
    have front := ih names around ofWords
    exact (front.append (.declare front.value (numbered_nextTemp q))).giveDeclared
  | @tempLoop _ _ _ _ q _ _ ih =>
    have front := ih names around ⟨ofWords, .nil⟩
    exact (front.append (.declare (over_null standard) (numbered_nextTemp q))).giveDeclared
  | tempAssign _ ih =>
    have front := ih names around ⟨ofWords, .nil⟩
    obtain ⟨-, own, -⟩ := Tree.over_node.mp ofWords
    exact front.give own.seenIn
  | @tempStore _ p tree _ _ _ ih =>
    have init : OverAll (·.SeenIn names) _ := over_default standard tree.type.held
    have declared := fits_declareTemp p tree.type.held init
    have stored := ih _ (around.after declared) ⟨ofWords, declared.declaredVar⟩
    have all : Fits names _ ([] ++ p.declareTemp _ _ :: _) _ _ := declared.append stored
    exact all.giveDeclared
  | discardValue _ _ ih => exact ih names around ofWords.1.children
  | storeValue _ _ ih =>
    have front := ih names around ofWords.1
    exact front.append (.line (OverAll.append_iff.mpr ⟨ofWords.2.after front, front.value⟩))
  | putEffect _ _ ih =>
    have front := ih names around ofWords.1
    exact front.append (.putEffect (ofWords.2.after front) front.value)
  | assignKnown _ _ ih =>
    obtain ⟨-, own, children⟩ := Tree.over_node.mp ofWords.1
    have front := ih names around (children _ List.mem_cons_self)
    have assigned := OverAll.append_iff.mpr ⟨own.seenIn, front.value⟩
    exact front.append (.cons assigned (.put (ofWords.2.after front) own.seenIn))
  | @assignNew _ _ name _ type _ _ _ q scope _ reserved ih =>
    obtain ⟨-, own, children⟩ := Tree.over_node.mp ofWords.1
    have front := ih names around (children _ List.mem_cons_self)
    have free : (Word.var name).Unmarked := (OverAll.cons_iff.mp own).1
    have declared : Fits _ _ [.declare type.held name _] _ _ :=
      .declare front.value (numbered_unmarked free q.scope.temps)
    have behind := declared.append
      (.put ((ofWords.2.after front).after declared) (over_var free.seenIn))
    rw [show scope.temps = q.scope.temps from Scope.temps_of_reserve? reserved]
    exact front.append behind
  | @setField _ _ _ _ isStatic _ _ _ _ _ _ ih =>
    obtain ⟨-, own, children⟩ := Tree.over_node.mp ofWords.1
    have front := ih names around (children _ List.mem_cons_self)
    rw [Progress.temps_useField] at front
    have field := Context.over_field (around.after front) (OverAll.cons_iff.mp own.seenIn).1 isStatic
    have assigned := OverAll.append_iff.mpr ⟨field, front.value⟩
    exact front.append (.cons ⟨⟨_, _, rfl⟩, assigned⟩ (.put (ofWords.2.after front) field))
  | @voidCall _ _ receiver method _ _ _ _ _ _ _ _ _ _ _ _ _ _ ih₁ ih₂ =>
    obtain ⟨-, own, children⟩ := Tree.over_node.mp ofWords.1
    obtain ⟨target, args⟩ := List.forall_mem_append.mp children
    have called : (Word.method method).Unmarked := own _ (by cases receiver <;> simp [Kind.words])
    have named : ∀ type, receiver = .named type → (Word.type type).Unmarked := fun _ _ => trivial
    have front := ih₁ names around ⟨target, named⟩
    have behind := ih₂ _ (around.after front) args
    have values := front.values.after behind
    simp only [Expr.wordsAll, List.append_nil, OverAll.append_iff] at values
    have call := OverAll.append_iff.mpr
      ⟨values.1, OverAll.cons_iff.mpr ⟨called.seenIn, behind.values⟩⟩
    have stored := OverAll.append_iff.mpr ⟨(ofWords.2.after front).after behind, values.2⟩
    exact front.append (behind.append (.cons call (.line stored)))
  | @receiverOwn ctx _ =>
    have receiver := Context.over_ownReceiver around
    refine .nil ?_
    cases isStatic : ctx.isStatic <;>
      simpa [Yield.Scoped, isStatic, standard.null] using receiver
  | receiverNamed =>
    exact .nil (by simpa [Yield.Scoped, standard.null] using standard.owner (ofWords.2 _ rfl).seenIn)
  | receiverValue _ ih =>
    have front := ih names around (ofWords.1 _ List.mem_cons_self)
    exact front.give (by simpa [Yield.Scoped] using front.value)
  | condElse _ _ _ ih₁ ih₂ ih₃ =>
    obtain ⟨test, yes, no⟩ := Tree.over_cond ofWords.1
    have front := ih₁ names around test
    have dest := ofWords.2.after front
    exact front.append (.ifElse front.value (ih₂ _ (around.after front) ⟨yes, dest⟩)
      (ih₃ _ (around.after front) ⟨no, dest⟩))
  | condThen _ _ ih₁ ih₂ =>
    obtain ⟨test, yes, -⟩ := Tree.over_cond ofWords.1
    have front := ih₁ names around test
    exact front.append (.ifThen front.value (ih₂ _ (around.after front) ⟨yes, .nil⟩))
  | andStore _ _ ih₁ ih₂ =>
    obtain ⟨left, right⟩ := ofWords.1.both rfl
    have front := ih₁ names around left
    have sink := ofWords.2.after front
    have run := ih₂ _ (around.after front) ⟨right, sink⟩
    exact front.append (.ifElse front.value run (.put sink (over_bool standard false)))
  | orStore _ _ ih₁ ih₂ =>
    obtain ⟨left, right⟩ := ofWords.1.both rfl
    have front := ih₁ names around left
    have sink := ofWords.2.after front
    have run := ih₂ _ (around.after front) ⟨right, sink⟩
    exact front.append (.ifElse front.value (.put sink (over_bool standard true)) run)
  | logicalDiscard _ _ _ ih₁ ih₂ =>
    obtain ⟨left, right⟩ := ofWords.1.both rfl
    have front := ih₁ names around left
    exact front.append (.ifThen front.value
      (ih₂ _ (around.after front) ⟨right, .nil⟩))
  | seq _ ih => exact ih names around ⟨ofWords.1.children, ofWords.2⟩
  | seqNil | armNone => exact .put ofWords.2 (over_default standard _)
  | seqLast _ ih => exact ih names around ⟨ofWords.1 _ List.mem_cons_self, ofWords.2⟩
  | seqCons _ _ ih₁ ih₂ =>
    obtain ⟨first, rest⟩ := List.forall_mem_cons.mp ofWords.1
    have front := ih₁ names around ⟨first, .nil⟩
    exact front.append (ih₂ _ (around.after front) ⟨rest, ofWords.2.after front⟩)
  | effectsCons _ _ ih₁ ih₂ =>
    obtain ⟨first, rest⟩ := List.forall_mem_cons.mp ofWords
    have front := ih₁ names around ⟨first, .nil⟩
    exact front.append (ih₂ _ (around.after front) rest)
  | maybeSome _ ih | armSome _ ih => exact ih names around ⟨ofWords.1 _ rfl, ofWords.2⟩
  | @jump ctx _ action _ _ code loop others inside jumps =>
    have innermost := Context.over_innermost around inside
    obtain ⟨form, labels, flag⟩ := loop
    cases jumps with
    | «break» => exact .line (by cases labels <;> simp_all [Stmt.Scoped, EnclosingLoop.words])
    | nextPlain plain => exact .line (by simp [Stmt.Scoped])
    | nextLabeled labeled =>
      cases labeled
      exact .line (by simp_all [Stmt.Scoped, EnclosingLoop.words])
    | redo labeled flagged =>
      cases labeled
      cases flagged
      simp only [EnclosingLoop.words, Option.elim, OverAll.append_iff, OverAll.cons_iff] at innermost
      obtain ⟨⟨-, inner, -⟩, flag, -⟩ := innermost
      exact .cons (by simpa [Stmt.Scoped, standard.bool] using flag)
        (.line (by simpa [Stmt.Scoped] using inner))
  | retNone => exact .line .nil
  | retVoid _ _ ih =>
    exact (ih names around ⟨ofWords.1.children _ List.mem_cons_self, .nil⟩).append (.line .nil)
  | retInline _ _ _ ih | raiseInline _ _ ih =>
    have front := ih names around (ofWords.1.children _ List.mem_cons_self)
    exact front.append (.line front.value)
  | retStore _ _ ih | raiseStore _ ih =>
    exact ih names around ⟨ofWords.1.children _ List.mem_cons_self, .nil⟩
  | print _ ih =>
    have front := ih names around ofWords.1.children
    exact front.append (.cons (over_head? front.values) (.put (ofWords.2.after front) (over_null standard)))
  | guardedPlain _ ih => exact ih names around ⟨ofWords.1, ofWords.2.2⟩
  | guardedElse _ _ ih₁ ih₂ =>
    have front := ih₁ names around ⟨ofWords.1, .nil⟩
    exact front.append (ih₂ _ (around.after front) ⟨ofWords.2.1 _ rfl, ofWords.2.2.after front⟩)
  | rescueNone _ ih =>
    obtain ⟨body, -, otherwise⟩ := Tree.over_rescue ofWords.1
    exact ih names around ⟨body, otherwise, ofWords.2⟩
  | rescue _ _ _ ih₁ ih₂ =>
    obtain ⟨body, clauses, otherwise⟩ := Tree.over_rescue ofWords.1
    exact .tryCatch (ih₁ names around ⟨body, otherwise, ofWords.2⟩) (ih₂ names around ⟨clauses, ofWords.2⟩)
  | @clausesCons _ _ clause _ _ _ _ _ _ _ _ _ ih₁ ih₂ =>
    obtain ⟨first, rest⟩ := List.forall_mem_cons.mp ofWords.1
    have handled := ih₁ names around ⟨⟨fun _ _ => trivial, first.2⟩, ofWords.2⟩
    have others := ih₂ names around ⟨rest, ofWords.2⟩
    exact handled.handlers others
  | @handlersNamed _ p _ _ _ _ _ _ _ _ _ _ _ _ ih₁ ih₂ =>
    obtain ⟨⟨types, name, body⟩, dest⟩ := ofWords
    have named := numbered_unmarked (name _ rfl) p.scope.temps
    exact .handler named (ih₁ _ (around.mono _) ⟨body, dest.mono _⟩)
      (ih₂ names around ⟨⟨(List.forall_mem_cons.mp types).2, name, body⟩, dest⟩)
  | @handlersFresh _ p _ _ name _ _ _ _ _ _ _ _ _ _ _ ih₁ ih₂ =>
    obtain ⟨⟨types, named, body⟩, dest⟩ := ofWords
    have copied : Fits (names ++ (Word.var p.nextTemp).temps) (p.scope.temps + 1)
        (copyCode p.nextTemp name) .done (p.scope.temps + 1) := by
      cases name with
      | none => exact .nil .nil
      | some name => exact .line (scoped_copy (named name rfl) p)
    exact .handler (numbered_nextTemp p)
      (copied.append (ih₁ _ ((around.mono _).after copied) ⟨body, (dest.mono _).after copied⟩))
      (ih₂ names around ⟨⟨(List.forall_mem_cons.mp types).2, named, body⟩, dest⟩)
  | ensure _ _ ih₁ ih₂ =>
    obtain ⟨body, cleanup⟩ := ofWords.1.both rfl
    exact .tryFinally (ih₁ names around ⟨body, ofWords.2⟩)
      (ih₂ names around ⟨cleanup, .nil⟩)
  | loop _ ih =>
    have front := ih names around ofWords.1.children
    exact front.append (.put (ofWords.2.after front) (over_null standard))
  | forEach _ ih =>
    obtain ⟨-, own, children⟩ := Tree.over_node.mp ofWords.1
    have front := ih names around ⟨(OverAll.cons_iff.mp own).1, children⟩
    exact front.append (.put (ofWords.2.after front) (over_null standard))
  | plainLoop _ _ _ _ _ _ _ ih₁ ih₂ ih₃ ih₄ =>
    obtain ⟨init, cond, pre, body, -⟩ := Loop.each_of_children ofWords
    have front := ih₁ names around ⟨init, .nil⟩
    have tested := ih₂ _ (around.after front) cond
    have entered : OverAll _ (Context.enter _ ⟨.plainWhile, none, none⟩).words :=
      Context.over_enter ((around.after front).after tested) .nil
    have opened := ih₃ _ entered ⟨pre, .nil⟩
    have passed := ih₄ _ (entered.after opened) ⟨body, .nil⟩
    exact front.append (tested.append (.loop tested.value (opened.append passed)))
  | @testedLoop _ _ spec code test _ _ _ q _ _ _ _ _ _ ih₁ ih₂ ih₃ =>
    obtain ⟨init, cond, -⟩ := Loop.each_of_children ofWords
    have front := ih₁ names around ⟨init, .nil⟩
    have tested := ih₂ _ (around.after front) cond
    have flagged := fits_flagCode (names ++ codeDeclared code ++ codeDeclared test) q spec.redo
    have seen := seenIn_flag (names ++ codeDeclared code ++ codeDeclared test) q spec.redo
    have outside := (around.after front).after tested
    have entered := over_enter_labeled label (outside.after flagged) q .labeledWhile seen
    have passed := ih₃ _ entered ⟨ofWords, label _, seen, by simp⟩
    exact front.append (tested.append
      (.labeled (label _) (.loop tested.value (flagged.append passed))))
  | @heldLoop _ _ spec code first _ p₁ q _ _ _ _ _ ih₁ ih₂ ih₃ =>
    obtain ⟨init, cond, -⟩ := Loop.each_of_children ofWords
    have front := ih₁ names around ⟨init, .nil⟩
    have declared := fits_declareFlag (names ++ codeDeclared code) p₁
    have held := declared.declaredVar
    have tested := ih₂ _ ((around.after front).after declared) ⟨Loop.over_first cond, held⟩
    have flagged := fits_flagCode
      (names ++ codeDeclared code ++ codeDeclared [p₁.declareFlag] ++ codeDeclared first) q spec.redo
    have seen := seenIn_flag
      (names ++ codeDeclared code ++ codeDeclared [p₁.declareFlag] ++ codeDeclared first) q spec.redo
    have outside := ((around.after front).after declared).after tested
    have entered := over_enter_labeled label (outside.after flagged) q .labeledWhile seen
    have again := (held.after tested).after flagged
    have passed := ih₃ _ entered ⟨ofWords, label _, seen, again.named⟩
    exact front.append (declared.append (tested.append
      (.labeled (label _) (.loop (held.after tested) (flagged.append passed)))))
  | @pass _ _ spec _ _ held _ _ _ _ _ _ _ _ _ _ _ _ ih₁ ih₂ ih₃ ih₄ =>
    obtain ⟨parts, label, flag, again⟩ := ofWords
    obtain ⟨-, cond, pre, body, post⟩ := Loop.each_of_children parts
    have opened := ih₁ names around ⟨pre, .nil⟩
    have passed := ih₂ _ (around.after opened)
      ⟨body, label.mono _, fun name found => (flag name found).mono _⟩
    have ended := ih₃ _ ((around.after opened).after passed) ⟨post, .nil⟩
    have outside := ((around.after opened).after passed).after ended
    have tested := ih₄ _ outside (by
      cases held with
      | none => exact ⟨by simp, .nil⟩
      | some name =>
        have sink := over_var (again name rfl)
        exact ⟨by simpa using cond, ((sink.after opened).after passed).after ended⟩)
    exact opened.append (passed.append (ended.append tested))
  | labeledBody _ ih =>
    obtain ⟨body, label, flagged⟩ := ofWords
    exact .labeledStmt label flagged (ih names around ⟨body, .nil⟩)
  | @plainElements _ _ spec _ _ _ _ _ _ _ _ _ ih₁ ih₂ =>
    obtain ⟨iterable, body⟩ := ForEach.each_of_children ofWords.2
    have front := ih₁ names around iterable
    have entered : OverAll _ (Context.enter _ ⟨.plainForEach, none, none⟩).words :=
      Context.over_enter (around.after front) .nil
    have passed := ih₂ _ (entered.mono (Word.var spec.var).temps) ⟨body, .nil⟩
    exact front.append (.forEach front.value (numbered_unmarked ofWords.1 _) passed)
  | @copiedElements _ _ _ _ _ _ q _ _ _ _ _ ih₁ ih₂ =>
    obtain ⟨iterable, body⟩ := ForEach.each_of_children ofWords.2
    have front := ih₁ names around iterable
    have entered : OverAll _ (Context.enter _ ⟨.plainForEach, none, none⟩).words :=
      Context.over_enter (around.after front) .nil
    have passed := ih₂ _ (entered.mono (Word.var q.nextTemp).temps) ⟨body, .nil⟩
    exact front.append
      (.forEach front.value (numbered_nextTemp q) (.cons (scoped_copy ofWords.1 q) passed))
  | @labeledElements _ _ spec code _ _ q _ _ _ _ _ ih₁ ih₂ =>
    obtain ⟨iterable, body⟩ := ForEach.each_of_children ofWords.2
    have front := ih₁ names around iterable
    have declared := fits_declareFlag (names ++ codeDeclared code ++ (Word.var spec.var).temps) q
    have seen := seenIn_flag (names ++ codeDeclared code ++ (Word.var spec.var).temps) q true
    have outside := ((around.after front).mono _).after declared
    have entered := over_enter_labeled label outside q .labeledForEach seen
    have passed := ih₂ _ entered ⟨body, label _, seen⟩
    exact front.append (.labeled (label _)
      (.forEach front.value (numbered_unmarked ofWords.1 _) (declared.append passed)))
  | @labeledCopies _ _ _ code _ _ q _ _ _ _ _ ih₁ ih₂ =>
    obtain ⟨iterable, body⟩ := ForEach.each_of_children ofWords.2
    have front := ih₁ names around iterable
    have declared := fits_declareFlag
      (names ++ codeDeclared code ++ (Word.var q.nextTemp).temps) q.takeName
    have seen := seenIn_flag (names ++ codeDeclared code ++ (Word.var q.nextTemp).temps)
      q.takeName true
    have outside := ((around.after front).mono _).after declared
    have entered := over_enter_labeled label outside q .labeledForEach seen
    have passed := ih₂ _ entered ⟨body, label _, seen⟩
    exact front.append (.labeled (label _) (.forEach front.value (numbered_nextTemp q)
      (.cons (scoped_copy ofWords.1 q) (declared.append passed))))
  | within _ ih =>
    have inner := ih names around ofWords
    rw [Progress.temps_leave]
    rwa [Progress.temps_enter] at inner

end

end JavaBackend
