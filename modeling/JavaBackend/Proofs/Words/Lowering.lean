import JavaBackend.Proofs.Words.Basic

/-!
# Which words code is made of

The words of generated code are those of the trees, of what stands around the code and of where the
value goes, and a few that lowering brings in on its own: temporaries, labels, the types of
conditions and of any object, and default values. `Lowers.over` says so for every set `L` of words
that has the latter.
-/

namespace JavaBackend

open Java (Stmt Code Piece Expr Test Handler Sink)

/-- The types and constants that lowering brings in on its own belong to `L`. -/
structure Word.Standard (L : Word → Prop) : Prop where
  object : L (.type .object)
  boolean : L (.type .boolean)
  exception : L (.type anyException)
  component : ∀ {type}, L (.type (.array type)) → L (.type type)
  owner : ∀ {type}, L (.type type) → L (.owner type.source)
  null : L (.literal .null)
  zero : L (.literal (.int 0))
  bool : ∀ value, L (.literal (.bool value))

/-- The words that lowering brings in on its own belong to `L`. -/
structure Word.Closed (L : Word → Prop) : Prop extends Word.Standard L where
  temp : ∀ n, L (.var (tempName n))
  label : ∀ n, L (.label (labelName n))

variable {L : Word → Prop}

namespace Word.Standard

theorem held (standard : Standard L) {type : JavaType} (ofWords : L (.type type)) :
    L (.type type.held) := by
  cases type with
  | void => exact standard.object
  | _ => exact ofWords

theorem defaultValue (standard : Standard L) (type : JavaType) : L (.literal type.defaultValue) := by
  cases type with
  | boolean => exact standard.bool false
  | void | reference _ | array _ => exact standard.null
  | _ => exact standard.zero

theorem base (standard : Standard L) {type : JavaType} (ofWords : L (.type type)) :
    L (.type type.dimensions.1) := by
  induction type with
  | array component ih => exact ih (standard.component ofWords)
  | _ => exact ofWords

theorem element (standard : Standard L) {type : JavaType} (ofWords : L (.type type)) :
    L (.type (type.component?.getD .object)) := by
  cases type with
  | array component => exact standard.component ofWords
  | _ => exact standard.object

end Word.Standard

theorem Tree.over_node {kind : Kind Tree} {type : JavaType} :
    (Tree.node kind type).Over L ↔
      L (.type type) ∧ OverAll L kind.words ∧ ∀ tree ∈ kind.children, tree.Over L := by
  unfold Tree.Over
  rw [Tree.every_node, and_assoc]

theorem Tree.Over.type {tree : Tree} (ofWords : tree.Over L) : L (.type tree.type) := by
  obtain ⟨kind, type⟩ := tree
  exact (Tree.over_node.mp ofWords).1

theorem Tree.Over.children {kind : Kind Tree} {type : JavaType}
    (ofWords : (Tree.node kind type).Over L) : ∀ tree ∈ kind.children, tree.Over L :=
  (Tree.over_node.mp ofWords).2.2

theorem Tree.Over.both {kind : Kind Tree} {type : JavaType} {first second : Tree}
    (ofWords : (Tree.node kind type).Over L) (two : kind.children = [first, second]) :
    first.Over L ∧ second.Over L := by
  have children := ofWords.children
  rw [two, List.forall_mem_cons, List.forall_mem_singleton] at children
  exact children

theorem Tree.over_cond {test : Tree} {yes no : Option Tree} {type : JavaType}
    (ofWords : (Tree.node (.cond test yes no) type).Over L) :
    test.Over L ∧ (∀ arm ∈ yes, arm.Over L) ∧ ∀ arm ∈ no, arm.Over L := by
  simpa only [Kind.children, List.forall_mem_cons, List.forall_mem_append, Option.mem_toList,
    Option.mem_def] using ofWords.children

/-- The condition of a loop is computed in front of it if it is tested first. -/
theorem Loop.over_first {spec : Loop Tree} (ofWords : spec.cond.Over L) :
    ∀ tree ∈ if spec.checkFirst then some spec.cond else none, tree.Over L := by
  intro tree found
  split at found <;> cases found
  exact ofWords

/-- The words of a clause. -/
def RescueClause.Over (L : Word → Prop) (clause : RescueClause Tree) : Prop :=
  (∀ type ∈ clause.types, L (.type type)) ∧ (∀ name ∈ clause.name, L (.var name)) ∧
    ∀ tree ∈ clause.body, tree.Over L

theorem Tree.over_rescue {body otherwise : Option Tree} {clauses : List (RescueClause Tree)}
    {type : JavaType} (ofWords : (Tree.node (.rescue body clauses otherwise) type).Over L) :
    (∀ tree ∈ body, tree.Over L) ∧ (∀ clause ∈ clauses, clause.Over L) ∧
      ∀ tree ∈ otherwise, tree.Over L := by
  obtain ⟨-, own, children⟩ := Tree.over_node.mp ofWords
  simp only [Kind.children, List.forall_mem_append, Option.mem_toList] at children
  obtain ⟨⟨body, bodies⟩, otherwise⟩ := children
  refine ⟨body, fun clause mem => ?_, otherwise⟩
  have words := OverAll.flatMap_iff.mp own clause mem
  rw [OverAll.append_iff] at words
  refine ⟨?_, ?_, ?_⟩
  · exact fun type found => words.1 _ (List.mem_map_of_mem found)
  · exact fun name found => words.2 _ (List.mem_map_of_mem (Option.mem_toList.mpr found))
  · exact fun tree found => bodies tree (List.mem_filterMap.mpr ⟨clause, mem, found⟩)

/-- The trees of a task are made of words of `L`, and `W` holds of the words that it is to use beside
    them. -/
def Task.Spans (L W : Word → Prop) : Task → Prop
  | .own kind type => (Tree.node kind type).Over L
  | .operand _ tree | .temp tree | .freshTemp tree | .kept tree => tree.Over L
  | .operands _ trees | .effects trees => ∀ tree ∈ trees, tree.Over L
  | .statement tree dest => tree.Over L ∧ OverAll W dest.words
  | .maybe tree dest | .arm tree dest _ => (∀ part ∈ tree, part.Over L) ∧ OverAll W dest.words
  | .receiver target => (∀ tree ∈ target.toList, tree.Over L) ∧
      ∀ type, target = .named type → L (.type type)
  | .seq nodes _ dest => (∀ tree ∈ nodes, tree.Over L) ∧ OverAll W dest.words
  | .guarded body otherwise _ dest => (∀ tree ∈ body, tree.Over L) ∧
      (∀ tree ∈ otherwise, tree.Over L) ∧ OverAll W dest.words
  | .clauses handled _ dest => (∀ clause ∈ handled, clause.Over L) ∧ OverAll W dest.words
  | .handlers types name _ body _ dest =>
    RescueClause.Over L ⟨types, name, body⟩ ∧ OverAll W dest.words
  | .loop spec => ∀ tree ∈ (Kind.loop spec).children, tree.Over L
  | .forEach spec => L (.var spec.var) ∧ ∀ tree ∈ (Kind.forEach spec).children, tree.Over L
  | .pass spec inner flag held => (∀ tree ∈ (Kind.loop spec).children, tree.Over L) ∧
      W (.label inner) ∧ (∀ name ∈ flag, W (.var name)) ∧ ∀ name ∈ held, W (.var name)
  | .labeledBody body inner flag => (∀ tree ∈ body, tree.Over L) ∧ W (.label inner) ∧
      ∀ name ∈ flag, W (.var name)
  | .within _ task => task.Spans L W

/-- What a task is about is made of words of `L`. -/
abbrev Task.Over (L : Word → Prop) (task : Task) : Prop := task.Spans L L

/-- The words of what a task gives. -/
@[simp]
def Yield.words : Yield → List Word
  | .done => []
  | .value expr => expr.words
  | .values exprs => Expr.wordsAll exprs
  | .handlers added => Stmt.handlersWords added

variable {ctx : Context} {p p' : Progress} {task : Task} {code : Code} {yield : Yield}

theorem Context.over_field (around : OverAll L ctx.words) {name : String} (ofWords : L (.field name))
    (isStatic : Bool) : OverAll L (ctx.field name isStatic).words := by
  have owner : L (.owner ctx.owner) := around _ List.mem_cons_self
  cases isStatic <;> simp [Context.field, Expr.words, owner, ofWords]

theorem Context.over_ownReceiver (around : OverAll L ctx.words) :
    OverAll L ctx.ownReceiver.words := by
  have owner : L (.owner ctx.owner) := around _ List.mem_cons_self
  unfold Context.ownReceiver
  split <;> simp [Expr.words, owner]

theorem Context.over_enter {loop : EnclosingLoop} (around : OverAll L ctx.words)
    (ofWords : OverAll L loop.words) : OverAll L (ctx.enter loop).words := by
  obtain ⟨owner, others⟩ := OverAll.cons_iff.mp around
  exact OverAll.cons_iff.mpr ⟨owner, OverAll.append_iff.mpr ⟨ofWords, others⟩⟩

theorem Context.over_innermost {loop : EnclosingLoop} {others : List EnclosingLoop}
    (around : OverAll L ctx.words) (inside : ctx.loops = loop :: others) : OverAll L loop.words := by
  intro word mem
  refine around word (List.mem_cons_of_mem _ ?_)
  rw [inside]
  exact List.mem_append_left _ mem

theorem Destination.over_put {dest : Destination} {value : Expr} (ofWords : OverAll L dest.words)
    (valueOver : OverAll L value.words) : OverAll L (Stmt.codeWords (dest.put value)) := by
  cases dest with
  | discard => exact .nil
  | store sink => simpa [put, Stmt.codeWords, Stmt.words] using ⟨ofWords, valueOver⟩

theorem Destination.over_putEffect {dest : Destination} {value : Expr}
    (ofWords : OverAll L dest.words) (valueOver : OverAll L value.words) :
    OverAll L (dest.putEffect value).words := by
  cases dest with
  | discard => exact valueOver
  | store sink => exact OverAll.append_iff.mpr ⟨ofWords, valueOver⟩

/-- The own expression of a node has the words of its operands and of the node. -/
theorem Kind.over_build? (standard : Word.Standard L) {kind : Kind Tree} {type : JavaType}
    {exprs : List Expr} {expr : Expr} (built : kind.build? ctx type exprs = some expr)
    (around : OverAll L ctx.words) (own : OverAll L kind.words)
    (operands : OverAll L (Expr.wordsAll exprs)) : OverAll L expr.words := by
  have receiver := Context.over_ownReceiver around
  have missing := standard.defaultValue type.held
  unfold Kind.build? at built
  split at built <;> cases built <;>
    simp only [Kind.words, Expr.words, Expr.wordsAll, List.append_nil, OverAll.append_iff,
      OverAll.cons_iff, OverAll.nil, and_true] at own operands ⊢
  case h_4 => exact Context.over_field around own _
  case h_7 => exact ⟨standard.owner own.1, own.2, operands⟩
  case h_16 => exact ⟨standard.base own, operands⟩
  all_goals simp only [own, operands, receiver, missing, and_self]

/-- The fields that the code refers to are named and typed in words of `L`. -/
def Progress.Over (L : Word → Prop) (p : Progress) : Prop :=
  ∀ use ∈ p.fields, L (.field use.name) ∧ L (.type use.type)

namespace Progress

@[simp]
theorem over_takeTemp {type : JavaType} : (p.takeTemp type).Over L ↔ p.Over L := Iff.rfl

@[simp]
theorem over_takeName : p.takeName.Over L ↔ p.Over L := Iff.rfl

@[simp]
theorem over_takeLabels : p.takeLabels.Over L ↔ p.Over L := Iff.rfl

@[simp]
theorem over_setScope {scope : Scope} : ({ p with scope := scope } : Progress).Over L ↔ p.Over L :=
  Iff.rfl

@[simp]
theorem over_takeFlag {redo : Bool} : (p.takeFlag redo).Over L ↔ p.Over L := by
  cases redo <;> exact Iff.rfl

theorem over_enter {binding : Option Param} (ofWords : p.Over L) : (p.enter binding).Over L := by
  unfold enter
  split
  · exact ofWords
  · split <;> exact ofWords

theorem over_leave {binding : Option Param} (ofWords : p'.Over L) : (p.leave binding p').Over L := by
  unfold leave
  split
  · exact ofWords
  · split <;> exact ofWords

theorem Over.useField {use : FieldUse} (ofWords : p.Over L) (name : L (.field use.name))
    (type : L (.type use.type)) : (p.useField use).Over L := by
  unfold Progress.useField
  split
  · exact ofWords
  · exact List.forall_mem_append.mpr ⟨ofWords, List.forall_mem_singleton.mpr ⟨name, type⟩⟩

end Progress

/-- Code that a task gives, with its result and the fields referred to, is made of words of `L`. -/
structure Made (L : Word → Prop) (code : Code) (yield : Yield) (p : Progress) : Prop where
  code : OverAll L (Stmt.codeWords code)
  yield : OverAll L yield.words
  fields : p.Over L

theorem Kind.over_noteUse {kind : Kind Tree} {type : JavaType} (ofWords : L (.type type))
    (own : OverAll L kind.words) (kept : p.Over L) : (kind.noteUse type p).Over L := by
  cases kind with
  | field name isStatic => exact kept.useField (OverAll.cons_iff.mp own).1 ofWords
  | _ => exact kept

theorem over_declareTemp (closed : Word.Closed L) (p : Progress) {type : JavaType} {init : Expr}
    (ofWords : L (.type type)) (initOver : OverAll L init.words) :
    OverAll L (p.declareTemp type init).words :=
  OverAll.cons_iff.mpr ⟨ofWords, OverAll.cons_iff.mpr ⟨closed.temp _, initOver⟩⟩

theorem over_default (standard : Word.Standard L) (type : JavaType) :
    OverAll L (Expr.literal type.defaultValue).words :=
  OverAll.cons_iff.mpr ⟨standard.defaultValue type, .nil⟩

theorem over_null (standard : Word.Standard L) : OverAll L (Expr.literal .null).words :=
  OverAll.cons_iff.mpr ⟨standard.null, .nil⟩

theorem over_head? {exprs : List Expr} (ofWords : OverAll L (Expr.wordsAll exprs)) :
    OverAll L (exprs.head?.elim [] Expr.words) := by
  cases exprs with
  | nil => exact .nil
  | cons expr rest => exact (OverAll.append_iff.mp ofWords).1

theorem over_bool (standard : Word.Standard L) (value : Bool) :
    OverAll L (Expr.literal (.bool value)).words :=
  OverAll.cons_iff.mpr ⟨standard.bool value, .nil⟩

theorem over_var {name : String} (ofWords : L (.var name)) : OverAll L (Expr.var name).words :=
  OverAll.cons_iff.mpr ⟨ofWords, .nil⟩

theorem over_declareFlag (closed : Word.Closed L) (p : Progress) : OverAll L p.declareFlag.words :=
  over_declareTemp closed p closed.boolean (over_default closed.toStandard .boolean)

theorem over_flag (closed : Word.Closed L) (p : Progress) (redo : Bool) :
    ∀ name ∈ p.flag redo, L (.var name) := by
  intro name found
  unfold Progress.flag at found
  split at found
  · cases found
    exact closed.temp _
  · cases found

theorem over_flagCode (closed : Word.Closed L) (p : Progress) (redo : Bool) :
    OverAll L (Stmt.codeWords (p.flagCode redo)) := by
  unfold Progress.flagCode
  split
  · simpa using over_declareFlag closed p
  · exact .nil

/-- The words around the body of a labeled loop. -/
theorem over_enter_labeled (label : ∀ n, L (.label (labelName n))) (around : OverAll L ctx.words)
    (p : Progress) (form : LoopForm) {flag : Option String} (ofWords : ∀ name ∈ flag, L (.var name)) :
    OverAll L (ctx.enter ⟨form, p.nextLabels, flag⟩).words := by
  refine Context.over_enter around ?_
  have outer : L (.label p.nextLabels.outer) := label _
  have inner : L (.label p.nextLabels.inner) := label _
  cases flag with
  | none => simp [EnclosingLoop.words, outer, inner]
  | some name => simpa [EnclosingLoop.words, outer, inner] using ofWords name rfl

/-- The code of a task is made of the words around it and of its own. -/
theorem Lowers.ofWords (closed : Word.Closed L) (lowers : Lowers ctx p task code yield p')
    (around : OverAll L ctx.words) (ofWords : task.Over L) (kept : p.Over L) :
    Made L code yield p' := by
  have temp : ∀ p : Progress, L (.var p.nextTemp) := fun p => closed.temp _
  have outer : ∀ p : Progress, L (.label p.nextLabels.outer) := fun p => closed.label _
  have inner : ∀ p : Progress, L (.label p.nextLabels.inner) := fun p => closed.label _
  induction lowers with
  | own operands built ih =>
    obtain ⟨type, own, children⟩ := Tree.over_node.mp ofWords
    obtain ⟨front, values, kept⟩ := ih around children kept
    exact ⟨front, Kind.over_build? closed.toStandard built around own values,
      Kind.over_noteUse type own kept⟩
  | inlineOwn _ _ ih | inlineTemp _ ih | valueInline _ _ ih | valueTemp _ _ ih | fixedInline _ _ ih
  | fixedTemp _ ih | keptInline _ _ ih | keptTemp _ ih | freshTemp _ ih =>
    exact ih around ofWords kept
  | operandsNil | effectsNil | maybeNone | handlersNil | clausesNil => exact ⟨.nil, .nil, kept⟩
  | operandsCons _ _ ih₁ ih₂ =>
    obtain ⟨first, rest⟩ := List.forall_mem_cons.mp ofWords
    obtain ⟨front, value, kept⟩ := ih₁ around first kept
    obtain ⟨behind, values, kept⟩ := ih₂ around rest kept
    exact ⟨by simpa using ⟨front, behind⟩, by simpa using ⟨value, values⟩, kept⟩
  | @freshInline _ _ tree _ _ q _ _ ih =>
    obtain ⟨front, value, kept⟩ := ih around ofWords kept
    have declared := over_declareTemp closed q (closed.held (Tree.Over.type ofWords)) value
    exact ⟨by simpa using ⟨front, declared⟩, over_var (temp q), kept⟩
  | @tempLoop _ _ _ _ q _ _ ih =>
    obtain ⟨front, -, kept⟩ := ih around ⟨ofWords, .nil⟩ kept
    have declared := over_declareTemp closed q closed.object (over_null closed.toStandard)
    exact ⟨by simpa using ⟨front, declared⟩, over_var (temp q), kept⟩
  | tempAssign _ ih =>
    obtain ⟨front, -, kept⟩ := ih around ⟨ofWords, .nil⟩ kept
    obtain ⟨-, own, -⟩ := Tree.over_node.mp ofWords
    exact ⟨front, own, kept⟩
  | @tempStore _ p tree _ _ _ ih =>
    obtain ⟨behind, -, kept⟩ := ih around ⟨ofWords, by simp [temp]⟩ kept
    have declared := over_declareTemp closed p (closed.held (Tree.Over.type ofWords))
      (over_default closed.toStandard tree.type.held)
    exact ⟨by simpa using ⟨declared, behind⟩, over_var (temp p), kept⟩
  | discardValue _ _ ih => exact ih around ofWords.1.children kept
  | storeValue _ _ ih =>
    obtain ⟨front, value, kept⟩ := ih around ofWords.1 kept
    exact ⟨by simpa using ⟨front, ofWords.2, value⟩, .nil, kept⟩
  | putEffect _ _ ih =>
    obtain ⟨front, value, kept⟩ := ih around ofWords.1 kept
    exact ⟨by simpa using ⟨front, Destination.over_putEffect ofWords.2 value⟩, .nil, kept⟩
  | @assignKnown _ _ name value _ dest _ _ _ _ _ ih =>
    obtain ⟨-, own, children⟩ := Tree.over_node.mp ofWords.1
    obtain ⟨front, assigned, kept⟩ := ih around (children value List.mem_cons_self) kept
    have known : L (.var name) := (OverAll.cons_iff.mp own).1
    have put := Destination.over_put ofWords.2 (over_var known)
    exact ⟨by simpa [known] using ⟨front, assigned, put⟩, .nil, kept⟩
  | @assignNew _ _ name value type dest _ _ _ _ _ _ ih =>
    obtain ⟨held, own, children⟩ := Tree.over_node.mp ofWords.1
    obtain ⟨front, assigned, kept⟩ := ih around (children value List.mem_cons_self) kept
    have known : L (.var name) := (OverAll.cons_iff.mp own).1
    have put := Destination.over_put ofWords.2 (over_var known)
    exact ⟨by simpa [known, closed.held held] using ⟨front, assigned, put⟩, .nil, kept⟩
  | @setField _ _ name value isStatic _ dest _ _ _ _ ih =>
    obtain ⟨held, own, children⟩ := Tree.over_node.mp ofWords.1
    obtain ⟨front, assigned, kept⟩ := ih around (children value List.mem_cons_self)
      (kept.useField (OverAll.cons_iff.mp own).1 (closed.held held))
    have field := Context.over_field around (OverAll.cons_iff.mp own).1 isStatic
    have put := Destination.over_put ofWords.2 field
    exact ⟨by simpa using ⟨front, field, assigned, put⟩, .nil, kept⟩
  | @voidCall _ _ receiver method _ _ _ _ _ _ _ _ _ _ _ _ _ _ ih₁ ih₂ =>
    obtain ⟨-, own, children⟩ := Tree.over_node.mp ofWords.1
    obtain ⟨target, args⟩ := List.forall_mem_append.mp children
    have called : L (.method method) := own _ (by cases receiver <;> simp [Kind.words])
    have named : ∀ type, receiver = .named type → L (.type type) := by
      rintro type rfl
      exact own _ List.mem_cons_self
    obtain ⟨front, values, kept⟩ := ih₁ around ⟨target, named⟩ kept
    obtain ⟨behind, operands, kept⟩ := ih₂ around args kept
    simp only [Yield.words, Expr.wordsAll, List.append_nil, OverAll.append_iff] at values operands
    exact ⟨by simpa [called] using ⟨front, behind, values.1, operands, ofWords.2, values.2⟩, .nil, kept⟩
  | @receiverOwn ctx _ =>
    have receiver := Context.over_ownReceiver around
    refine ⟨.nil, ?_, kept⟩
    cases isStatic : ctx.isStatic <;> simpa [isStatic, closed.null] using receiver
  | receiverNamed => exact ⟨.nil, by simpa [closed.null] using closed.owner (ofWords.2 _ rfl), kept⟩
  | receiverValue _ ih =>
    obtain ⟨front, value, kept⟩ := ih around (ofWords.1 _ List.mem_cons_self) kept
    exact ⟨front, by simpa using value, kept⟩
  | condElse _ _ _ ih₁ ih₂ ih₃ =>
    obtain ⟨test, yes, no⟩ := Tree.over_cond ofWords.1
    obtain ⟨front, tested, kept⟩ := ih₁ around test kept
    obtain ⟨first, -, kept⟩ := ih₂ around ⟨yes, ofWords.2⟩ kept
    obtain ⟨second, -, kept⟩ := ih₃ around ⟨no, ofWords.2⟩ kept
    exact ⟨by simpa using ⟨front, tested, first, second⟩, .nil, kept⟩
  | condThen _ _ ih₁ ih₂ =>
    obtain ⟨test, yes, -⟩ := Tree.over_cond ofWords.1
    obtain ⟨front, tested, kept⟩ := ih₁ around test kept
    obtain ⟨first, -, kept⟩ := ih₂ around ⟨yes, ofWords.2⟩ kept
    exact ⟨by simpa using ⟨front, tested, first⟩, .nil, kept⟩
  | andStore _ _ ih₁ ih₂ | orStore _ _ ih₁ ih₂ =>
    obtain ⟨left, right⟩ := ofWords.1.both rfl
    obtain ⟨front, tested, kept⟩ := ih₁ around left kept
    obtain ⟨run, -, kept⟩ := ih₂ around ⟨right, ofWords.2⟩ kept
    refine ⟨?_, .nil, kept⟩
    have sink := ofWords.2
    simp_all [closed.bool]
  | logicalDiscard _ _ _ ih₁ ih₂ =>
    obtain ⟨left, right⟩ := ofWords.1.both rfl
    obtain ⟨front, tested, kept⟩ := ih₁ around left kept
    obtain ⟨run, -, kept⟩ := ih₂ around ⟨right, .nil⟩ kept
    exact ⟨by simpa using ⟨front, tested, run⟩, .nil, kept⟩
  | seq _ ih => exact ih around ⟨ofWords.1.children, ofWords.2⟩ kept
  | seqNil | armNone =>
    exact ⟨Destination.over_put ofWords.2 (over_default closed.toStandard _), .nil, kept⟩
  | seqLast _ ih => exact ih around ⟨ofWords.1 _ List.mem_cons_self, ofWords.2⟩ kept
  | seqCons _ _ ih₁ ih₂ =>
    obtain ⟨first, rest⟩ := List.forall_mem_cons.mp ofWords.1
    obtain ⟨front, -, kept⟩ := ih₁ around ⟨first, .nil⟩ kept
    obtain ⟨behind, -, kept⟩ := ih₂ around ⟨rest, ofWords.2⟩ kept
    exact ⟨by simpa using ⟨front, behind⟩, .nil, kept⟩
  | effectsCons _ _ ih₁ ih₂ =>
    obtain ⟨first, rest⟩ := List.forall_mem_cons.mp ofWords
    obtain ⟨front, -, kept⟩ := ih₁ around ⟨first, .nil⟩ kept
    obtain ⟨behind, -, kept⟩ := ih₂ around rest kept
    exact ⟨by simpa using ⟨front, behind⟩, .nil, kept⟩
  | maybeSome _ ih | armSome _ ih => exact ih around ⟨ofWords.1 _ rfl, ofWords.2⟩ kept
  | @jump ctx _ action _ _ code loop others inside jumps =>
    have innermost := Context.over_innermost around inside
    refine ⟨?_, .nil, kept⟩
    obtain ⟨form, labels, flag⟩ := loop
    cases jumps with
    | «break» => cases labels <;> simp_all [EnclosingLoop.words]
    | nextPlain plain => simp
    | nextLabeled labeled => cases labeled; simp_all [EnclosingLoop.words]
    | redo labeled flagged =>
      cases labeled
      cases flagged
      simp_all [EnclosingLoop.words, closed.bool]
  | retNone => exact ⟨by simp, .nil, kept⟩
  | retVoid _ _ ih =>
    obtain ⟨front, -, kept⟩ := ih around ⟨ofWords.1.children _ List.mem_cons_self, .nil⟩ kept
    exact ⟨by simpa using front, .nil, kept⟩
  | retInline _ _ _ ih | raiseInline _ _ ih =>
    obtain ⟨front, value, kept⟩ := ih around (ofWords.1.children _ List.mem_cons_self) kept
    exact ⟨by simpa using ⟨front, value⟩, .nil, kept⟩
  | retStore _ _ ih | raiseStore _ ih =>
    exact ih around ⟨ofWords.1.children _ List.mem_cons_self, .nil⟩ kept
  | print _ ih =>
    obtain ⟨front, values, kept⟩ := ih around ofWords.1.children kept
    have printed := over_head? values
    have put := Destination.over_put ofWords.2 (over_null closed.toStandard)
    exact ⟨by simpa using ⟨front, printed, put⟩, .nil, kept⟩
  | guardedPlain _ ih => exact ih around ⟨ofWords.1, ofWords.2.2⟩ kept
  | guardedElse _ _ ih₁ ih₂ =>
    obtain ⟨front, -, kept⟩ := ih₁ around ⟨ofWords.1, .nil⟩ kept
    obtain ⟨behind, -, kept⟩ := ih₂ around ⟨ofWords.2.1 _ rfl, ofWords.2.2⟩ kept
    exact ⟨by simpa using ⟨front, behind⟩, .nil, kept⟩
  | rescueNone _ ih =>
    obtain ⟨body, -, otherwise⟩ := Tree.over_rescue ofWords.1
    exact ih around ⟨body, otherwise, ofWords.2⟩ kept
  | rescue _ _ _ ih₁ ih₂ =>
    obtain ⟨body, clauses, otherwise⟩ := Tree.over_rescue ofWords.1
    obtain ⟨inner, -, kept⟩ := ih₁ around ⟨body, otherwise, ofWords.2⟩ kept
    obtain ⟨-, handled, kept⟩ := ih₂ around ⟨clauses, ofWords.2⟩ kept
    exact ⟨by simpa using ⟨inner, handled⟩, .nil, kept⟩
  | @clausesCons _ _ clause _ _ _ _ _ _ _ _ _ ih₁ ih₂ =>
    obtain ⟨first, rest⟩ := List.forall_mem_cons.mp ofWords.1
    have types : ∀ type ∈ if clause.types.isEmpty then [anyException] else clause.types,
        L (.type type) := by
      split
      · simpa using closed.exception
      · exact first.1
    obtain ⟨-, handled, kept⟩ := ih₁ around ⟨⟨types, first.2⟩, ofWords.2⟩ kept
    obtain ⟨-, others, kept⟩ := ih₂ around ⟨rest, ofWords.2⟩ kept
    exact ⟨.nil, by simpa using ⟨handled, others⟩, kept⟩
  | handlersNamed _ _ ih₁ ih₂ =>
    obtain ⟨⟨types, name, body⟩, dest⟩ := ofWords
    obtain ⟨type, rest⟩ := List.forall_mem_cons.mp types
    obtain ⟨inner, -, kept⟩ := ih₁ around ⟨body, dest⟩ kept
    obtain ⟨-, handled, kept⟩ := ih₂ around ⟨⟨rest, name, body⟩, dest⟩ kept
    exact ⟨.nil, by simpa using ⟨type, name _ rfl, inner, handled⟩, kept⟩
  | @handlersFresh _ p _ _ name _ _ _ _ _ _ _ _ _ _ _ ih₁ ih₂ =>
    obtain ⟨⟨types, named, body⟩, dest⟩ := ofWords
    obtain ⟨type, rest⟩ := List.forall_mem_cons.mp types
    obtain ⟨inner, -, kept⟩ := ih₁ around ⟨body, dest⟩ kept
    obtain ⟨-, handled, kept⟩ := ih₂ around ⟨⟨rest, named, body⟩, dest⟩ kept
    have copied : OverAll L (Stmt.codeWords (copyCode p.nextTemp name)) := by
      cases name with
      | none => exact .nil
      | some name => simpa [copyCode, temp] using named name rfl
    exact ⟨.nil, by simpa [temp] using ⟨type, copied, inner, handled⟩, kept⟩
  | ensure _ _ ih₁ ih₂ =>
    obtain ⟨body, cleanup⟩ := ofWords.1.both rfl
    obtain ⟨inner, -, kept⟩ := ih₁ around ⟨body, ofWords.2⟩ kept
    obtain ⟨last, -, kept⟩ := ih₂ around ⟨cleanup, .nil⟩ kept
    exact ⟨by simpa using ⟨inner, last⟩, .nil, kept⟩
  | loop _ ih =>
    obtain ⟨front, -, kept⟩ := ih around ofWords.1.children kept
    have put := Destination.over_put ofWords.2 (over_null closed.toStandard)
    exact ⟨by simpa using ⟨front, put⟩, .nil, kept⟩
  | forEach _ ih =>
    obtain ⟨-, own, children⟩ := Tree.over_node.mp ofWords.1
    obtain ⟨front, -, kept⟩ := ih around ⟨(OverAll.cons_iff.mp own).1, children⟩ kept
    have put := Destination.over_put ofWords.2 (over_null closed.toStandard)
    exact ⟨by simpa using ⟨front, put⟩, .nil, kept⟩
  | plainLoop _ _ _ _ _ _ _ ih₁ ih₂ ih₃ ih₄ =>
    obtain ⟨init, cond, pre, body, -⟩ := Loop.each_of_children ofWords
    obtain ⟨front, -, kept⟩ := ih₁ around ⟨init, .nil⟩ kept
    obtain ⟨behind, tested, kept⟩ := ih₂ around cond kept
    obtain ⟨opened, -, kept⟩ := ih₃ (Context.over_enter around .nil) ⟨pre, .nil⟩ kept
    obtain ⟨passed, -, kept⟩ := ih₄ (Context.over_enter around .nil) ⟨body, .nil⟩ kept
    exact ⟨by simpa using ⟨front, behind, tested, opened, passed⟩, .nil, kept⟩
  | @testedLoop _ _ spec _ _ _ _ _ q _ _ _ _ _ _ ih₁ ih₂ ih₃ =>
    obtain ⟨init, cond, -⟩ := Loop.each_of_children ofWords
    obtain ⟨front, -, kept⟩ := ih₁ around ⟨init, .nil⟩ kept
    obtain ⟨behind, tested, kept⟩ := ih₂ around cond kept
    have flag := over_flag closed q spec.redo
    obtain ⟨passed, -, kept⟩ := ih₃ (over_enter_labeled closed.label around q _ flag)
      ⟨ofWords, inner q, flag, by simp⟩ (Progress.over_takeFlag.mpr kept)
    have again := over_flagCode closed q spec.redo
    exact ⟨by simpa [outer] using ⟨front, behind, tested, again, passed⟩, .nil, kept⟩
  | @heldLoop _ _ spec _ _ _ p₁ q _ _ _ _ _ ih₁ ih₂ ih₃ =>
    obtain ⟨init, cond, -⟩ := Loop.each_of_children ofWords
    obtain ⟨front, -, kept⟩ := ih₁ around ⟨init, .nil⟩ kept
    obtain ⟨behind, -, kept⟩ := ih₂ around ⟨Loop.over_first cond, by simpa using temp p₁⟩ kept
    have flag := over_flag closed q spec.redo
    obtain ⟨passed, -, kept⟩ := ih₃ (over_enter_labeled closed.label around q _ flag)
      ⟨ofWords, inner q, flag, by simpa using temp p₁⟩ (Progress.over_takeFlag.mpr kept)
    have held := over_declareFlag closed p₁
    have again := over_flagCode closed q spec.redo
    exact ⟨by simpa [temp, outer] using ⟨front, held, behind, again, passed⟩, .nil, kept⟩
  | @pass _ _ spec _ _ held _ _ _ _ _ _ _ _ _ _ _ _ ih₁ ih₂ ih₃ ih₄ =>
    obtain ⟨parts, label, flag, again⟩ := ofWords
    obtain ⟨-, cond, pre, body, post⟩ := Loop.each_of_children parts
    obtain ⟨opened, -, kept⟩ := ih₁ around ⟨pre, .nil⟩ kept
    obtain ⟨passed, -, kept⟩ := ih₂ around ⟨body, label, flag⟩ kept
    obtain ⟨ended, -, kept⟩ := ih₃ around ⟨post, .nil⟩ kept
    obtain ⟨tested, -, kept⟩ := ih₄ around
      (by cases held <;> simp_all [Task.Spans, Destination.words]) kept
    exact ⟨by simpa using ⟨opened, passed, ended, tested⟩, .nil, kept⟩
  | @labeledBody _ _ _ _ flag _ _ _ ih =>
    obtain ⟨body, label, flagged⟩ := ofWords
    obtain ⟨passed, -, kept⟩ := ih around ⟨body, .nil⟩ kept
    cases flag with
    | none => exact ⟨by simpa [labeledStmt] using ⟨label, passed⟩, .nil, kept⟩
    | some name =>
      have flagged := flagged name rfl
      exact ⟨by simpa [labeledStmt, closed.bool, flagged] using ⟨label, passed⟩, .nil, kept⟩
  | plainElements _ _ _ _ ih₁ ih₂ | copiedElements _ _ _ _ ih₁ ih₂ =>
    obtain ⟨iterable, body⟩ := ForEach.each_of_children ofWords.2
    obtain ⟨front, iterated, kept⟩ := ih₁ around iterable kept
    obtain ⟨passed, -, kept⟩ := ih₂ (Context.over_enter around .nil) ⟨body, .nil⟩ kept
    have element := closed.element (Tree.Over.type iterable)
    exact ⟨by simpa [ofWords.1, temp] using ⟨front, element, iterated, passed⟩, .nil, kept⟩
  | @labeledElements _ _ _ _ _ _ q _ _ _ _ _ ih₁ ih₂ =>
    obtain ⟨iterable, body⟩ := ForEach.each_of_children ofWords.2
    obtain ⟨front, iterated, kept⟩ := ih₁ around iterable kept
    have flag : ∀ name ∈ some q.nextTemp, L (.var name) := by simpa using temp q
    obtain ⟨passed, -, kept⟩ := ih₂ (over_enter_labeled closed.label around q _ flag)
      ⟨body, inner q, flag⟩ kept
    have element := closed.element (Tree.Over.type iterable)
    have again := over_declareFlag closed q
    exact ⟨by simpa [ofWords.1, outer] using ⟨front, element, iterated, again, passed⟩, .nil, kept⟩
  | @labeledCopies _ _ _ _ _ _ q _ _ _ _ _ ih₁ ih₂ =>
    obtain ⟨iterable, body⟩ := ForEach.each_of_children ofWords.2
    obtain ⟨front, iterated, kept⟩ := ih₁ around iterable kept
    have flag : ∀ name ∈ some q.takeName.nextTemp, L (.var name) := by simpa using temp q.takeName
    obtain ⟨passed, -, kept⟩ := ih₂ (over_enter_labeled closed.label around q _ flag)
      ⟨body, inner q, flag⟩ kept
    have element := closed.element (Tree.Over.type iterable)
    have again := over_declareFlag closed q.takeName
    exact ⟨by simpa [ofWords.1, outer, temp] using ⟨front, element, iterated, again, passed⟩, .nil,
      kept⟩
  | within _ ih =>
    obtain ⟨inner, given, kept⟩ := ih around ofWords (Progress.over_enter kept)
    exact ⟨inner, given, Progress.over_leave kept⟩

end JavaBackend
