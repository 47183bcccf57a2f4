import JavaBackend.Proofs.Words.Lowering

/-!
# Every reference is noted

A field that generated code refers to is one of the fields that were noted while the code was lowered
(`Lowers.backed`). Fields are only ever added to these, so it is enough to look at them behind the code.
-/

namespace JavaBackend

open Java (Stmt Code Expr Sink)

variable {F : String → Prop} {ctx : Context} {p p' : Progress} {task : Task} {code : Code}
  {yield : Yield}

/-- The word is no field, or one of the fields `F`. -/
@[simp]
def Word.Backed (F : String → Prop) : Word → Prop
  | .field name => F name
  | _ => True

theorem Word.backed_closed : Word.Closed (Word.Backed F) where
  object := trivial
  boolean := trivial
  exception := trivial
  component _ := trivial
  owner _ := trivial
  null := trivial
  zero := trivial
  bool _ := trivial
  temp _ := trivial
  label _ := trivial

/-- Neither what stands around code nor where its value goes refers to a field. -/
theorem Context.backed_words (ctx : Context) : OverAll (Word.Backed F) ctx.words := by
  have loop : ∀ loop : EnclosingLoop, OverAll (Word.Backed F) loop.words := by
    rintro ⟨form, labels, flag⟩
    cases labels <;> cases flag <;> simp [EnclosingLoop.words]
  exact OverAll.cons_iff.mpr ⟨trivial, OverAll.flatMap_iff.mpr fun inner _ => loop inner⟩

@[simp]
theorem Java.Sink.backed_words (sink : Sink) : OverAll (Word.Backed F) sink.words := by
  cases sink <;> simp [Sink.words]

theorem Destination.backed_words (dest : Destination) : OverAll (Word.Backed F) dest.words := by
  cases dest with
  | discard => exact .nil
  | store sink => exact sink.backed_words

theorem Destination.backed_put (dest : Destination) {value : Expr}
    (backed : OverAll (Word.Backed F) value.words) :
    OverAll (Word.Backed F) (Stmt.codeWords (dest.put value)) :=
  Destination.over_put dest.backed_words backed

theorem EnclosingLoop.Jumps.backed {loop : EnclosingLoop} {action : Jump}
    (jumps : loop.Jumps action code) : OverAll (Word.Backed F) (Stmt.codeWords code) := by
  cases jumps with
  | «break» => cases loop.labels <;> simp
  | _ => simp

/-- Of the words that a node itself brings to its expression, only those of a field are one. -/
theorem Kind.backed_words {kind : Kind Tree} {type : JavaType} {exprs : List Expr} {expr : Expr}
    (built : kind.build? ctx type exprs = some expr)
    (own : ∀ name isStatic, kind = .field name isStatic → F name) :
    OverAll (Word.Backed F) kind.words := by
  cases kind with
  | field name isStatic => simpa [Kind.words] using own name isStatic rfl
  | setField name value isStatic => simp [Kind.build?] at built
  | call receiver method args returns => cases receiver <;> simp [Kind.words]
  | rescue body clauses otherwise => simp [Kind.build?] at built
  | _ => simp [Kind.words]

/-! ## Progress -/

/-- Every field that is noted is one of the fields `F`. -/
def Progress.Within (F : String → Prop) (p : Progress) : Prop := ∀ use ∈ p.fields, F use.name

namespace Progress

theorem Within.of_useField {use : FieldUse} (within : (p.useField use).Within F) :
    p.Within F ∧ F use.name := by
  unfold useField at within
  split at within
  · next known =>
    obtain ⟨other, mem, same⟩ := List.any_eq_true.mp known
    exact ⟨within, beq_iff_eq.mp same ▸ within other mem⟩
  · obtain ⟨before, here⟩ := List.forall_mem_append.mp within
    exact ⟨before, here _ List.mem_cons_self⟩

theorem Within.of_noteUse {kind : Kind Tree} {type : JavaType} (within : (kind.noteUse type p).Within F) :
    p.Within F ∧ ∀ name isStatic, kind = .field name isStatic → F name := by
  cases kind with
  | field name isStatic =>
    obtain ⟨before, here⟩ := within.of_useField
    refine ⟨before, fun other isStatic' same => ?_⟩
    cases same
    exact here
  | _ => exact ⟨within, nofun⟩

theorem within_takeFlag {redo : Bool} : (p.takeFlag redo).Within F ↔ p.Within F := by
  cases redo <;> exact Iff.rfl

theorem Within.of_enter {binding : Option Param} (within : (p.enter binding).Within F) :
    p.Within F := by
  unfold enter at within
  split at within
  · exact within
  · split at within <;> exact within

theorem Within.of_leave {binding : Option Param} {q : Progress} (within : (p.leave binding q).Within F) :
    q.Within F := by
  unfold leave at within
  split at within
  · exact within
  · split at within <;> exact within

end Progress

/-! ## Code -/

/-- Code and what it gives refer to the fields `F` only, and no other was noted in front of them. -/
structure Backed (F : String → Prop) (p : Progress) (code : Code) (yield : Yield) : Prop where
  code : OverAll (Word.Backed F) (Stmt.codeWords code)
  yield : OverAll (Word.Backed F) yield.words
  before : p.Within F

/-- Generated code refers to fields that were noted. -/
theorem Lowers.backed (lowers : Lowers ctx p task code yield p') (within : p'.Within F) :
    Backed F p code yield := by
  have null : OverAll (Word.Backed F) (Expr.literal .null).words := by simp
  have flagCode : ∀ (p : Progress) redo, OverAll (Word.Backed F) (Stmt.codeWords (p.flagCode redo)) :=
    over_flagCode Word.backed_closed
  -- The induction goes from the end of a task to its start, as the fields that are noted do.
  induction lowers with
  | own _ built ih =>
    obtain ⟨before, here⟩ := within.of_noteUse
    obtain ⟨front, values, before⟩ := ih before
    exact ⟨front, Kind.over_build? Word.backed_closed.toStandard built (Context.backed_words _)
      (Kind.backed_words built here) values, before⟩
  | inlineOwn _ _ ih | inlineTemp _ ih | valueInline _ _ ih | valueTemp _ _ ih | fixedInline _ _ ih
  | fixedTemp _ ih | keptInline _ _ ih | keptTemp _ ih | freshTemp _ ih | discardValue _ _ ih
  | seq _ ih | seqLast _ ih | maybeSome _ ih | armSome _ ih | retStore _ _ ih | raiseStore _ ih
  | guardedPlain _ ih | rescueNone _ ih => exact ih within
  | operandsNil | effectsNil | maybeNone | handlersNil | clausesNil => exact ⟨.nil, .nil, within⟩
  | operandsCons _ _ ih₁ ih₂ =>
    obtain ⟨behind, values, middle⟩ := ih₂ within
    obtain ⟨front, value, before⟩ := ih₁ middle
    exact ⟨by simpa using ⟨front, behind⟩, by simpa using ⟨value, values⟩, before⟩
  | freshInline _ _ ih =>
    obtain ⟨front, value, before⟩ := ih within
    exact ⟨by simpa [Progress.declareTemp] using ⟨front, value⟩, by simp, before⟩
  | tempLoop _ _ ih =>
    obtain ⟨front, -, before⟩ := ih within
    exact ⟨by simpa [Progress.declareTemp] using front, by simp, before⟩
  | tempAssign _ ih =>
    obtain ⟨front, -, before⟩ := ih within
    exact ⟨front, by simp, before⟩
  | tempStore _ ih =>
    obtain ⟨behind, -, before⟩ := ih within
    exact ⟨by simpa [Progress.declareTemp] using behind, by simp, before⟩
  | storeValue _ _ ih | retInline _ _ _ ih | raiseInline _ _ ih =>
    obtain ⟨front, value, before⟩ := ih within
    exact ⟨by simpa using ⟨front, value⟩, .nil, before⟩
  | @putEffect _ _ _ _ dest _ _ _ _ _ ih =>
    obtain ⟨front, value, before⟩ := ih within
    have put := Destination.over_putEffect dest.backed_words value
    exact ⟨by simpa using ⟨front, put⟩, .nil, before⟩
  | @assignKnown _ _ name _ _ dest _ _ _ _ _ ih
  | @assignNew _ _ name _ _ dest _ _ _ _ _ _ ih =>
    obtain ⟨front, value, before⟩ := ih within
    have put : OverAll (Word.Backed F) (Stmt.codeWords (dest.put (.var name))) :=
      dest.backed_put (by simp)
    exact ⟨by simpa using ⟨front, value, put⟩, .nil, before⟩
  | @setField ctx _ name _ isStatic _ dest _ _ _ _ ih =>
    obtain ⟨front, value, before⟩ := ih within
    obtain ⟨before, here⟩ := before.of_useField
    have field : OverAll (Word.Backed F) (ctx.field name isStatic).words :=
      Context.over_field ctx.backed_words here isStatic
    exact ⟨by simpa using ⟨front, field, value, dest.backed_put field⟩, .nil, before⟩
  | voidCall _ _ _ ih₁ ih₂ =>
    obtain ⟨behind, operands, middle⟩ := ih₂ within
    obtain ⟨front, values, before⟩ := ih₁ middle
    simp only [Yield.words, Expr.wordsAll, List.append_nil, OverAll.append_iff] at values operands
    exact ⟨by simpa using ⟨front, behind, values.1, operands, values.2⟩, .nil, before⟩
  | @receiverOwn ctx _ =>
    have receiver : OverAll (Word.Backed F) ctx.ownReceiver.words :=
      Context.over_ownReceiver ctx.backed_words
    refine ⟨.nil, ?_, within⟩
    cases isStatic : ctx.isStatic <;> simpa [isStatic] using receiver
  | receiverNamed => exact ⟨.nil, by simp, within⟩
  | receiverValue _ ih =>
    obtain ⟨front, value, before⟩ := ih within
    exact ⟨front, by simpa using value, before⟩
  | condElse _ _ _ ih₁ ih₂ ih₃ =>
    obtain ⟨no, -, between⟩ := ih₃ within
    obtain ⟨yes, -, middle⟩ := ih₂ between
    obtain ⟨front, tested, before⟩ := ih₁ middle
    exact ⟨by simpa using ⟨front, tested, yes, no⟩, .nil, before⟩
  | condThen _ _ ih₁ ih₂ | andStore _ _ ih₁ ih₂ | orStore _ _ ih₁ ih₂ | logicalDiscard _ _ _ ih₁ ih₂ =>
    obtain ⟨run, -, middle⟩ := ih₂ within
    obtain ⟨front, tested, before⟩ := ih₁ middle
    exact ⟨by simpa using ⟨front, tested, run⟩, .nil, before⟩
  | @seqNil _ _ _ dest | @armNone _ _ dest _ => exact ⟨dest.backed_put (by simp), .nil, within⟩
  | seqCons _ _ ih₁ ih₂ | effectsCons _ _ ih₁ ih₂ | guardedElse _ _ ih₁ ih₂ =>
    obtain ⟨behind, -, middle⟩ := ih₂ within
    obtain ⟨front, -, before⟩ := ih₁ middle
    exact ⟨by simpa using ⟨front, behind⟩, .nil, before⟩
  | jump _ jumps => exact ⟨jumps.backed, .nil, within⟩
  | retNone => exact ⟨by simp, .nil, within⟩
  | retVoid _ _ ih =>
    obtain ⟨front, -, before⟩ := ih within
    exact ⟨by simpa using front, .nil, before⟩
  | @print _ _ _ _ _ dest _ _ _ _ ih =>
    obtain ⟨front, values, before⟩ := ih within
    have printed := over_head? values
    exact ⟨by simpa using ⟨front, printed, dest.backed_put null⟩, .nil, before⟩
  | rescue _ _ _ ih₁ ih₂ =>
    obtain ⟨-, handled, middle⟩ := ih₂ within
    obtain ⟨inner, -, before⟩ := ih₁ middle
    exact ⟨by simpa using ⟨inner, handled⟩, .nil, before⟩
  | clausesCons _ _ ih₁ ih₂ =>
    obtain ⟨-, others, middle⟩ := ih₂ within
    obtain ⟨-, handled, before⟩ := ih₁ middle
    exact ⟨.nil, by simpa using ⟨handled, others⟩, before⟩
  | handlersNamed _ _ ih₁ ih₂ =>
    obtain ⟨-, others, middle⟩ := ih₂ within
    obtain ⟨handled, -, before⟩ := ih₁ middle
    exact ⟨.nil, by simpa using ⟨handled, others⟩, before⟩
  | @handlersFresh _ p _ _ name _ _ _ _ _ _ _ _ _ _ _ ih₁ ih₂ =>
    obtain ⟨-, others, middle⟩ := ih₂ within
    obtain ⟨handled, -, before⟩ := ih₁ middle
    have copied : OverAll (Word.Backed F) (Stmt.codeWords (copyCode p.nextTemp name)) := by
      cases name <;> simp [copyCode]
    exact ⟨.nil, by simpa using ⟨copied, handled, others⟩, before⟩
  | ensure _ _ ih₁ ih₂ =>
    obtain ⟨last, -, middle⟩ := ih₂ within
    obtain ⟨inner, -, before⟩ := ih₁ middle
    exact ⟨by simpa using ⟨inner, last⟩, .nil, before⟩
  | @loop _ _ _ _ dest _ _ _ ih | @forEach _ _ _ _ dest _ _ _ ih =>
    obtain ⟨front, -, before⟩ := ih within
    exact ⟨by simpa using ⟨front, dest.backed_put null⟩, .nil, before⟩
  | plainLoop _ _ _ _ _ _ _ ih₁ ih₂ ih₃ ih₄ =>
    obtain ⟨body, -, between⟩ := ih₄ within
    obtain ⟨pre, -, middle⟩ := ih₃ between
    obtain ⟨test, tested, behind⟩ := ih₂ middle
    obtain ⟨front, -, before⟩ := ih₁ behind
    exact ⟨by simpa using ⟨front, test, tested, pre, body⟩, .nil, before⟩
  | @testedLoop _ _ spec _ _ _ _ _ q _ _ _ _ _ _ ih₁ ih₂ ih₃ =>
    obtain ⟨pass, -, middle⟩ := ih₃ within
    have unlabeled : q.takeLabels.Within F := Progress.within_takeFlag.mp middle
    obtain ⟨test, tested, behind⟩ := ih₂ unlabeled
    obtain ⟨front, -, before⟩ := ih₁ behind
    exact ⟨by simpa using ⟨front, test, tested, flagCode q spec.redo, pass⟩, .nil, before⟩
  | @heldLoop _ _ spec _ _ _ p₁ q _ _ _ _ _ ih₁ ih₂ ih₃ =>
    obtain ⟨pass, -, middle⟩ := ih₃ within
    have unlabeled : q.takeLabels.Within F := Progress.within_takeFlag.mp middle
    obtain ⟨first, -, behind⟩ := ih₂ unlabeled
    obtain ⟨front, -, before⟩ := ih₁ behind
    exact ⟨by simpa [Progress.declareFlag, Progress.declareTemp] using
      ⟨front, first, flagCode q spec.redo, pass⟩, .nil, before⟩
  | pass _ _ _ _ ih₁ ih₂ ih₃ ih₄ =>
    obtain ⟨test, -, between⟩ := ih₄ within
    obtain ⟨post, -, middle⟩ := ih₃ between
    obtain ⟨body, -, behind⟩ := ih₂ middle
    obtain ⟨front, -, before⟩ := ih₁ behind
    exact ⟨by simpa using ⟨front, body, post, test⟩, .nil, before⟩
  | @labeledBody _ _ _ _ flag _ _ _ ih =>
    obtain ⟨body, -, before⟩ := ih within
    exact ⟨by cases flag <;> simpa [labeledStmt] using body, .nil, before⟩
  | plainElements _ _ _ _ ih₁ ih₂ | copiedElements _ _ _ _ ih₁ ih₂ =>
    obtain ⟨pass, -, middle⟩ := ih₂ within
    obtain ⟨front, iterated, before⟩ := ih₁ middle
    exact ⟨by simpa using ⟨front, iterated, pass⟩, .nil, before⟩
  | labeledElements _ _ _ _ ih₁ ih₂ | labeledCopies _ _ _ _ ih₁ ih₂ =>
    obtain ⟨pass, -, middle⟩ := ih₂ within
    obtain ⟨front, iterated, before⟩ := ih₁ middle
    exact ⟨by simpa [Progress.declareFlag, Progress.declareTemp] using ⟨front, iterated, pass⟩, .nil,
      before⟩
  | within _ ih =>
    obtain ⟨inner, value, before⟩ := ih within.of_leave
    exact ⟨inner, value, before.of_enter⟩

end JavaBackend
