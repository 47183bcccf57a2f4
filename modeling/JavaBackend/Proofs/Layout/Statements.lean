import JavaBackend.Proofs.Layout.Words

/-!
# The lines of statements

The lines of statements start and end at the level of the block around them, and each line in
between stands at the level of its own block (`Stmt.tracks`). A block is never left at a depth below
one step of indentation, so no step is lost.
-/

namespace JavaBackend

open Java (Stmt Code Piece Expr Test Handler Sink)

/-- Write one piece, if the buffer is deep enough for it: a block is closed only where there is a step
    of indentation to take back. -/
def layPiece? (out : Text.Buffer) (piece : Piece) : Option Text.Buffer :=
  match piece with
  | .line _ | .opening _ => some (layPiece out piece)
  | .next _ | .closing _ => if out.step ≤ out.depth then some (layPiece out piece) else none

/-- The pieces are written as nested lines, from the level `d` to the level `d'`. -/
def Tracks (d : Nat) (pieces : List Piece) (d' : Nat) : Prop :=
  ∃ lines, Nested d lines d' ∧ ∀ b before, b.Holds before d →
    pieces.foldlM layPiece? b = some (pieces.foldl layPiece b) ∧
      (pieces.foldl layPiece b).Holds (before ++ lines) d'

namespace Tracks

variable {d d₁ d' : Nat} {pieces rest : List Piece}

theorem nil : Tracks d [] d :=
  ⟨[], .nil, fun _ before holds => ⟨rfl, by rwa [List.append_nil]⟩⟩

theorem append (first : Tracks d pieces d₁) (second : Tracks d₁ rest d') :
    Tracks d (pieces ++ rest) d' := by
  obtain ⟨lines, nested, laid⟩ := first
  obtain ⟨more, deeper, last⟩ := second
  refine ⟨lines ++ more, nested.append deeper, fun b before holds => ?_⟩
  obtain ⟨checked, middle⟩ := laid b before holds
  obtain ⟨others, ends⟩ := last _ _ middle
  rw [List.foldl_append, List.foldlM_append, checked, ← List.append_assoc]
  exact ⟨others, ends⟩

theorem cons {piece : Piece} (first : Tracks d [piece] d₁) (second : Tracks d₁ rest d') :
    Tracks d (piece :: rest) d' := first.append second

theorem line {text : String} (whole : '\n' ∉ text.toList)
    (starts : Line.startsPlain text.toList = true)
    (last : text.toList.getLast? ≠ some '\x7b') : Tracks d [.line text] d :=
  ⟨[⟨d, text.toList⟩], .plain starts last .nil, fun _ _ holds => ⟨rfl, holds.putLine whole⟩⟩

theorem getLast?_brace (text : String) : (text ++ " \x7b").toList.getLast? = some '\x7b' := by
  simp

theorem opening {heading : String} (whole : '\n' ∉ heading.toList)
    (starts : heading = "" ∨ Line.startsPlain heading.toList = true) :
    Tracks d [.opening heading] (d + 1) := by
  have written : ∃ text, (if heading.isEmpty then "\x7b" else heading ++ " \x7b") = text ∧
      '\n' ∉ text.toList ∧ Line.startsPlain text.toList = true ∧
      text.toList.getLast? = some '\x7b' := by
    refine ⟨_, rfl, ?_⟩
    rcases starts with rfl | starts
    · decide
    · have filled : heading.isEmpty = false := by
        rw [Bool.eq_false_iff, ne_eq, String.isEmpty_iff]
        rintro rfl
        cases starts
      rw [filled]
      refine ⟨?_, ?_, getLast?_brace heading⟩
      · simpa using whole
      · simpa using startsPlain_append starts " \x7b".toList
  obtain ⟨text, same, whole, starts, last⟩ := written
  refine ⟨[⟨d, text.toList⟩], .opening starts last .nil, fun b _ holds => ⟨rfl, ?_⟩⟩
  simp only [List.foldl_cons, List.foldl_nil, layPiece, same]
  exact (holds.putLine whole).indent

theorem deep_enough {b : Text.Buffer} {lines : List Line} (holds : b.Holds lines (d + 1)) :
    b.step ≤ b.depth := by
  rw [holds.depth, Nat.succ_mul]
  exact Nat.le_add_left _ _

theorem next {heading : String} (whole : '\n' ∉ heading.toList) :
    Tracks (d + 1) [.next heading] (d + 1) := by
  have chars : ("\x7d " ++ heading ++ " \x7b").toList =
      '\x7d' :: (" ".toList ++ (heading.toList ++ " \x7b".toList)) := by simp
  have unbroken : '\n' ∉ ("\x7d " ++ heading ++ " \x7b").toList := by simpa using whole
  have last := getLast?_brace ("\x7d " ++ heading)
  rw [chars] at last
  refine ⟨[⟨d, _⟩], .next last .nil, fun b _ holds => ⟨?_, ?_⟩⟩
  · simp [layPiece?, deep_enough holds]
  · rw [← chars]
    exact (holds.dedent.putLine unbroken).indent

theorem closing {tail : String} (whole : '\n' ∉ tail.toList)
    (last : tail.toList.getLast? ≠ some '\x7b') : Tracks (d + 1) [.closing tail] d := by
  have chars : ("\x7d" ++ tail).toList = '\x7d' :: tail.toList := by simp
  have ends : ('\x7d' :: tail.toList).getLast? ≠ some '\x7b' := by
    rw [List.getLast?_cons]
    cases found : tail.toList.getLast? with
    | none => decide
    | some c => simpa [found] using last
  refine ⟨[⟨d, _⟩], .closing ends .nil, fun b _ holds => ⟨?_, ?_⟩⟩
  · simp [layPiece?, deep_enough holds]
  · rw [← chars]
    exact holds.dedent.putLine (by simpa using whole)

end Tracks

/-! ## Assigned fields -/

namespace Java.Stmt

mutual

/-- What is assigned as a field is a member of something. -/
@[simp]
def SetsMembers : Stmt → Prop
  | .setField field _ => ∃ target name, field = .field target name
  | .labeled _ body => body.SetsMembers
  | .block body | .ifThen _ body | .whileLoop _ body | .doLoop body _ | .forEach _ _ _ body =>
    CodeSetsMembers body
  | .ifElse _ yes no => CodeSetsMembers yes ∧ CodeSetsMembers no
  | .tryCatch body handlers => CodeSetsMembers body ∧ HandlersSetMembers handlers
  | .tryFinally body cleanup => CodeSetsMembers body ∧ CodeSetsMembers cleanup
  | _ => True

@[simp]
def CodeSetsMembers : List Stmt → Prop
  | [] => True
  | stmt :: rest => stmt.SetsMembers ∧ CodeSetsMembers rest

@[simp]
def HandlerSetsMembers : Handler (List Stmt) → Prop
  | ⟨_, _, body⟩ => CodeSetsMembers body

@[simp]
def HandlersSetMembers : List (Handler (List Stmt)) → Prop
  | [] => True
  | handler :: rest => HandlerSetsMembers handler ∧ HandlersSetMembers rest

end

@[simp]
theorem codeSetsMembers_append {first second : Code} : CodeSetsMembers (first ++ second) ↔
    CodeSetsMembers first ∧ CodeSetsMembers second := by
  induction first with
  | nil => simp
  | cons stmt rest ih => rw [List.cons_append, CodeSetsMembers, CodeSetsMembers, ih, and_assoc]

@[simp]
theorem handlersSetMembers_append {first second : List (Handler Code)} :
    HandlersSetMembers (first ++ second) ↔
      HandlersSetMembers first ∧ HandlersSetMembers second := by
  induction first with
  | nil => simp
  | cons handler rest ih =>
    rw [List.cons_append, HandlersSetMembers, HandlersSetMembers, ih, and_assoc]

@[simp]
theorem setsMembers_loopStmt {checkFirst : Bool} {test : Test} {body : Code} :
    (loopStmt checkFirst test body).SetsMembers ↔ CodeSetsMembers body := by
  cases checkFirst <;> exact Iff.rfl

end Java.Stmt

open Java.Stmt

@[simp]
theorem setsMembers_put (dest : Destination) (value : Expr) : CodeSetsMembers (dest.put value) := by
  cases dest <;> simp [Destination.put]

@[simp]
theorem setsMembers_putEffect (dest : Destination) (value : Expr) :
    (dest.putEffect value).SetsMembers := by
  cases dest <;> simp [Destination.putEffect]

@[simp]
theorem setsMembers_flagCode (p : Progress) (redo : Bool) : CodeSetsMembers (p.flagCode redo) := by
  cases redo <;> simp [Progress.flagCode, Progress.declareFlag, Progress.declareTemp]

@[simp]
theorem setsMembers_copyCode (copied : String) (name : Option String) :
    CodeSetsMembers (copyCode copied name) := by
  cases name <;> simp [copyCode]

@[simp]
theorem setsMembers_labeledStmt {inner : String} {body : Code} {flag : Option String} :
    (labeledStmt inner body flag).SetsMembers ↔ CodeSetsMembers body := by
  cases flag <;> simp [labeledStmt]

/-- What handlers assign as fields are members. -/
def Yield.SetsMembers : Yield → Prop
  | .handlers added => HandlersSetMembers added
  | _ => True

/-- Lowering assigns members only. -/
theorem Lowers.setsMembers {ctx : Context} {p p' : Progress} {task : Task} {code : Code}
    {yield : Yield} (lowers : Lowers ctx p task code yield p') :
    CodeSetsMembers code ∧ yield.SetsMembers := by
  induction lowers with
  | jump _ jumps => cases jumps <;> simp [Yield.SetsMembers]
  | _ =>
    simp_all [CodeSetsMembers, SetsMembers, HandlersSetMembers, HandlerSetsMembers,
      Yield.SetsMembers, Progress.declareTemp, Progress.declareFlag, Context.field]

/-! ## Statements -/

/-- The texts of a statement do not break their lines. -/
theorem break_not_mem_first {stmt : Stmt} (tidy : OverAll Word.Tidy stmt.words) {piece : Piece}
    {rest : List Piece} (pieces : stmt.pieces = piece :: rest) : breakReading.piece piece = [] :=
  break_not_mem_pieces tidy piece (by rw [pieces]; exact List.mem_cons_self)

/-- A statement on one line. -/
theorem Tracks.ofLine {stmt : Stmt} {d : Nat} {text : String} (tidy : OverAll Word.Tidy stmt.words)
    (pieces : stmt.pieces = [.line text]) (starts : Line.startsPlain text.toList = true)
    (last : text.toList.getLast? = some ';') : Tracks d stmt.pieces d := by
  have whole := see_breakReading.mp (break_not_mem_first tidy pieces)
  rw [pieces]
  exact .line whole starts (by rw [last]; decide)

/-- A block under its heading. -/
theorem Tracks.block {d : Nat} {heading : String} {body : List Piece}
    (opens : Tracks d [.opening heading] (d + 1)) (inside : Tracks (d + 1) body (d + 1)) :
    Tracks d (.opening heading :: (body ++ [.closing ""])) d :=
  opens.cons (inside.append (.closing (by decide) (by decide)))

/-- Two blocks, one behind the other. -/
theorem Tracks.twoBlocks {d : Nat} {heading between : String} {first second : List Piece}
    (opens : Tracks d [.opening heading] (d + 1)) (inside : Tracks (d + 1) first (d + 1))
    (changes : Tracks (d + 1) [.next between] (d + 1)) (behind : Tracks (d + 1) second (d + 1)) :
    Tracks d (.opening heading :: (first ++ .next between :: (second ++ [.closing ""]))) d :=
  opens.cons (inside.append (changes.cons (behind.append (.closing (by decide) (by decide)))))

theorem Tracks.heading {d : Nat} {heading : String}
    (whole : breakReading.piece (.opening heading) = [])
    (plain : Line.startsPlain heading.toList = true) : Tracks d [.opening heading] (d + 1) :=
  .opening (see_breakReading.mp whole) (.inr plain)

theorem getLast?_back (front : String) {back : String} {c : Char}
    (last : back.toList.getLast? = some c) : (front ++ back).toList.getLast? = some c := by
  rw [String.toList_append, List.getLast?_append, last]
  rfl

theorem startsPlain_jump {keyword : String} (plain : Line.startsPlain keyword.toList = true)
    (label : Option String) : Line.startsPlain (Java.jump keyword label).toList = true := by
  cases label <;> simpa [Java.jump] using startsPlain_append plain _

theorem getLast?_jump (keyword : String) (label : Option String) :
    (Java.jump keyword label).toList.getLast? = some ';' := by
  cases label <;> exact getLast?_back _ (by decide)

mutual

/-- The lines of a statement stand at the level of the statement, those of its blocks deeper. -/
theorem tracks_pieces (d : Nat) : (stmt : Stmt) → OverAll Word.Tidy stmt.words → stmt.SetsMembers →
    Tracks d stmt.pieces d
  | .declare type name init, tidy, _ => by
    have named := (JavaType.isName_source (tidy (.type type) List.mem_cons_self)).startsPlain
    refine .ofLine tidy rfl ?_ (getLast?_back _ (by decide))
    simpa [Java.declaration] using startsPlain_append named _
  | .store sink value, tidy, _ => by
    refine .ofLine tidy rfl ?_ (getLast?_back _ (by decide))
    cases sink with
    | into name =>
      have named : IsName name := tidy (.var name) List.mem_cons_self
      simpa [Sink.text] using startsPlain_append named.startsPlain _
    | result => simp [Sink.text, Line.startsPlain]
    | thrown => simp [Sink.text, Line.startsPlain]
    | lead text => exact (tidy (.lead text) List.mem_cons_self).elim
  | .setField field value, tidy, sets => by
    refine .ofLine tidy rfl ?_ (getLast?_back _ (by decide))
    obtain ⟨target, name, rfl⟩ := sets
    -- The name of a class may be empty: the line then starts with the dot of the member.
    have owner := (OverAll.append_iff.mp (OverAll.append_iff.mp tidy).1).1
    have start := startsPlain_text (".".toList ++ (name ++ " = " ++ value.text ++ ";").toList) rfl
      target owner
    simpa [Expr.text] using start
  | .eval expr, tidy, _ => by
    refine .ofLine tidy rfl ?_ (getLast?_back _ (by decide))
    rw [String.toList_append]
    exact startsPlain_text _ rfl expr tidy
  | .ret, tidy, _ => .ofLine tidy rfl (by decide) (by decide)
  | .print newline value, tidy, _ => by
    refine .ofLine tidy rfl ?_ (getLast?_back _ (by decide))
    simp [Line.startsPlain]
  | .delegate toSuper args, tidy, _ => by
    refine .ofLine tidy rfl ?_ (getLast?_back _ (by decide))
    cases toSuper <;> simp [Line.startsPlain]
  | .break label, tidy, _ => .ofLine tidy rfl (startsPlain_jump (by decide) label) (getLast?_jump _ _)
  | .continue label, tidy, _ =>
    .ofLine tidy rfl (startsPlain_jump (by decide) label) (getLast?_jump _ _)
  | .labeled label body, tidy, sets => by
    obtain ⟨named, inside⟩ := OverAll.cons_iff.mp tidy
    have whole := see_breakReading.mp (break_not_mem_first tidy rfl)
    refine .cons (.line whole ?_ (by simp)) (tracks_pieces d body inside sets)
    rw [String.toList_append]
    exact startsPlain_append (IsName.startsPlain named) _
  | .block body, tidy, sets =>
    .block (.opening (by decide) (.inl rfl)) (tracks_codePieces (d + 1) body tidy sets)
  | .ifThen test yes, tidy, sets => by
    have opens : Tracks d [.opening (Java.ifHeading test)] (d + 1) :=
      .heading (break_not_mem_first tidy rfl) (by simp [Java.ifHeading, Line.startsPlain])
    exact opens.block (tracks_codePieces (d + 1) yes (OverAll.append_iff.mp tidy).2 sets)
  | .ifElse test yes no, tidy, sets => by
    obtain ⟨-, yesTidy, noTidy⟩ := (OverAll.append_iff.mp tidy).imp id OverAll.append_iff.mp
    have opens : Tracks d [.opening (Java.ifHeading test)] (d + 1) :=
      .heading (break_not_mem_first tidy rfl) (by simp [Java.ifHeading, Line.startsPlain])
    exact opens.twoBlocks (tracks_codePieces (d + 1) yes yesTidy sets.1) (.next (by decide))
      (tracks_codePieces (d + 1) no noTidy sets.2)
  | .whileLoop test body, tidy, sets => by
    have opens : Tracks d [.opening (Java.whileHeading test)] (d + 1) :=
      .heading (break_not_mem_first tidy rfl) (by simp [Java.whileHeading, Line.startsPlain])
    exact opens.block (tracks_codePieces (d + 1) body (OverAll.append_iff.mp tidy).2 sets)
  | .doLoop body test, tidy, sets => by
    obtain ⟨inside, tested⟩ := OverAll.append_iff.mp tidy
    have opens : Tracks d [.opening "do"] (d + 1) := .opening (by decide) (.inr (by decide))
    have whole : breakReading.see (Java.doTail test) = [] := by
      rw [breakReading.see_doTail, breakReading_words tested]
    have closes : Tracks (d + 1) [.closing (Java.doTail test)] d :=
      .closing (see_breakReading.mp whole) (by rw [Java.doTail, getLast?_back _ rfl]; decide)
    exact opens.cons ((tracks_codePieces (d + 1) body inside sets).append closes)
  | .forEach type name iterable body, tidy, sets => by
    have inside : OverAll Word.Tidy (codeWords body) := by simp_all
    have opens : Tracks d [.opening (Java.forHeading type name iterable)] (d + 1) :=
      .heading (break_not_mem_first tidy rfl) (by simp [Java.forHeading, Line.startsPlain])
    exact opens.block (tracks_codePieces (d + 1) body inside sets)
  | .tryCatch body handlers, tidy, sets => by
    obtain ⟨inside, handled⟩ := OverAll.append_iff.mp tidy
    have opens : Tracks d [.opening "try"] (d + 1) := .opening (by decide) (.inr (by decide))
    exact opens.block ((tracks_codePieces (d + 1) body inside sets.1).append
      (tracks_handlersPieces d handlers handled sets.2))
  | .tryFinally body cleanup, tidy, sets => by
    obtain ⟨inside, last⟩ := OverAll.append_iff.mp tidy
    have opens : Tracks d [.opening "try"] (d + 1) := .opening (by decide) (.inr (by decide))
    exact opens.twoBlocks (tracks_codePieces (d + 1) body inside sets.1) (.next (by decide))
      (tracks_codePieces (d + 1) cleanup last sets.2)

theorem tracks_codePieces (d : Nat) : (code : Code) → OverAll Word.Tidy (codeWords code) →
    CodeSetsMembers code → Tracks d (codePieces code) d
  | [], _, _ => .nil
  | stmt :: rest, tidy, sets =>
    have ⟨first, others⟩ := OverAll.append_iff.mp tidy
    (tracks_pieces d stmt first sets.1).append (tracks_codePieces d rest others sets.2)

theorem tracks_handlerPieces (d : Nat) : (handler : Handler Code) →
    OverAll Word.Tidy (handlerWords handler) → HandlerSetsMembers handler →
    Tracks (d + 1) (handlerPieces handler) (d + 1)
  | ⟨type, name, body⟩, tidy, sets => by
    have inside : OverAll Word.Tidy (codeWords body) := by simp_all
    have words : OverAll Word.Tidy [.type type, .var name] := by simp_all
    have whole : breakReading.see (Java.catchHeading type name) = [] := by
      rw [breakReading.see_catchHeading]
      simpa using breakReading_words words
    exact .cons (.next (see_breakReading.mp whole)) (tracks_codePieces (d + 1) body inside sets)

theorem tracks_handlersPieces (d : Nat) : (handlers : List (Handler Code)) →
    OverAll Word.Tidy (handlersWords handlers) → HandlersSetMembers handlers →
    Tracks (d + 1) (handlersPieces handlers) (d + 1)
  | [], _, _ => .nil
  | handler :: rest, tidy, sets =>
    have ⟨first, others⟩ := OverAll.append_iff.mp tidy
    (tracks_handlerPieces d handler first sets.1).append (tracks_handlersPieces d rest others sets.2)

end

end JavaBackend
