import JavaBackend.Proofs.Temps.Declarations

/-!
# The scope of temporaries

`Steps blocks pieces names blocks'` follows the temporaries through the lines of a method. It keeps
the temporaries that each open block has introduced so far; a line may only use those of the blocks
that are open, and `names` are those that the lines introduce.

`Stmt.Scoped` asks the same of statements, and `Stmt.steps_pieces` says that their lines comply.
-/

namespace JavaBackend

open Java (Stmt Code Piece Expr Test Handler Sink)

/-! ## Lines -/

/-- The names are introduced in one of the blocks. -/
def Visible (blocks : List (List String)) (names : List String) : Prop :=
  ∀ name ∈ names, name ∈ blocks.flatten

theorem Visible.nil {blocks : List (List String)} : Visible blocks [] := List.forall_mem_nil _

theorem Visible.empty {blocks : List (List String)} : Visible blocks (tempsIn "") := nil

/-- What a line does to the temporaries of the open blocks, the innermost first: the line introduces
    `names`, and all other temporaries in it are visible. -/
inductive Step : List (List String) → Piece → List String → List (List String) → Prop where
  | line {blocks text} (undeclared : declaredBy text = []) (used : Visible blocks (tempsIn text)) :
    Step blocks (.line text) [] blocks
  | declare {block outer type name init} (found : tempsIn (type ++ " " ++ name) = [name])
    (used : Visible (block :: outer) (tempsIn init)) :
    Step (block :: outer) (.line (type ++ " " ++ name ++ " = " ++ init ++ ";")) [name]
      ((block ++ [name]) :: outer)
  | opening {blocks heading} (plain : ¬"for (".toList <+: heading.toList)
    (used : Visible blocks (tempsIn heading)) : Step blocks (.opening heading) [] ([] :: blocks)
  | forEach {blocks type name elements names} (found : tempsIn (type ++ " " ++ name) = names)
    (bound : names = [] ∨ names = [name]) (used : Visible blocks (tempsIn elements)) :
    Step blocks (.opening ("for (" ++ type ++ " " ++ name ++ " : " ++ elements ++ ")")) names
      (names :: blocks)
  | next {block outer heading} (none : tempsIn heading = []) :
    Step (block :: outer) (.next heading) [] ([] :: outer)
  | handler {block outer type name names} (found : tempsIn (type ++ " " ++ name) = names)
    (bound : names = [] ∨ names = [name]) :
    Step (block :: outer) (.next ("catch (" ++ type ++ " " ++ name ++ ")")) names (names :: outer)
  | closing {block outer tail} (used : Visible outer (tempsIn tail)) :
    Step (block :: outer) (.closing tail) [] outer

theorem Step.keyword {blocks : List (List String)} (heading : String)
    (plain : ¬"for (".toList <+: heading.toList := by decide)
    (none : tempsIn heading = [] := by decide) : Step blocks (.opening heading) [] ([] :: blocks) :=
  .opening plain (none ▸ .nil)

/-- What lines do one after another. -/
inductive Steps : List (List String) → List Piece → List String → List (List String) → Prop where
  | nil {blocks} : Steps blocks [] [] blocks
  | cons {blocks piece names middle rest more blocks'} (first : Step blocks piece names middle)
    (others : Steps middle rest more blocks') :
    Steps blocks (piece :: rest) (names ++ more) blocks'

namespace Steps

variable {blocks middle blocks' : List (List String)} {pieces rest : List Piece}
  {names more : List String}

theorem append (first : Steps blocks pieces names middle) (others : Steps middle rest more blocks') :
    Steps blocks (pieces ++ rest) (names ++ more) blocks' := by
  induction first with
  | nil => exact others
  | cons step _ ih =>
    rw [List.append_assoc]
    exact .cons step (ih others)

theorem keep {block : List String} {outer : List (List String)}
    (run : Steps (block :: outer) pieces names (block :: outer)) :
    Steps (block :: outer) pieces names ((block ++ []) :: outer) := by
  rwa [List.append_nil]

theorem single {piece : Piece} (step : Step blocks piece names blocks') :
    Steps blocks [piece] names blocks' := by
  have run := cons step nil
  rwa [List.append_nil] at run

section

variable {heading : Piece} {tail : String} {body last : List String} {outer : List (List String)}

/-- A block under a heading. -/
theorem block (opened : Step outer heading names (body :: outer))
    (inside : Steps (body :: outer) pieces more (last :: outer))
    (used : Visible outer (tempsIn tail)) :
    Steps outer (heading :: (pieces ++ [.closing tail])) (names ++ more) outer := by
  have run := cons opened (inside.append (single (.closing used)))
  rwa [List.append_nil] at run

/-- Two blocks, one after the other. -/
theorem twoBlocks {between : Piece} {second : List Piece} {inner final others : List String}
    (opened : Step outer heading [] (body :: outer))
    (inside : Steps (body :: outer) pieces names (last :: outer))
    (next : Step (last :: outer) between [] (inner :: outer))
    (behind : Steps (inner :: outer) second others (final :: outer)) :
    Steps outer (heading :: (pieces ++ between :: (second ++ [.closing ""]))) (names ++ others)
      outer := by
  have run := cons opened
    (inside.append (cons next (behind.append (single (.closing Visible.empty)))))
  rwa [List.append_nil] at run

end

end Steps

/-! ## Statements -/

/-- The temporaries of the word are among the names. -/
def Word.SeenIn (names : List String) (word : Word) : Prop := ∀ name ∈ word.temps, name ∈ names

namespace Java.Stmt

/-- The temporaries that a statement introduces in the block around it. -/
def declared : Stmt → List String
  | .declare _ name _ => (Word.var name).temps
  | .labeled _ body => body.declared
  | _ => []

/-- The temporaries that the statements of a block introduce there. -/
def codeDeclared (code : Code) : List String := code.flatMap declared

mutual

/-- The temporaries that a statement introduces, in its blocks, too. -/
def introduced : Stmt → List String
  | .declare _ name _ => (Word.var name).temps
  | .labeled _ body => body.introduced
  | .block body | .ifThen _ body | .whileLoop _ body | .doLoop body _ => codeIntroduced body
  | .ifElse _ yes no => codeIntroduced yes ++ codeIntroduced no
  | .forEach _ name _ body => (Word.var name).temps ++ codeIntroduced body
  | .tryCatch body handlers => codeIntroduced body ++ handlersIntroduced handlers
  | .tryFinally body cleanup => codeIntroduced body ++ codeIntroduced cleanup
  | _ => []

def codeIntroduced : List Stmt → List String
  | [] => []
  | stmt :: rest => stmt.introduced ++ codeIntroduced rest

def handlerIntroduced : Handler (List Stmt) → List String
  | ⟨_, name, body⟩ => (Word.var name).temps ++ codeIntroduced body

def handlersIntroduced : List (Handler (List Stmt)) → List String
  | [] => []
  | handler :: rest => handlerIntroduced handler ++ handlersIntroduced rest

end

mutual

/-- The temporaries that a statement uses are among the names, or are introduced in front of their
    use by a block around it. -/
def Scoped : Stmt → List String → Prop
  | .declare _ _ init, names => OverAll (·.SeenIn names) init.words
  | .labeled label body, names => (Word.label label).SeenIn names ∧ body.Scoped names
  | .block body, names => CodeScoped body names
  | .ifThen test body, names | .whileLoop test body, names | .doLoop body test, names =>
    OverAll (·.SeenIn names) test.expr.words ∧ CodeScoped body names
  | .ifElse test yes no, names =>
    OverAll (·.SeenIn names) test.expr.words ∧ CodeScoped yes names ∧ CodeScoped no names
  | .forEach _ name iterable body, names =>
    OverAll (·.SeenIn names) iterable.words ∧ CodeScoped body (names ++ (Word.var name).temps)
  | .tryCatch body handlers, names => CodeScoped body names ∧ HandlersScoped handlers names
  | .tryFinally body cleanup, names => CodeScoped body names ∧ CodeScoped cleanup names
  | .setField field value, names =>
    (∃ target name, field = .field target name) ∧ OverAll (·.SeenIn names) (field.words ++ value.words)
  | stmt, names => OverAll (·.SeenIn names) stmt.words

def CodeScoped : List Stmt → List String → Prop
  | [], _ => True
  | stmt :: rest, names => stmt.Scoped names ∧ CodeScoped rest (names ++ stmt.declared)

def HandlerScoped : Handler (List Stmt) → List String → Prop
  | ⟨_, name, body⟩, names => CodeScoped body (names ++ (Word.var name).temps)

def HandlersScoped : List (Handler (List Stmt)) → List String → Prop
  | [], _ => True
  | handler :: rest, names => HandlerScoped handler names ∧ HandlersScoped rest names

end

variable {names : List String} {code more : Code}

@[simp]
theorem codeDeclared_nil : codeDeclared [] = [] := rfl

@[simp]
theorem codeDeclared_cons {stmt : Stmt} :
    codeDeclared (stmt :: code) = stmt.declared ++ codeDeclared code := rfl

@[simp]
theorem codeDeclared_append :
    codeDeclared (code ++ more) = codeDeclared code ++ codeDeclared more := List.flatMap_append

theorem codeScoped_append : CodeScoped (code ++ more) names ↔
    CodeScoped code names ∧ CodeScoped more (names ++ codeDeclared code) := by
  induction code generalizing names with
  | nil => simp [CodeScoped]
  | cons stmt rest ih =>
    simp only [List.cons_append, CodeScoped, ih, codeDeclared_cons, List.append_assoc, and_assoc]

@[simp]
theorem codeIntroduced_append :
    codeIntroduced (code ++ more) = codeIntroduced code ++ codeIntroduced more := by
  induction code with
  | nil => rfl
  | cons stmt rest ih =>
    rw [List.cons_append, codeIntroduced, codeIntroduced, ih, List.append_assoc]

@[simp]
theorem handlersIntroduced_append {first second : List (Handler Code)} :
    handlersIntroduced (first ++ second) = handlersIntroduced first ++ handlersIntroduced second := by
  induction first with
  | nil => rfl
  | cons handler rest ih =>
    rw [List.cons_append, handlersIntroduced, handlersIntroduced, ih, List.append_assoc]

theorem handlersScoped_append {first second : List (Handler Code)} :
    HandlersScoped (first ++ second) names ↔
      HandlersScoped first names ∧ HandlersScoped second names := by
  induction first with
  | nil => simp [HandlersScoped]
  | cons handler rest ih => simp only [List.cons_append, HandlersScoped, ih, and_assoc]

end Java.Stmt

/-! ## The lines of statements -/

/-- The mark of temporaries stands in nothing but names of temporaries, so nothing is found across
    the end of a word. -/
theorem Word.MarkedOnce.ends {words : List Word} (once : OverAll MarkedOnce words) :
    OverAll tempReading.Ends words := by
  rintro word mem text rfl
  rcases once _ mem with marked | ⟨n, same⟩
  · exact marked.elim
  · cases same

section

variable {names : List String} {block : List String} {outer : List (List String)}

theorem Visible.used {blocks : List (List String)} {words : List Word}
    (visible : Visible blocks names) (seen : OverAll (·.SeenIn names) words) :
    Visible blocks (words.flatMap Word.temps) := by
  intro name mem
  obtain ⟨word, listed, mem⟩ := List.mem_flatMap.mp mem
  exact visible name (seen word listed name mem)

theorem Visible.of_seen {blocks : List (List String)} {text : String} {words : List Word}
    (visible : Visible blocks names) (seen : OverAll (·.SeenIn names) words)
    (found : tempsIn text = words.flatMap Word.temps) : Visible blocks (tempsIn text) :=
  found ▸ visible.used seen

/-- A new block sees what the blocks around it do, and what its heading introduces. -/
theorem Visible.enter {blocks : List (List String)} (visible : Visible blocks names)
    (more : List String) : Visible (more :: blocks) (names ++ more) := by
  intro name mem
  rw [List.flatten_cons, List.mem_append]
  exact (List.mem_append.mp mem).elim (fun mem => .inr (visible name mem)) .inl

theorem Visible.inside {blocks : List (List String)} (visible : Visible blocks names) :
    Visible ([] :: blocks) names := by
  have inner := visible.enter []
  rwa [List.append_nil] at inner

theorem Visible.declare (visible : Visible (block :: outer) names) (more : List String) :
    Visible ((block ++ more) :: outer) (names ++ more) := by
  intro name mem
  rw [List.flatten_cons, List.append_assoc, List.mem_append, List.mem_append]
  rcases List.mem_append.mp mem with mem | mem
  · have found := visible name mem
    rw [List.flatten_cons, List.mem_append] at found
    exact found.imp_right .inr
  · exact .inr (.inl mem)

/-- The temporaries of a variable behind its type. -/
theorem tempsIn_typed {type : String} (free : tempsIn type = []) (name : String) :
    tempsIn (type ++ " " ++ name) = (Word.var name).temps := by
  rw [String.append_assoc]
  exact (tempReading.see_cut (by decide) _ _).trans (congrArg (· ++ _) free)

theorem tempsIn_given (front init : String) :
    tempsIn (front ++ " = " ++ init ++ ";") = tempsIn front ++ tempsIn init := by
  rw [← see_tempReading, String.append_assoc, String.append_assoc,
    tempReading.see_cut (by decide), tempReading.see_back (by decide)]
  rfl

/-- A line that declares a temporary is never passed over. -/
theorem Step.introduces {blocks blocks' : List (List String)} {type init : String} {n : Nat}
    (word : ∀ c ∈ type.toList, c ≠ '(' ∧ c ≠ ' ') (free : tempsIn type = [])
    (step : Step blocks (.line (type ++ " " ++ tempName n ++ " = " ++ init ++ ";")) names blocks') :
    names = [tempName n] := by
  have first := (tempsIn_typed free (tempName n)).trans (Word.temps_tempName n)
  generalize same : type ++ " " ++ tempName n ++ " = " ++ init ++ ";" = text at step
  cases step with
  | line undeclared _ =>
    rw [← same, declaredBy_temp word] at undeclared
    cases undeclared
  | declare found _ =>
    have both := congrArg tempsIn same
    rw [tempsIn_given, tempsIn_given, first, found] at both
    rw [(List.cons.inj both).1]

/-- A variable is a temporary, or nothing of its name is one. -/
theorem Word.MarkedOnce.temps_cases {name : String} (once : (Word.var name).MarkedOnce) :
    (Word.var name).temps = [] ∨ (Word.var name).temps = [name] := by
  rcases once with plain | ⟨n, same⟩
  · exact .inl plain.temps_eq
  · cases same
    exact .inr (Word.temps_tempName n)

namespace Java.Stmt

/-- A statement of one line that introduces nothing. -/
theorem steps_line {stmt : Stmt} {text : String} (laid : stmt.pieces = [.line text])
    (undeclared : declaredBy text = []) (once : OverAll Word.MarkedOnce stmt.words)
    (seen : OverAll (·.SeenIn names) stmt.words) (visible : Visible (block :: outer) names) :
    Steps (block :: outer) stmt.pieces [] ((block ++ []) :: outer) := by
  have found := tempReading.pieces_eq stmt (Word.MarkedOnce.ends once)
  rw [laid, List.flatMap_singleton] at found
  rw [laid, List.append_nil]
  exact .single (.line undeclared (visible.of_seen seen found))

mutual

/-- The lines of a statement comply with the scope of temporaries if the statement does. -/
theorem steps_pieces {names block : List String} {outer : List (List String)} : (stmt : Stmt) →
    OverAll Word.MarkedOnce stmt.words → stmt.Scoped names → Visible (block :: outer) names →
    Steps (block :: outer) stmt.pieces stmt.introduced ((block ++ stmt.declared) :: outer)
  | .declare type name init, once, fits, visible => by
    have found := tempsIn_typed (tempsIn_type type) name
    obtain ⟨-, named, -⟩ := OverAll.cons_iff.mp once |>.imp_right OverAll.cons_iff.mp
    rcases named with plain | ⟨n, same⟩
    · rw [introduced, declared, plain.temps_eq, List.append_nil]
      refine .single (.line (declaredBy_declaration type plain _) (visible.of_seen fits ?_))
      rw [Java.declaration, tempsIn_given, found, plain.temps_eq]
      exact tempReading.see_text init
    · cases same
      rw [introduced, declared, Word.temps_tempName] at *
      exact .single (.declare found (visible.of_seen fits (tempReading.see_text init)))
  | .store sink value, once, fits, visible => steps_line rfl (declaredBy_store once) once fits visible
  | .setField field value, once, ⟨⟨target, name, same⟩, fits⟩, visible => by
    subst same
    exact steps_line rfl (declaredBy_setField once) once fits visible
  | .eval expr, once, fits, visible =>
    steps_line rfl (expr.calm_text once).declaredBy_eq once fits visible
  | .ret, once, fits, visible => steps_line rfl (by decide) once fits visible
  | .print newline value, once, fits, visible =>
    steps_line rfl (declaredBy_called (by cases newline <;> decide) _ _) once fits visible
  | .delegate toSuper args, once, fits, visible =>
    steps_line rfl (declaredBy_called (by cases toSuper <;> decide) _ _) once fits visible
  | .break label, once, fits, visible | .continue label, once, fits, visible =>
    steps_line rfl (declaredBy_jump (by decide) once) once fits visible
  | .labeled label body, once, fits, visible => by
    obtain ⟨seen, inner⟩ := fits
    have found : tempsIn (label ++ ":") = [Word.label label].flatMap Word.temps :=
      (tempReading.see_back (by decide) label).trans (List.append_nil _).symm
    have line := visible.of_seen (OverAll.cons_iff.mpr ⟨seen, .nil⟩) found
    have calm := Calm.ofWord (once _ List.mem_cons_self)
    have undeclared : declaredBy (label ++ ":") = [] := by
      rw [declaredBy, String.toList_append]
      exact calm.line ':' (by decide) [] rfl
    exact .cons (.line undeclared line) (steps_pieces body (OverAll.cons_iff.mp once).2 inner visible)
  | .block body, once, fits, visible => by
    exact .keep (.block (.keyword "") (steps_codePieces body once fits visible.inside) .empty)
  | .ifThen test body, once, fits, visible => by
    obtain ⟨-, once⟩ := OverAll.append_iff.mp once
    have heading := visible.of_seen fits.1 (tempReading.see_ifHeading test)
    exact .keep (.block (.opening (by simp [Java.ifHeading]) heading) (steps_codePieces body once fits.2 visible.inside) .empty)
  | .whileLoop test body, once, fits, visible => by
    obtain ⟨-, once⟩ := OverAll.append_iff.mp once
    have heading := visible.of_seen fits.1 (tempReading.see_whileHeading test)
    exact .keep (.block (.opening (by simp [Java.whileHeading]) heading) (steps_codePieces body once fits.2 visible.inside) .empty)
  | .doLoop body test, once, fits, visible => by
    obtain ⟨once, -⟩ := OverAll.append_iff.mp once
    have tail := visible.of_seen fits.1 (tempReading.see_doTail test)
    exact .keep (.block (.keyword "do") (steps_codePieces body once fits.2 visible.inside) tail)
  | .ifElse test yes no, once, fits, visible => by
    obtain ⟨-, first, second⟩ := OverAll.append_iff.mp once |>.imp_right OverAll.append_iff.mp
    have heading := visible.of_seen fits.1 (tempReading.see_ifHeading test)
    exact .keep (.twoBlocks (.opening (by simp [Java.ifHeading]) heading) (steps_codePieces yes first fits.2.1 visible.inside)
      (.next rfl) (steps_codePieces no second fits.2.2 visible.inside))
  | .tryFinally body cleanup, once, fits, visible => by
    obtain ⟨first, second⟩ := OverAll.append_iff.mp once
    exact .keep (.twoBlocks (.keyword "try") (steps_codePieces body first fits.1 visible.inside)
      (.next rfl) (steps_codePieces cleanup second fits.2 visible.inside))
  | .forEach type name iterable body, once, fits, visible => by
    obtain ⟨-, named, once⟩ := OverAll.cons_iff.mp once |>.imp_right OverAll.cons_iff.mp
    obtain ⟨-, once⟩ := OverAll.append_iff.mp once
    have elements := visible.of_seen fits.1 (tempReading.see_bare iterable)
    exact .keep (.block (.forEach (tempsIn_typed (tempsIn_type type) name) named.temps_cases elements)
      (steps_codePieces body once fits.2 (visible.enter _)) .empty)
  | .tryCatch body handlers, once, fits, visible => by
    obtain ⟨first, others⟩ := OverAll.append_iff.mp once
    have guarded := steps_codePieces body first fits.1 visible.inside
    obtain ⟨last, handled⟩ := steps_handlersPieces handlers others fits.2 visible _
    refine .keep (?_ : Steps _ _ ([] ++ _) _)
    exact .block (.keyword "try") (guarded.append handled) .empty

theorem steps_codePieces {names block : List String} {outer : List (List String)} : (code : Code) →
    OverAll Word.MarkedOnce (codeWords code) → CodeScoped code names →
    Visible (block :: outer) names →
    Steps (block :: outer) (codePieces code) (codeIntroduced code)
      ((block ++ codeDeclared code) :: outer)
  | [], _, _, _ => by
    rw [codeDeclared, List.flatMap_nil, List.append_nil]
    exact .nil
  | stmt :: rest, once, fits, visible => by
    obtain ⟨first, others⟩ := OverAll.append_iff.mp once
    obtain ⟨inner, behind⟩ := fits
    rw [codeDeclared, List.flatMap_cons, ← List.append_assoc]
    exact (steps_pieces stmt first inner visible).append
      (steps_codePieces rest others behind (visible.declare stmt.declared))

/-- A handler closes the block in front of it, and leaves its own open. -/
theorem steps_handlerPieces {names block : List String} {outer : List (List String)} :
    (handler : Handler Code) → OverAll Word.MarkedOnce (handlerWords handler) →
    HandlerScoped handler names → Visible (block :: outer) names → (before : List String) →
    ∃ last, Steps (before :: block :: outer) (handlerPieces handler) (handlerIntroduced handler)
      (last :: block :: outer)
  | ⟨type, name, body⟩, once, fits, visible, before => by
    obtain ⟨-, named, once⟩ := OverAll.cons_iff.mp once |>.imp_right OverAll.cons_iff.mp
    exact ⟨_, .cons (.handler (tempsIn_typed (tempsIn_type type) name) named.temps_cases)
      (steps_codePieces body once fits (visible.enter _))⟩

theorem steps_handlersPieces {names block : List String} {outer : List (List String)} :
    (handlers : List (Handler Code)) → OverAll Word.MarkedOnce (handlersWords handlers) →
    HandlersScoped handlers names → Visible (block :: outer) names → (before : List String) →
    ∃ last, Steps (before :: block :: outer) (handlersPieces handlers)
      (handlersIntroduced handlers) (last :: block :: outer)
  | [], _, _, _, before => ⟨before, .nil⟩
  | handler :: rest, once, fits, visible, before => by
    obtain ⟨first, others⟩ := OverAll.append_iff.mp once
    obtain ⟨middle, run⟩ := steps_handlerPieces handler first fits.1 visible before
    obtain ⟨last, more⟩ := steps_handlersPieces rest others fits.2 visible middle
    exact ⟨last, run.append more⟩

end

end Java.Stmt

end

end JavaBackend
