import JavaBackend.Text.Buffer

/-!
# Lines and the depth of blocks

`trackDepth` reads the lines of a text and follows the depth of the blocks in it by the braces at the
ends of lines alone; it fails where a line is not indented to that depth. `Nested` describes lines by
the levels that they were written at, and `trackDepth_of_nested` says that the two agree.

`Text.Buffer.Holds` says which lines a buffer holds.
-/

namespace JavaBackend

/-! ## Reading the depth off a text -/

/-- The lines of a text: what stands between its line breaks. -/
def textLines : List Char → List (List Char)
  | [] => [[]]
  | c :: rest =>
    if c = '\n' then [] :: textLines rest
    else
      match textLines rest with
      | [] => [[c]]
      | line :: lines => (c :: line) :: lines

/-- The depth at which a line stands behind lines that leave the depth `depth`: a closing brace at
    its start ends a block, for which one has to be open. -/
def depthOf (content : List Char) (depth : Nat) : Option Nat :=
  if content.head? = some '\x7d' then
    match depth with
    | 0 => none
    | depth + 1 => some depth
  else some depth

/-- The depth behind lines in front of which it is `depth`. There is none if a line closes a block
    that is not open, is not indented by `width` spaces for each level, or has nothing but spaces. -/
def trackDepth (width : Nat) : Nat → List (List Char) → Option Nat
  | depth, [] => some depth
  | depth, line :: rest =>
    if line = [] then trackDepth width depth rest
    else
      let content := line.dropWhile (· == ' ')
      match depthOf content depth with
      | none => none
      | some depth =>
        if content ≠ [] ∧ (line.takeWhile (· == ' ')).length = depth * width then
          trackDepth width (if line.getLast? = some '\x7b' then depth + 1 else depth) rest
        else none

/-! ## Lines at levels -/

/-- A line behind spaces. An empty line has none. -/
def indented (depth : Nat) (content : List Char) : List Char :=
  if content = [] then [] else List.replicate depth ' ' ++ content

theorem indented_indented (depth more : Nat) (content : List Char) :
    indented more (indented depth content) = indented (depth + more) content := by
  unfold indented
  by_cases empty : content = []
  · simp [empty]
  · simp [empty, Nat.add_comm depth more, ← List.replicate_append_replicate]

theorem break_not_mem_indented {content : List Char} (whole : '\n' ∉ content) (depth : Nat) :
    '\n' ∉ indented depth content := by
  unfold indented
  split
  · exact List.not_mem_nil
  · rw [List.mem_append, not_or]
    exact ⟨fun mem => absurd (List.eq_of_mem_replicate mem) (by decide), whole⟩

/-- A line, and how many levels deep it stands. -/
structure Line where
  level : Nat
  content : List Char

namespace Line

/-- The line with its indentation. -/
def text (width : Nat) (line : Line) : List Char := indented (line.level * width) line.content

/-- The line some levels deeper. -/
def deeper (levels : Nat) (line : Line) : Line := { line with level := line.level + levels }

/-- The text starts with something that is neither space nor the end of a block. -/
def startsPlain : List Char → Bool
  | [] => false
  | c :: _ => c != ' ' && c != '\x7d'

end Line

/-- Lines at the levels of their blocks, from a level in front of them to the one behind. -/
inductive Nested : Nat → List Line → Nat → Prop where
  | nil {d} : Nested d [] d
  | blank {d k lines d'} (rest : Nested d lines d') : Nested d (⟨k, []⟩ :: lines) d'
  | plain {d content lines d'} (starts : Line.startsPlain content = true)
    (last : content.getLast? ≠ some '\x7b') (rest : Nested d lines d') :
    Nested d (⟨d, content⟩ :: lines) d'
  | opening {d content lines d'} (starts : Line.startsPlain content = true)
    (last : content.getLast? = some '\x7b') (rest : Nested (d + 1) lines d') :
    Nested d (⟨d, content⟩ :: lines) d'
  | next {d content lines d'} (last : ('\x7d' :: content).getLast? = some '\x7b')
    (rest : Nested (d + 1) lines d') : Nested (d + 1) (⟨d, '\x7d' :: content⟩ :: lines) d'
  | closing {d content lines d'} (last : ('\x7d' :: content).getLast? ≠ some '\x7b')
    (rest : Nested d lines d') : Nested (d + 1) (⟨d, '\x7d' :: content⟩ :: lines) d'

namespace Nested

variable {d d₁ d' : Nat} {lines more : List Line}

theorem append (first : Nested d lines d₁) (second : Nested d₁ more d') :
    Nested d (lines ++ more) d' := by
  induction first with
  | nil => exact second
  | blank _ ih => exact .blank (ih second)
  | plain starts last _ ih => exact .plain starts last (ih second)
  | opening starts last _ ih => exact .opening starts last (ih second)
  | next last _ ih => exact .next last (ih second)
  | closing last _ ih => exact .closing last (ih second)

/-- Lines that are nested at one level are so at every deeper one. -/
theorem deeper (levels : Nat) (nested : Nested d lines d') :
    Nested (d + levels) (lines.map (Line.deeper levels)) (d' + levels) := by
  induction nested with
  | nil => exact .nil
  | blank _ ih => exact .blank ih
  | plain starts last _ ih => exact .plain starts last ih
  | opening starts last _ ih =>
    rw [Nat.succ_add] at ih
    exact .opening starts last ih
  | next last _ ih =>
    rw [Nat.succ_add] at ih ⊢
    exact .next last ih
  | closing last _ ih =>
    rw [Nat.succ_add]
    exact .closing last ih

end Nested

/-! ## The levels of lines are read off their text -/

namespace Line

variable {width level : Nat} {content : List Char}

theorem startsPlain_iff :
    startsPlain content = true ↔ ∃ c rest, content = c :: rest ∧ c ≠ ' ' ∧ c ≠ '\x7d' := by
  cases content with
  | nil => simp [startsPlain]
  | cons c rest => simp [startsPlain]

theorem dropWhile_text {c : Char} (plain : c ≠ ' ') (n : Nat) (rest : List Char) :
    (List.replicate n ' ' ++ c :: rest).dropWhile (· == ' ') = c :: rest := by
  induction n with
  | zero => simp [plain]
  | succ n ih => simpa [List.replicate_succ] using ih

theorem takeWhile_text {c : Char} (plain : c ≠ ' ') (n : Nat) (rest : List Char) :
    (List.replicate n ' ' ++ c :: rest).takeWhile (· == ' ') = List.replicate n ' ' := by
  induction n with
  | zero => simp [plain]
  | succ n ih => simpa [List.replicate_succ] using ih

/-- A line that stands at its level moves the depth by the braces at its ends. -/
theorem trackDepth_text {c : Char} {rest : List Char} {depth : Nat} (plain : c ≠ ' ')
    (stands : depthOf (c :: rest) depth = some level) (lines : List (List Char)) :
    trackDepth width depth (text width ⟨level, c :: rest⟩ :: lines) =
      trackDepth width (if (c :: rest).getLast? = some '\x7b' then level + 1 else level) lines := by
  have shown : text width ⟨level, c :: rest⟩ = List.replicate (level * width) ' ' ++ c :: rest := by
    simp [text, indented]
  have last : (List.replicate (level * width) ' ' ++ c :: rest).getLast? = (c :: rest).getLast? := by
    rw [List.getLast?_append, List.getLast?_cons]
    rfl
  rw [shown, trackDepth, if_neg (by simp)]
  simp only [dropWhile_text plain, takeWhile_text plain, stands, last]
  simp

end Line

/-- The depth that is read off lines is the one at which they were written. -/
theorem trackDepth_of_nested {width d d' : Nat} {lines : List Line} (nested : Nested d lines d') :
    trackDepth width d (lines.map (Line.text width)) = some d' := by
  induction nested with
  | nil => rfl
  | blank _ ih => exact ih
  | @plain d content lines d' starts last _ ih =>
    obtain ⟨c, rest, rfl, plain, other⟩ := Line.startsPlain_iff.mp starts
    have stands : depthOf (c :: rest) d = some d := if_neg (by simpa using other)
    rw [List.map_cons, Line.trackDepth_text plain stands, if_neg last, ih]
  | @opening d content lines d' starts last _ ih =>
    obtain ⟨c, rest, rfl, plain, other⟩ := Line.startsPlain_iff.mp starts
    have stands : depthOf (c :: rest) d = some d := if_neg (by simpa using other)
    rw [List.map_cons, Line.trackDepth_text plain stands, if_pos last, ih]
  | next last _ ih => rw [List.map_cons, Line.trackDepth_text (by decide) rfl, if_pos last, ih]
  | closing last _ ih => rw [List.map_cons, Line.trackDepth_text (by decide) rfl, if_neg last, ih]

theorem textLines_line {line : List Char} (whole : '\n' ∉ line) (rest : List Char) :
    textLines (line ++ '\n' :: rest) = line :: textLines rest := by
  induction line with
  | nil => rfl
  | cons c line ih =>
    rw [List.mem_cons, not_or] at whole
    rw [List.cons_append, textLines, if_neg (Ne.symm whole.1), ih whole.2]

/-- The lines of a text that is put together from lines. -/
theorem textLines_flatMap {lines : List (List Char)} (whole : ∀ line ∈ lines, '\n' ∉ line) :
    textLines (lines.flatMap (· ++ ['\n'])) = lines ++ [[]] := by
  induction lines with
  | nil => rfl
  | cons line rest ih =>
    obtain ⟨first, others⟩ := List.forall_mem_cons.mp whole
    rw [List.flatMap_cons, List.append_assoc, List.singleton_append, textLines_line first, ih others,
      List.cons_append]

theorem trackDepth_append_blank {width d : Nat} (lines : List (List Char)) :
    trackDepth width d (lines ++ [[]]) = trackDepth width d lines := by
  induction lines generalizing d with
  | nil => rfl
  | cons line rest ih =>
    rw [List.cons_append, trackDepth, trackDepth]
    simp only [ih]

/-! ## What writing leaves alone -/

namespace Text.Buffer

/-- What each step keeps, all of them keep. -/
theorem foldl_keeps {α β : Type} {f : Buffer → α → Buffer} (view : Buffer → β)
    (keeps : ∀ b item, view (f b item) = view b) (items : List α) (b : Buffer) :
    view (items.foldl f b) = view b := by
  induction items generalizing b with
  | nil => rfl
  | cons item rest ih => rw [List.foldl_cons, ih, keeps]

@[simp]
theorem step_push (b : Buffer) (c : Char) : (b.push c).step = b.step := by
  unfold push
  split
  · rfl
  · split <;> rfl

@[simp]
theorem step_print (b : Buffer) (text : String) : (b.print text).step = b.step :=
  foldl_keeps step step_push text.toList b

@[simp]
theorem step_putLine (b : Buffer) (line : String) : (b.putLine line).step = b.step := by
  rw [putLine, step_push, step_print]

@[simp]
theorem step_putLines (b : Buffer) (lines : List String) : (b.putLines lines).step = b.step :=
  foldl_keeps step step_putLine lines b

@[simp]
theorem step_append (b other : Buffer) : (b.append other).step = b.step := by
  rw [append, step_print]
  split <;> simp

theorem depth_push (b : Buffer) (c : Char) : (b.push c).depth = b.depth := by
  unfold push
  split
  · rfl
  · split <;> rfl

theorem depth_putLine (b : Buffer) (line : String) : (b.putLine line).depth = b.depth := by
  rw [putLine, depth_push]
  exact foldl_keeps depth depth_push line.toList b

/-- The text of before stands in front. -/
def Extends (b b' : Buffer) : Prop := ∃ more, b'.text = b.text ++ more

namespace Extends

variable {b b₁ b₂ : Buffer}

theorem refl : b.Extends b := ⟨"", String.append_empty.symm⟩

theorem trans (first : b.Extends b₁) (second : b₁.Extends b₂) : b.Extends b₂ := by
  obtain ⟨front, same⟩ := first
  obtain ⟨behind, same'⟩ := second
  exact ⟨front ++ behind, by rw [same', same, String.append_assoc]⟩

theorem push (b : Buffer) (c : Char) : b.Extends (b.push c) := by
  have plain : ∀ text : String, ∃ more, text.push c = text ++ more :=
    fun text => ⟨String.singleton c, String.push_eq_append c⟩
  unfold Buffer.push
  split
  · exact plain b.text
  · split
    · obtain ⟨more, same⟩ := plain (b.text ++ String.ofList (List.replicate b.depth ' '))
      exact ⟨_, same.trans (String.append_assoc ..)⟩
    · exact plain b.text

theorem print (b : Buffer) (text : String) : b.Extends (b.print text) := by
  unfold Buffer.print
  induction text.toList generalizing b with
  | nil => exact refl
  | cons c rest ih => exact (push b c).trans (ih (b.push c))

theorem putLine (b : Buffer) (line : String) : b.Extends (b.putLine line) :=
  (print b line).trans (push _ '\n')

theorem indent (b : Buffer) : b.Extends b.indent := refl

end Extends

end Text.Buffer

/-! ## The lines of a buffer -/

namespace Text.Buffer

/-- The buffer holds the lines, and the next line goes to the level `level`. -/
structure Holds (b : Buffer) (lines : List Line) (level : Nat) : Prop where
  text : b.text.toList = (lines.map (Line.text b.step)).flatMap (· ++ ['\n'])
  whole : ∀ line ∈ lines, '\n' ∉ line.content
  start : b.atLineStart = true
  depth : b.depth = level * b.step

theorem foldl_push {b : Buffer} (begun : b.atLineStart = false) {chars : List Char}
    (whole : '\n' ∉ chars) :
    chars.foldl push b = { b with text := b.text ++ String.ofList chars } := by
  induction chars generalizing b with
  | nil => simp
  | cons c rest ih =>
    rw [List.mem_cons, not_or] at whole
    have pushed : b.push c = { b with text := b.text.push c } := by
      simp [push, Ne.symm whole.1, begun]
    rw [List.foldl_cons, pushed, ih (b := { b with text := b.text.push c }) begun whole.2]
    congr 1
    apply String.toList_injective
    simp

/-- A line without line breaks is written at the depth of the buffer, unless it is empty. -/
theorem foldl_push_line {b : Buffer} (start : b.atLineStart = true) {chars : List Char}
    (whole : '\n' ∉ chars) :
    (chars ++ ['\n']).foldl push b =
      { b with text := b.text ++ String.ofList (indented b.depth chars ++ ['\n']) } := by
  rw [List.foldl_append]
  cases chars with
  | nil => simp [push, start, indented, String.push_eq_append]
  | cons c rest =>
    rw [List.mem_cons, not_or] at whole
    have pushed : b.push c = { b with
        text := (b.text ++ String.ofList (List.replicate b.depth ' ')).push c
        atLineStart := false } := by
      simp [push, Ne.symm whole.1, start]
    have line : (c :: rest).foldl push b = rest.foldl push (b.push c) := rfl
    rw [line, pushed, foldl_push rfl whole.2]
    simp only [List.foldl_cons, List.foldl_nil, push, ite_true, start]
    congr 1
    apply String.toList_injective
    simp [indented]

namespace Holds

variable {b other : Buffer} {lines more : List Line} {level : Nat}

theorem empty (step : Nat) : (ofStep step).Holds [] 0 where
  text := rfl
  whole := List.forall_mem_nil _
  start := rfl
  depth := (Nat.zero_mul step).symm

theorem putLine (holds : b.Holds lines level) {text : String} (whole : '\n' ∉ text.toList) :
    (b.putLine text).Holds (lines ++ [⟨level, text.toList⟩]) level := by
  have written := foldl_push_line holds.start whole
  rw [List.foldl_append] at written
  rw [show b.putLine text = _ from written]
  refine ⟨?_, ?_, holds.start, holds.depth⟩
  · simp [holds.text, holds.depth, Line.text]
  · exact List.forall_mem_append.mpr ⟨holds.whole, List.forall_mem_singleton.mpr whole⟩

theorem indent (holds : b.Holds lines level) : b.indent.Holds lines (level + 1) where
  text := holds.text
  whole := holds.whole
  start := holds.start
  depth := by
    show b.depth + b.step = (level + 1) * b.step
    rw [holds.depth, Nat.succ_mul]

theorem dedent (holds : b.Holds lines (level + 1)) : b.dedent.Holds lines level where
  text := holds.text
  whole := holds.whole
  start := holds.start
  depth := by
    show b.depth - b.step = level * b.step
    rw [holds.depth, Nat.succ_mul, Nat.add_sub_cancel]

/-- The lines of another buffer go to the depth of the first. -/
theorem append {levels : Nat} (holds : b.Holds lines levels) (spliced : other.Holds more level)
    (same : other.step = b.step) :
    (b.append other).Holds (lines ++ more.map (Line.deeper levels)) levels := by
  have eq : b.append other = other.text.toList.foldl push b := by
    rw [Buffer.append, if_pos holds.start]
    rfl
  have whole := spliced.whole
  rw [eq, spliced.text, same]
  clear eq spliced same
  induction more generalizing b lines with
  | nil => simpa using holds
  | cons line rest ih =>
    obtain ⟨first, others⟩ := List.forall_mem_cons.mp whole
    have written := foldl_push_line holds.start (break_not_mem_indented first (line.level * b.step))
    have deeper : indented b.depth (indented (line.level * b.step) line.content) =
        (line.deeper levels).text b.step := by
      rw [indented_indented, holds.depth, ← Nat.add_mul]
      rfl
    rw [deeper] at written
    have step : Holds
        { b with text := b.text ++ String.ofList ((line.deeper levels).text b.step ++ ['\n']) }
        (lines ++ [line.deeper levels]) levels :=
      { text := by simp [holds.text]
        whole := List.forall_mem_append.mpr ⟨holds.whole, List.forall_mem_singleton.mpr first⟩
        start := holds.start
        depth := holds.depth }
    have all := ih step others
    rw [List.map_cons, List.flatMap_cons, List.foldl_append, Line.text, written]
    simpa using all

/-- The depth that is read off the text of a buffer is the one at which its lines were written. -/
theorem trackDepth (holds : b.Holds lines level) {depth : Nat} (nested : Nested 0 lines depth) :
    trackDepth b.step 0 (textLines b.text.toList) = some depth := by
  have whole : ∀ line ∈ lines.map (Line.text b.step), '\n' ∉ line :=
    List.forall_mem_map.mpr fun line mem => break_not_mem_indented (holds.whole line mem) _
  rw [holds.text, textLines_flatMap whole, trackDepth_append_blank, trackDepth_of_nested nested]

end Holds

end Text.Buffer

end JavaBackend
