import JavaBackend.Proofs.Layout.Lines

/-!
# Splicing a buffer and writing in place

What is written to a buffer of its own and spliced into another one reads as if it had been written
there. `Edit` is an operation on a buffer; `Mirrors` relates the two places to which the same edits
are made. `shift` is what splicing does to a text of whole lines.
-/

namespace JavaBackend

/-! ## Whole lines -/

/-- The text with each of its lines behind spaces. Empty lines stay empty. -/
def shift (depth : Nat) (text : String) : String :=
  String.ofList (['\n'].intercalate ((textLines text.toList).map (indented depth)))

/-- The texts, with a line break behind each. -/
def unlines (texts : List String) : String := String.join (texts.map (· ++ "\n"))

/-- Every line of the text is ended. -/
def WholeLines (text : String) : Prop := text = "" ∨ text.toList.getLast? = some '\n'

theorem exists_lines {chars : List Char} (whole : chars = [] ∨ chars.getLast? = some '\n') :
    ∃ lines : List (List Char), (∀ line ∈ lines, '\n' ∉ line) ∧
      chars = lines.flatMap (· ++ ['\n']) := by
  induction chars with
  | nil => exact ⟨[], by simp⟩
  | cons c rest ih =>
    have behind : rest = [] ∨ rest.getLast? = some '\n' := by
      cases rest with
      | nil => exact .inl rfl
      | cons d rest => simpa using whole
    obtain ⟨lines, unbroken, rfl⟩ := ih behind
    by_cases last : c = '\n'
    · exact ⟨[] :: lines, by simpa using unbroken, by simp [last]⟩
    · cases lines with
      | nil => simp [last] at whole
      | cons line lines =>
        refine ⟨(c :: line) :: lines, ?_, by simp⟩
        rw [List.forall_mem_cons] at unbroken ⊢
        exact ⟨by simp [unbroken.1, Ne.symm last], unbroken.2⟩

theorem intercalate_break (lines : List (List Char)) :
    ['\n'].intercalate (lines ++ [[]]) = lines.flatMap (· ++ ['\n']) := by
  induction lines with
  | nil => rfl
  | cons line rest ih =>
    rw [List.cons_append, List.intercalate_cons_of_ne_nil (by simp), ih, List.flatMap_cons]

theorem shift_lines {lines : List (List Char)} (unbroken : ∀ line ∈ lines, '\n' ∉ line)
    (depth : Nat) {text : String} (same : text.toList = lines.flatMap (· ++ ['\n'])) :
    shift depth text =
      String.ofList ((lines.map (indented depth)).flatMap (· ++ ['\n'])) := by
  rw [shift, same, textLines_flatMap unbroken, List.map_append, ← intercalate_break]
  rfl

theorem shift_zero {text : String} (whole : WholeLines text) : shift 0 text = text := by
  obtain ⟨lines, unbroken, same⟩ := exists_lines (whole.imp_left String.toList_eq_nil_iff.mpr)
  have unmoved : indented 0 = id := by
    funext content
    simp [indented]
  rw [shift_lines unbroken 0 same, unmoved, List.map_id, ← same, String.ofList_toList]

theorem shift_append {first second : String} (whole : WholeLines first) (behind : WholeLines second)
    (depth : Nat) : shift depth (first ++ second) = shift depth first ++ shift depth second := by
  obtain ⟨lines, unbroken, same⟩ := exists_lines (whole.imp_left String.toList_eq_nil_iff.mpr)
  obtain ⟨more, others, rest⟩ := exists_lines (behind.imp_left String.toList_eq_nil_iff.mpr)
  have all : (first ++ second).toList = (lines ++ more).flatMap (· ++ ['\n']) := by
    rw [String.toList_append, same, rest, List.flatMap_append]
  rw [shift_lines unbroken depth same, shift_lines others depth rest,
    shift_lines (List.forall_mem_append.mpr ⟨unbroken, others⟩) depth all]
  simp

@[simp]
theorem shift_empty (depth : Nat) : shift depth "" = "" := by
  simp [shift, textLines, indented]

@[simp]
theorem unlines_nil : unlines [] = "" := rfl

theorem wholeLines_unlines (texts : List String) : WholeLines (unlines texts) := by
  rcases texts.eq_nil_or_concat with rfl | ⟨front, text, rfl⟩
  · exact .inl rfl
  · exact .inr (by simp [unlines])

theorem unlines_append (first second : List String) :
    unlines (first ++ second) = unlines first ++ unlines second := by
  simp [unlines]

end JavaBackend

namespace JavaBackend.Text.Buffer

/-- Whole lines go to the depth of the buffer. -/
theorem print_wholeLines {b : Buffer} (start : b.atLineStart = true) {text : String}
    (whole : WholeLines text) : b.print text = { b with text := b.text ++ shift b.depth text } := by
  obtain ⟨lines, unbroken, same⟩ := exists_lines (whole.imp_left String.toList_eq_nil_iff.mpr)
  rw [print, shift_lines unbroken b.depth same, same]
  clear whole same
  induction lines generalizing b with
  | nil => simp
  | cons line rest ih =>
    obtain ⟨first, others⟩ := List.forall_mem_cons.mp unbroken
    rw [List.flatMap_cons, List.foldl_append, foldl_push_line start first, ih]
    · congr 1
      apply String.toList_injective
      simp
    · exact start
    · exact others

theorem putLines_eq_print (b : Buffer) (texts : List String) :
    b.putLines texts = b.print (unlines texts) := by
  induction texts generalizing b with
  | nil => rfl
  | cons text rest ih =>
    rw [show b.putLines (text :: rest) = (b.putLine text).putLines rest from rfl, ih]
    simp [unlines, print, putLine]

/-- Lines are written at the depth of the buffer. -/
theorem putLines_at_start {b : Buffer} (start : b.atLineStart = true) (texts : List String) :
    b.putLines texts = { b with text := b.text ++ shift b.depth (unlines texts) } := by
  rw [putLines_eq_print, print_wholeLines start (wholeLines_unlines texts)]

theorem putLine_at_start {b : Buffer} (start : b.atLineStart = true) (line : String) :
    b.putLine line = { b with text := b.text ++ shift b.depth (line ++ "\n") } := by
  have written := putLines_at_start start [line]
  rwa [show unlines [line] = line ++ "\n" by simp [unlines]] at written

/-- The first line of a new buffer stands at its margin. -/
theorem putLine_ofStep (step : Nat) (line : String) :
    (ofStep step).putLine line = { ofStep step with text := line ++ "\n" } := by
  have whole : WholeLines (line ++ "\n") := .inr (by simp)
  rw [putLine_at_start rfl, show (ofStep step).depth = 0 from rfl, shift_zero whole]
  simp [ofStep]

theorem putLine_empty {b : Buffer} (start : b.atLineStart = true) :
    b.putLine "" = { b with text := b.text ++ "\n" } := by
  simp [putLine, print, push, start, String.push_eq_append]

theorem append_wholeLines {b other : Buffer} (start : b.atLineStart = true)
    (whole : WholeLines other.text) :
    b.append other = { b with text := b.text ++ shift b.depth other.text } := by
  rw [append, if_pos start, print_wholeLines start whole]

/-! ## Edits -/

/-- An operation that writes to a buffer. -/
inductive Edit where
  | print (text : String)
  | putLine (line : String)
  | putLines (lines : List String)
  | indent
  | dedent
  deriving DecidableEq, Repr

/-- The buffer after an edit. -/
def edit (b : Buffer) : Edit → Buffer
  | .print text => b.print text
  | .putLine line => b.putLine line
  | .putLines lines => b.putLines lines
  | .indent => b.indent
  | .dedent => b.dedent

/-- The buffer after edits, from the first to the last. -/
def edits (b : Buffer) (all : List Edit) : Buffer := all.foldl edit b

/-- None of the edits takes the buffer to a depth below `floor`. -/
def StaysAbove (floor : Nat) : Buffer → List Edit → Prop
  | _, [] => True
  | b, next :: rest => floor ≤ (b.edit next).depth ∧ StaysAbove floor (b.edit next) rest

/-! ## The same edits in two places -/

/-- `direct` is `target` with `apart` spliced in at the start of a line, but for the depth of the
    lines to come: that of `apart` counts from that of `target`. -/
structure Mirrors (target apart direct : Buffer) : Prop where
  printed : target.print apart.text = { direct with depth := target.depth }
  flag : apart.atLineStart = direct.atLineStart
  step : apart.step = direct.step
  depth : direct.depth = target.depth + apart.depth

theorem push_first {b : Buffer} (start : b.atLineStart = true) {c : Char} (plain : c ≠ '\n') :
    b.push c =
      { b with
        text := (b.text ++ String.ofList (List.replicate b.depth ' ')).push c
        atLineStart := false } := by
  simp [push, plain, start]

theorem push_next {b : Buffer} (begun : b.atLineStart = false) {c : Char} (plain : c ≠ '\n') :
    b.push c = { b with text := b.text.push c } := by
  simp [push, plain, begun]

theorem print_push (b : Buffer) (text : String) (c : Char) :
    b.print (text.push c) = (b.print text).push c := by
  simp [print]

theorem print_append (b : Buffer) (first second : String) :
    b.print (first ++ second) = (b.print first).print second := by
  simp [print]

/-- Spaces at the start of a line add to its indentation. -/
theorem print_spaces {b : Buffer} (start : b.atLineStart = true) {c : Char} (plain : c ≠ '\n')
    (n : Nat) :
    (b.print (String.ofList (List.replicate n ' '))).push c =
      { b with
        text := (b.text ++ String.ofList (List.replicate (b.depth + n) ' ')).push c
        atLineStart := false } := by
  cases n with
  | zero => simpa [print] using push_first start plain
  | succ n =>
    have spaces : '\n' ∉ List.replicate n ' ' := by simp [List.mem_replicate]
    rw [print, String.toList_ofList, List.replicate_succ, List.foldl_cons,
      push_first start (by decide), foldl_push rfl spaces, push_next rfl plain]
    congr 2
    apply String.toList_injective
    simp [← List.replicate_append_replicate, List.replicate_succ]

namespace Mirrors

variable {target apart direct : Buffer}

theorem fresh (start : target.atLineStart = true) :
    Mirrors target (ofStep target.step) target where
  printed := rfl
  flag := start.symm
  step := rfl
  depth := rfl

theorem push (mirrors : Mirrors target apart direct) (c : Char) :
    Mirrors target (apart.push c) (direct.push c) := by
  have ⟨printed, flag, step, depth⟩ := mirrors
  by_cases last : c = '\n'
  · subst last
    refine ⟨?_, rfl, step, depth⟩
    rw [show (apart.push '\n').text = apart.text.push '\n' from rfl, print_push, printed]
    rfl
  cases start : direct.atLineStart with
  | true =>
    -- The spaces that `apart` has for its own depth stand behind those of the target.
    rw [start] at printed flag
    rw [push_first flag last, push_first start last]
    refine ⟨?_, rfl, step, depth⟩
    rw [print_push, print_append, printed, print_spaces rfl last, depth]
  | false =>
    rw [start] at printed flag
    rw [push_next flag last, push_next start last]
    refine ⟨?_, flag.trans start.symm, step, depth⟩
    rw [print_push, printed, push_next rfl last, start]

theorem print (mirrors : Mirrors target apart direct) (text : String) :
    Mirrors target (apart.print text) (direct.print text) := by
  unfold Buffer.print
  generalize text.toList = chars
  induction chars generalizing apart direct with
  | nil => exact mirrors
  | cons c rest ih => exact ih (mirrors.push c)

theorem putLine (mirrors : Mirrors target apart direct) (line : String) :
    Mirrors target (apart.putLine line) (direct.putLine line) :=
  (mirrors.print line).push '\n'

theorem putLines (mirrors : Mirrors target apart direct) (lines : List String) :
    Mirrors target (apart.putLines lines) (direct.putLines lines) := by
  induction lines generalizing apart direct with
  | nil => exact mirrors
  | cons line rest ih => exact ih (mirrors.putLine line)

theorem indent (mirrors : Mirrors target apart direct) :
    Mirrors target apart.indent direct.indent where
  printed := mirrors.printed
  flag := mirrors.flag
  step := mirrors.step
  depth := by
    simp only [Buffer.indent, mirrors.depth, mirrors.step]
    omega

theorem dedent (mirrors : Mirrors target apart direct)
    (above : target.depth ≤ direct.dedent.depth) : Mirrors target apart.dedent direct.dedent where
  printed := mirrors.printed
  flag := mirrors.flag
  step := mirrors.step
  depth := by
    simp only [Buffer.dedent, mirrors.depth, mirrors.step] at above ⊢
    omega

theorem edit (mirrors : Mirrors target apart direct) (next : Edit)
    (above : target.depth ≤ (direct.edit next).depth) :
    Mirrors target (apart.edit next) (direct.edit next) := by
  cases next with
  | print text => exact mirrors.print text
  | putLine line => exact mirrors.putLine line
  | putLines lines => exact mirrors.putLines lines
  | indent => exact mirrors.indent
  | dedent => exact mirrors.dedent above

theorem edits (mirrors : Mirrors target apart direct) {all : List Edit}
    (above : StaysAbove target.depth direct all) :
    Mirrors target (apart.edits all) (direct.edits all) := by
  induction all generalizing apart direct with
  | nil => exact mirrors
  | cons next rest ih => exact ih (mirrors.edit next above.1) above.2

end Mirrors

/-- Edits to a fresh buffer that is then spliced in read as the same edits in place, if these do not
    leave the depth at which they started. In the middle of a line, splicing starts a new one. -/
theorem append_edits_eq_edits (target : Buffer) :
    (target.atLineStart = true → ∀ all : List Edit, StaysAbove target.depth target all →
      (target.append ((ofStep target.step).edits all)).text = (target.edits all).text ∧
        (target.append ((ofStep target.step).edits all)).atLineStart =
          (target.edits all).atLineStart) ∧
      (target.atLineStart = false → ∀ other : Buffer,
        target.append other = (target.print "\n").append other) := by
  constructor
  · intro start all above
    have printed := ((Mirrors.fresh start).edits above).printed
    simp [append, start, printed]
  · intro begun other
    simp [append, begun, print, push]

/-- A call that is written in pieces, its arguments deeper than its first line and its last line left
    open; and a line that is left open before a buffer is spliced in. -/
theorem append_edits_eq_edits_of_pieces :
    let target : Buffer := { text := "class A \x7b\n", depth := 2 }
    let call : List Edit :=
      [.print "f(", .indent, .putLine "a,", .putLines ["", "b"], .dedent, .print ") + "]
    let begun : Buffer := { text := "int x", atLineStart := false }
    (target.append ((ofStep 2).edits call)).text = (target.edits call).text ∧
      (target.edits call).text = "class A \x7b\n  f(a,\n\n    b\n  ) + " ∧
        begun.append target = (begun.print "\n").append target := by
  intro target call begun
  have above : StaysAbove 2 target call := by
    simp only [StaysAbove, call]
    decide
  exact ⟨((append_edits_eq_edits target).1 rfl call above).1, by decide,
    (append_edits_eq_edits begun).2 rfl target⟩

end JavaBackend.Text.Buffer
