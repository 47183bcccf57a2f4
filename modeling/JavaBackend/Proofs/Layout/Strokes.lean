import JavaBackend.Proofs.Layout.Splicing

/-!
# The text of a buffer, character by character

What is written to a buffer is a stream of characters, whatever pieces it comes in. A `Stroke` is one of
them with the depth in force when it was written. The text of the buffer is `reference` of its strokes:
each line that is not empty stands behind as many spaces as the depth of its first stroke says. Without
these spaces the text is the stream again (`text_of_edits`).

The depth in force is an integer here, moved by each `indent` and `dedent`. That of a buffer stops at
zero, so the two are the same for edits that never go below (`NeverBelow`).
-/

namespace JavaBackend.Text.Buffer

/-! ## Strokes -/

/-- A written character, and the depth in force when it was written. -/
structure Stroke where
  char : Char
  depth : Nat
  deriving DecidableEq, Repr

namespace Edit

/-- The characters that an edit writes. -/
def written : Edit → List Char
  | .print text => text.toList
  | .putLine line => line.toList ++ ['\n']
  | .putLines lines => lines.flatMap (·.toList ++ ['\n'])
  | .indent | .dedent => []

/-- By how many levels an edit moves the lines to come. -/
def levels : Edit → Int
  | .indent => 1
  | .dedent => -1
  | .print _ | .putLine _ | .putLines _ => 0

end Edit

/-- The depth behind edits to a buffer that starts at depth zero. -/
def depthBehind (step : Nat) : List Edit → Int
  | [] => 0
  | next :: rest => next.levels * step + depthBehind step rest

/-- The edits never go below depth zero. -/
def NeverBelow (step : Nat) (all : List Edit) : Prop :=
  ∀ n ≤ all.length, 0 ≤ depthBehind step (all.take n)

instance (step : Nat) (all : List Edit) : Decidable (NeverBelow step all) :=
  inferInstanceAs (Decidable (∀ n ≤ all.length, 0 ≤ depthBehind step (all.take n)))

/-- The strokes of edits that start at a depth. -/
def strokes (step : Nat) (depth : Int) : List Edit → List Stroke
  | [] => []
  | next :: rest =>
    next.written.map (⟨·, depth.toNat⟩) ++ strokes step (depth + next.levels * step) rest

/-! ## The reference -/

/-- The lines of strokes: what stands between the line breaks. -/
def strokeLines (all : List Stroke) : List (List Stroke) := all.splitOnP (·.char == '\n')

/-- How far a line is indented. -/
def margin (line : List Stroke) : Nat := (line.head?.map Stroke.depth).getD 0

/-- A line behind its margin. -/
def lineText (line : List Stroke) : List Char :=
  List.replicate (margin line) ' ' ++ line.map Stroke.char

/-- The text of strokes: each line behind its margin. -/
def reference (all : List Stroke) : List Char :=
  ['\n'].intercalate ((strokeLines all).map lineText)

/-- A text without the first characters of its lines, so many of each as the list says. -/
def withoutMargins (margins : List Nat) (text : List Char) : List Char :=
  ['\n'].intercalate (List.zipWith List.drop margins (text.splitOn '\n'))

/-! ## One character -/

/-- The text of strokes behind what stands in a line already, if the line is begun. -/
def shown (start : Bool) (all : List Stroke) : List Char :=
  match strokeLines all with
  | [] => []
  | line :: others =>
    ['\n'].intercalate ((if start then lineText line else line.map Stroke.char) :: others.map lineText)

theorem strokeLines_cons (stroke : Stroke) (rest : List Stroke) :
    strokeLines (stroke :: rest) =
      if stroke.char = '\n' then [] :: strokeLines rest
      else (strokeLines rest).modifyHead (stroke :: ·) := by
  simp [strokeLines, List.splitOnP_cons_eq_if_modifyHead]

theorem strokeLines_ne_nil (all : List Stroke) : strokeLines all ≠ [] := by
  simp [strokeLines]

theorem shown_true (all : List Stroke) : shown true all = reference all := by
  unfold shown reference
  cases strokeLines all <;> rfl

/-- A line break ends a line, whether or not something stands in it. -/
theorem shown_break {stroke : Stroke} (isBreak : stroke.char = '\n') (start : Bool)
    (rest : List Stroke) : shown start (stroke :: rest) = '\n' :: shown true rest := by
  obtain ⟨line, others, lines⟩ := List.exists_cons_of_ne_nil (strokeLines_ne_nil rest)
  simp [shown, strokeLines_cons, isBreak, lines, lineText, margin]

/-- Another character goes behind the margin if it is the first one of its line. -/
theorem shown_plain {stroke : Stroke} (plain : stroke.char ≠ '\n') (start : Bool)
    (rest : List Stroke) :
    shown start (stroke :: rest) =
      (if start then List.replicate stroke.depth ' ' else []) ++ stroke.char :: shown false rest := by
  obtain ⟨line, others, lines⟩ := List.exists_cons_of_ne_nil (strokeLines_ne_nil rest)
  cases start <;> cases others <;> simp [shown, strokeLines_cons, plain, lines, lineText, margin]

/-- A character that is written moves from the strokes to come into the text. -/
theorem text_push (b : Buffer) (c : Char) (rest : List Stroke) :
    (b.push c).text.toList ++ shown (b.push c).atLineStart rest =
      b.text.toList ++ shown b.atLineStart (⟨c, b.depth⟩ :: rest) := by
  by_cases isBreak : c = '\n'
  · rw [shown_break isBreak]
    simp [push, isBreak]
  rw [shown_plain isBreak]
  cases start : b.atLineStart with
  | true => simp [push_first start isBreak]
  | false => simp [push_next start isBreak, start]

/-! ## Any number of edits -/

theorem text_foldl_push (chars : List Char) (b : Buffer) (rest : List Stroke) :
    (chars.foldl push b).text.toList ++ shown (chars.foldl push b).atLineStart rest =
      b.text.toList ++ shown b.atLineStart (chars.map (⟨·, b.depth⟩) ++ rest) := by
  induction chars generalizing b with
  | nil => rfl
  | cons c chars ih => rw [List.foldl_cons, ih, depth_push, text_push, List.map_cons, List.cons_append]

/-- An edit writes its characters, and apart from that it only moves the depth. -/
theorem edit_eq (b : Buffer) (next : Edit) :
    b.edit next = { next.written.foldl push b with depth := (b.edit next).depth } := by
  cases next with
  | print text => rfl
  | putLine line =>
    rw [Edit.written, List.foldl_append]
    rfl
  | putLines lines =>
    have chars : (unlines lines).toList = lines.flatMap (·.toList ++ ['\n']) := by
      simp [unlines, List.flatMap_def, Function.comp_def]
    rw [edit, putLines_eq_print, print, chars, Edit.written]
  | indent | dedent => rfl

theorem depth_edit (b : Buffer) (next : Edit) (above : 0 ≤ (b.depth + next.levels * b.step : Int)) :
    ((b.edit next).depth : Int) = b.depth + next.levels * b.step := by
  cases next with
  | print text => simp [edit, print, Edit.levels, foldl_keeps depth depth_push]
  | putLine line => simp [edit, Edit.levels, depth_putLine]
  | putLines lines => simp [edit, putLines, Edit.levels, foldl_keeps depth depth_putLine]
  | indent => simp [edit, indent, Edit.levels]
  | dedent =>
    simp only [Edit.levels] at above ⊢
    simp only [edit, dedent]
    omega

/-- The text behind edits that never go below depth zero. -/
theorem text_edits (all : List Edit) (b : Buffer)
    (above : ∀ n ≤ all.length, 0 ≤ b.depth + depthBehind b.step (all.take n)) :
    (b.edits all).text.toList = b.text.toList ++ shown b.atLineStart (strokes b.step b.depth all) := by
  induction all generalizing b with
  | nil => simp [edits, strokes, shown, strokeLines, lineText, margin]
  | cons next rest ih =>
    have moved (front : List Edit) : (b.depth + depthBehind b.step (next :: front) : Int) =
        b.depth + next.levels * b.step + depthBehind b.step front := by
      rw [depthBehind, Int.add_assoc]
    have first := above 1 (by simp)
    rw [List.take_succ_cons, List.take_zero, moved, depthBehind, Int.add_zero] at first
    have depth := b.depth_edit next first
    have step : (b.edit next).step = b.step := by
      rw [edit_eq]
      exact foldl_keeps Buffer.step step_push next.written b
    have behind := ih (b.edit next) fun n inside => by
      rw [depth, step, ← moved]
      exact above (n + 1) (Nat.succ_le_succ inside)
    rw [depth, step] at behind
    have text : (b.edit next).text = (next.written.foldl push b).text := by rw [edit_eq]
    have flag : (b.edit next).atLineStart = (next.written.foldl push b).atLineStart := by rw [edit_eq]
    rw [text, flag, text_foldl_push] at behind
    exact behind

/-! ## The stream -/

theorem char_strokes (step : Nat) (depth : Int) (all : List Edit) :
    (strokes step depth all).map Stroke.char = all.flatMap Edit.written := by
  induction all generalizing depth with
  | nil => rfl
  | cons next rest ih => simp [strokes, ih, Function.comp_def]

/-- The lines of strokes are those of the stream. -/
theorem strokeLines_char (all : List Stroke) :
    (strokeLines all).map (·.map Stroke.char) = (all.map Stroke.char).splitOn '\n' := by
  induction all with
  | nil => simp [strokeLines]
  | cons stroke rest ih =>
    obtain ⟨line, others, lines⟩ := List.exists_cons_of_ne_nil (strokeLines_ne_nil rest)
    rw [strokeLines_cons, List.map_cons, List.splitOn_cons_eq_if_modifyHead, ← ih, lines]
    by_cases isBreak : stroke.char = '\n' <;> simp [isBreak]

theorem break_not_mem_line (all : List Stroke) :
    ∀ line ∈ strokeLines all, ∀ stroke ∈ line, stroke.char ≠ '\n' := by
  induction all with
  | nil => simp [strokeLines]
  | cons stroke rest ih =>
    rw [strokeLines_cons]
    split
    · exact List.forall_mem_cons.mpr ⟨by simp, ih⟩
    · next plain =>
      obtain ⟨line, others, lines⟩ := List.exists_cons_of_ne_nil (strokeLines_ne_nil rest)
      rw [lines, List.forall_mem_cons] at ih
      rw [lines, List.modifyHead_cons, List.forall_mem_cons]
      exact ⟨List.forall_mem_cons.mpr ⟨plain, ih.1⟩, ih.2⟩

theorem break_not_mem_lineText {line : List Stroke} (unbroken : ∀ stroke ∈ line, stroke.char ≠ '\n') :
    '\n' ∉ lineText line := by
  rw [lineText, List.mem_append, not_or]
  refine ⟨fun mem => absurd (List.eq_of_mem_replicate mem) (by decide), fun mem => ?_⟩
  obtain ⟨stroke, inLine, isBreak⟩ := List.mem_map.mp mem
  exact unbroken stroke inLine isBreak

/-- The margins are what stands between the reference and the stream. -/
theorem withoutMargins_reference (all : List Stroke) :
    withoutMargins ((strokeLines all).map margin) (reference all) = all.map Stroke.char := by
  have lines : (reference all).splitOn '\n' = (strokeLines all).map lineText :=
    List.splitOn_intercalate _ (List.forall_mem_map.mpr fun line mem =>
      break_not_mem_lineText (break_not_mem_line all line mem)) (by simp [strokeLines_ne_nil])
  have plain : List.zipWith List.drop ((strokeLines all).map margin) ((strokeLines all).map lineText) =
      (strokeLines all).map (·.map Stroke.char) := by
    simp [List.zipWith_map, List.zipWith_self, lineText]
  rw [withoutMargins, lines, plain, strokeLines_char, List.intercalate_splitOn]

/-- Whatever pieces it is written in, a text is what was written, with each line that is not empty behind
    as many spaces as the depth was when its first character was written; without these spaces it is the
    stream of what was written. -/
theorem text_of_edits (step : Nat) (all : List Edit) (above : NeverBelow step all) :
    let text := ((ofStep step).edits all).text.toList
    let strokes := strokes step 0 all
    strokes.map Stroke.char = all.flatMap Edit.written ∧ text = reference strokes ∧
      withoutMargins ((strokeLines strokes).map margin) text = all.flatMap Edit.written ∧
      (∀ (b : Buffer) (first second : String),
        b.print (first ++ second) = (b.print first).print second) ∧
      ∀ (b : Buffer) (line : String), b.putLine line = b.print (line ++ "\n") := by
  intro text strokes
  have shows : text = reference strokes := by
    have behind := text_edits all (ofStep step) fun n inside => by
      show 0 ≤ (0 : Int) + depthBehind step (all.take n)
      rw [Int.zero_add]
      exact above n inside
    exact behind.trans (shown_true strokes)
  refine ⟨char_strokes step 0 all, shows, ?_, print_append, fun b line => ?_⟩
  · rw [shows, withoutMargins_reference, char_strokes]
  · simp [print, putLine]

/-- A call whose arguments stand on lines of their own: the depth changes in the middle of a line, pieces
    have line breaks in them and in front, and empty lines stay empty at any depth. -/
theorem text_of_call_edits :
    let call : List Edit :=
      [.print "f(", .indent, .putLine "a,\n\nb", .print "", .putLines ["", " c"], .dedent, .print ")"]
    let text := ((ofStep 2).edits call).text.toList
    NeverBelow 2 call ∧ text = reference (strokes 2 0 call) ∧
      reference (strokes 2 0 call) = "f(a,\n\n  b\n\n   c\n)".toList ∧
      (strokeLines (strokes 2 0 call)).map margin = [0, 0, 2, 0, 2, 0] ∧
      withoutMargins [0, 0, 2, 0, 2, 0] text = "f(a,\n\nb\n\n c\n)".toList := by
  intro call text
  have above : NeverBelow 2 call := by decide
  obtain ⟨-, shows, stream, -, -⟩ := text_of_edits 2 call above
  exact ⟨above, shows, by decide, by decide, stream.trans (by decide)⟩

end JavaBackend.Text.Buffer
