/-!
# An indenting text buffer

Text is collected line by line. Indentation is written with the first character of a line, never
before it, so a line can be put together in several pieces and an empty line stays empty.
-/

namespace JavaBackend.Text

/-- Collected text with the indentation of the lines to come. -/
structure Buffer where
  text : String := ""
  /-- Spaces in front of a line that starts now. -/
  depth : Nat := 0
  /-- Spaces that one level of indentation adds. -/
  step : Nat := 2
  /-- Whether the current line is still empty. -/
  atLineStart : Bool := true
  deriving DecidableEq, Repr

namespace Buffer

/-- An empty buffer whose levels are `step` spaces wide. -/
def ofStep (step : Nat) : Buffer := { step := step }

def isEmpty (b : Buffer) : Bool := b.text.isEmpty

/-- Write one character, after the indentation if it is the first of its line. -/
def push (b : Buffer) (c : Char) : Buffer :=
  if c = '\n' then { b with text := b.text.push c, atLineStart := true }
  else if b.atLineStart then
    { b with
      text := (b.text ++ String.ofList (List.replicate b.depth ' ')).push c
      atLineStart := false }
  else { b with text := b.text.push c }

/-- Continue the current line. A line break in the text starts the next line. -/
def print (b : Buffer) (text : String) : Buffer :=
  text.toList.foldl push b

/-- Finish the current line with `line`. -/
def putLine (b : Buffer) (line : String) : Buffer :=
  (b.print line).push '\n'

/-- Finish one line per item. -/
def putLines (b : Buffer) (lines : List String) : Buffer :=
  lines.foldl putLine b

/-- The lines to come stand one level deeper. -/
def indent (b : Buffer) : Buffer := { b with depth := b.depth + b.step }

/-- The lines to come stand one level less deep. -/
def dedent (b : Buffer) : Buffer := { b with depth := b.depth - b.step }

/-- Splice the text of another buffer in, each of its lines shifted to this buffer's depth. A
    line that is begun is finished first. -/
def append (b other : Buffer) : Buffer :=
  (if b.atLineStart then b else b.push '\n').print other.text

end Buffer

end JavaBackend.Text
