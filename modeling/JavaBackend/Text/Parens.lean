/-!
# Enclosing parentheses

An expression that stands alone between the parentheses of a construct (`if (...)`) needs no pair
of its own around it. `Parens.unwrap` takes one such pair away, and only a pair whose two sides
belong together: `(a) + (b)` keeps its own. Parentheses inside string and character literals do
not count.
-/

namespace JavaBackend.Text.Parens

/-- Where the scan of an expression stands: outside a literal, inside one, or right after a
    backslash inside one. -/
inductive Mode where
  | code
  | literal (quote : Char)
  | escaped (quote : Char)
  deriving DecidableEq, Repr

/-- Whether the parentheses of the text close in order, none before it opens, when `depth` of
    them are open at its start. -/
def balanced : Mode → Nat → List Char → Bool
  | _, depth, [] => depth == 0
  | .literal quote, depth, c :: rest =>
    if c = '\\' then balanced (.escaped quote) depth rest
    else if c = quote then balanced .code depth rest
    else balanced (.literal quote) depth rest
  | .escaped quote, depth, _ :: rest => balanced (.literal quote) depth rest
  | .code, depth, c :: rest =>
    if c = '"' ∨ c = '\'' then balanced (.literal c) depth rest
    else if c = '(' then balanced .code (depth + 1) rest
    else if c = ')' then
      match depth with
      | 0 => false
      | depth + 1 => balanced .code depth rest
    else balanced .code depth rest

/-- The text between a first character `(` and a last character `)`. -/
def inner? : List Char → Option (List Char)
  | '(' :: rest => if rest.getLast? = some ')' then some rest.dropLast else none
  | _ => none

/-- The text without the one pair of parentheses that encloses all of it, or the text itself
    where there is no such pair. -/
def unwrapChars (text : List Char) : List Char :=
  match inner? text with
  | some inside => if balanced .code 0 inside then inside else text
  | none => text

/-- `unwrapChars` on strings. -/
def unwrap (text : String) : String :=
  String.ofList (unwrapChars text.toList)

end JavaBackend.Text.Parens
