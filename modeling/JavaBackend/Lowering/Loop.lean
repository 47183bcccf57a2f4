import JavaBackend.Lowering.Value

/-!
# Loops

Java has no `redo`, and its `continue` leaves out what follows the body in a pass. A loop that needs
either has a labeled body:

```text
label1:
while (test) {
  boolean temp$1 = false;
  label2:
  do {
    temp$1 = false;
    body
  } while (temp$1);
  post
}
```

There `break` leaves the loop by its label, `next` leaves the body by its label, and `redo` sets the
flag and goes on with the test of the body. Without `redo` the body is a plain labeled block. A loop
that needs neither is a plain `while`, `do` or `for`.

A condition that needs statements is computed into a variable, at the end of each pass, and before
the loop if it is tested first.
-/

namespace JavaBackend

open Java (Stmt Code Piece Expr Test)

/-- What is laid out in front of the body of a labeled statement. -/
def labelPiece (label : String) : Piece := .line (label ++ ":")

/-- Refuse a `redo` in a body that is not labeled for it. -/
def refuseRedo (body : Option Part) (form : LoopForm) : Lower Unit :=
  match body with
  | some part => if part.tree.hasRedo then Lower.fail (.redoUnsupported form) else return
  | none => return

/-- The opening of a loop that is tested first, or at its end. -/
def loopOpening (checkFirst : Bool) (test : Test) : Piece :=
  .opening (if checkFirst then Java.whileHeading test else "do")

/-- A loop that is tested first, or at its end. -/
def loopStmt (checkFirst : Bool) (test : Test) (body : Code) : Stmt :=
  if checkFirst then .whileLoop test body else .doLoop body test

/-- The body of a labeled loop: with a flag it runs again while the flag is set. -/
def lowerLabeledBody (body : Option Part) (inner : String) : Option String → Lower Unit
  | some flag => do
    let clear : Stmt := .store (.into flag) (.literal (.bool false))
    let code ← Lower.block [labelPiece inner, .opening "do"] do
      Lower.emit clear
      lowerEffects body
    Lower.emit (.labeled inner (.doLoop code ⟨.var flag, false⟩))
  | none => do
    let code ← Lower.block [labelPiece inner, .opening ""] (lowerEffects body)
    Lower.emit (.labeled inner (.block code))

/-- A loop without labels. -/
def lowerPlainLoop (spec : Loop Part) : Lower Unit := do
  let test : Test := ⟨← spec.cond.toInline, spec.negative⟩
  let code ← Lower.block [loopOpening spec.checkFirst test] do
    Lower.inLoop ⟨.plainWhile, none, none⟩ do
      lowerEffects spec.pre
      lowerEffects spec.body
  Lower.emit (loopStmt spec.checkFirst test code)

/-- A condition, and how it is computed again if it is in a variable. -/
def loopTest (spec : Loop Part) : Lower (Expr × Option Temp) := do
  if ← spec.cond.isExpression then
    return (← spec.cond.toInline, none)
  else
    let name ← Lower.newDefaultTemp .boolean
    let held : Temp := ⟨name, some spec.cond⟩
    if spec.checkFirst then held.refresh
    return (.var name, some held)

/-- A loop with a labeled body. -/
def lowerLabeledLoop (spec : Loop Part) : Lower Unit := do
  let (cond, held) ← loopTest spec
  let test : Test := ⟨cond, spec.negative⟩
  let outer ← Lower.freshLabel
  let inner ← Lower.freshLabel
  let code ← Lower.block [labelPiece outer, loopOpening spec.checkFirst test] do
    let flag ← if spec.redo then some <$> Lower.newDefaultTemp .boolean else pure none
    Lower.inLoop ⟨.labeledWhile, some ⟨outer, inner⟩, flag⟩ do
      lowerEffects spec.pre
      lowerLabeledBody spec.body inner flag
      lowerEffects spec.post
      match held with
      | some held => held.refresh
      | none => return
  Lower.emit (.labeled outer (loopStmt spec.checkFirst test code))

/-- A loop with a condition. Its form is chosen before anything is laid out. -/
def lowerLoop (spec : Loop Part) : Lower Unit := do
  let isLocal := (← Lower.scope).isLocal
  let labeled := spec.redo || spec.post.isSome || !spec.cond.tree.isExpression isLocal
  if !spec.redo then
    refuseRedo spec.body (if labeled then .labeledWhile else .plainWhile)
  lowerEffects spec.init
  if labeled then lowerLabeledLoop spec else lowerPlainLoop spec

/-- The code of a loop over elements in which the element's variable is known. A name that is known
    already cannot be the variable of a Java loop: then the loop has a variable of its own, whose
    value is copied first. -/
def eachBody (spec : ForEach Part) (element : JavaType) (copyOf : Option String)
    (body : Lower Unit) : Lower Unit :=
  match copyOf with
  | some _ => body
  | none => Lower.withLocal spec.var element body

/-- A loop over elements. -/
def lowerForEach (spec : ForEach Part) : Lower Unit := do
  let form : LoopForm := if spec.redo then .labeledForEach else .plainForEach
  if !spec.redo then
    refuseRedo spec.body form
  let iterable ← spec.iterable.toExpr
  let element := spec.iterable.tree.type.component?.getD .object
  let copyOf ← if ← Lower.isLocal spec.var then some <$> Lower.freshName else pure none
  let var := copyOf.getD spec.var
  let opening : Piece := .opening (Java.forHeading element var iterable)
  let copy : Lower Unit := copyInto (copyOf.map fun _ => spec.var) var
  if spec.redo then
    let outer ← Lower.freshLabel
    let inner ← Lower.freshLabel
    let code ← Lower.block [labelPiece outer, opening] do
      copy
      let flag ← Lower.newDefaultTemp .boolean
      Lower.inLoop ⟨form, some ⟨outer, inner⟩, some flag⟩ do
        eachBody spec element copyOf (lowerLabeledBody spec.body inner (some flag))
    Lower.emit (.labeled outer (.forEach element var iterable code))
  else
    let code ← Lower.block [opening] do
      copy
      Lower.inLoop ⟨form, none, none⟩ (eachBody spec element copyOf (lowerEffects spec.body))
    Lower.emit (.forEach element var iterable code)

/-- A jump of the innermost loop. -/
def lowerJump (action : Jump) : Lower Unit := do
  match (← Lower.context).loops with
  | [] => Lower.fail (.outsideLoop action)
  | loop :: _ =>
    match action, loop.labels, loop.redoFlag with
    | .break, labels, _ => Lower.emit (.break (labels.map LabelPair.outer))
    | .next, none, _ => Lower.emit (.continue none)
    | .next, some labels, _ => Lower.emit (.break (some labels.inner))
    | .redo, some labels, some flag => do
      Lower.emit (.store (.into flag) (.literal (.bool true)))
      Lower.emit (.continue (some labels.inner))
    | .redo, _, _ => Lower.fail (.redoUnsupported loop.form)

end JavaBackend
