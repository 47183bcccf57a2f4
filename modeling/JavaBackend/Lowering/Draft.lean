import JavaBackend.Draft.Class
import JavaBackend.Lowering.Node

/-!
# Lowering into drafts

`ClassDraft.lower` runs a lowering for one of a class's methods: the pieces go to the method's text
if its body is open, the scope moves on in any case, and the fields that the code refers to are
declared in the class.
-/

namespace JavaBackend

namespace ClassDraft

/-- Declare the fields that code refers to. -/
def useFields (c : ClassDraft) (uses : List FieldUse) : ClassDraft :=
  uses.foldl (fun c use => (c.addField use.name use.type use.isStatic []).2) c

/-- What stands around the code of a method, inside the given loops. -/
def context (c : ClassDraft) (m : MethodDraft) (loops : List EnclosingLoop) : Context :=
  ⟨c.simpleName, m.signature.isStatic, m.signature.returns, loops⟩

/-- Lower code into a method. What a fault leaves behind stays. -/
def lower {α : Type} (c : ClassDraft) (index : Nat) (loops : List EnclosingLoop) (code : Lower α) :
    Except Fault α × ClassDraft :=
  match c.methods[index]? with
  | none => (.error (.unknownMethod index), c)
  | some m =>
    let run := code (c.context m loops) ⟨m.scope, []⟩
    let m := ({ m with scope := run.progress.scope } : MethodDraft).lay run.outcome.pieces
    (run.outcome.toExcept, (c.setMethod index m).useFields run.progress.fields)

end ClassDraft

end JavaBackend
