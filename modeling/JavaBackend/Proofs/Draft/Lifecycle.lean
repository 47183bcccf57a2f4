import JavaBackend.Proofs.Draft.Names
import JavaBackend.Proofs.Footprints.Restored
import JavaBackend.Proofs.Layout.Splicing

/-!
# The life of a method's draft

A draft is pending until it is started. A method without a body is sealed then, and stays as it is; any
other method is open, takes text, and is closed by the next stop. `Steps` says what one operation can do
to the stage and the text, and `lifecycle_of_runs` what holds behind any operations on a new draft.

Text is dropped in every stage but one, and nothing else is: what an operation answers, the variables and
the supplies of names do not hang on the stage.
-/

namespace JavaBackend.MethodDraft

/-! ## Answers -/

/-- What an operation answers. -/
inductive Answer where
  | nothing
  /-- Whether a variable is new. -/
  | isNew (value : Bool)
  /-- The type of a variable that is forgotten, if it was known. -/
  | forgotten (type? : Option JavaType)
  /-- The name of a temporary or of a label. -/
  | name (name : String)
  | refused (fault : Fault)
  deriving DecidableEq, Repr

def answer (m : MethodDraft) : Op → Answer
  | .declareLocal type name init => .isNew (m.declareLocal type name init).1
  | .learnLocal type name => .isNew (m.learnLocal type name).1
  | .forgetLocal name => .forgotten (m.forgetLocal name).1
  | .freshName => .name m.freshName.1
  | .newTemp type init => .name (m.newTemp type init).1
  | .freshLabel => .name m.freshLabel.1
  | .printDirective directive =>
    match m.printDirective directive with
    | .ok _ => .nothing
    | .error fault => .refused fault
  | _ => .nothing

/-- The answers to operations, from the first to the last. -/
def answers (m : MethodDraft) : List Op → List Answer
  | [] => []
  | op :: rest => m.answer op :: answers (m.step op) rest

/-! ## Stages -/

def Op.isStart : Op → Bool
  | .start => true
  | _ => false

def Op.isStop : Op → Bool
  | .stop => true
  | _ => false

/-- The stage of a new draft behind operations. Nothing counts in front of the first start, and behind it
    only a stop does. -/
def stageBehind (isAbstract : Bool) (ops : List Op) : Stage :=
  match ops.dropWhile (!·.isStart) with
  | [] => .pending
  | _ :: behind =>
    if isAbstract then .sealed else if behind.any Op.isStop then .closed else .opened

/-- The ways from one stage to another. -/
inductive Moves (isAbstract : Bool) : Stage → Stage → Prop
  | opens (concrete : isAbstract = false) : Moves isAbstract .pending .opened
  | closes (concrete : isAbstract = false) : Moves isAbstract .opened .closed
  | seals (abstract : isAbstract = true) : Moves isAbstract .pending .sealed

/-! ## One operation -/

/-- What one operation does to a draft. -/
inductive Steps : MethodDraft → Op → MethodDraft → Prop
  | seals {m} (pending : m.stage = .pending) (abstract : m.signature.isAbstract = true) :
    Steps m .start { m with out := m.out.putLine (m.signature.source ++ ";"), stage := .sealed }
  | opens {m} (pending : m.stage = .pending) (concrete : m.signature.isAbstract = false) :
    Steps m .start
      { m with out := (m.out.putLine (m.signature.source ++ " \x7b")).indent, stage := .opened }
  | closes {m} (opened : m.stage = .opened) :
    Steps m .stop { m with out := m.out.dedent.putLine "\x7d", stage := .closed }
  /-- An open draft takes text. -/
  | writes {m op scope out} (opened : m.stage = .opened) (inner : op.isStop = false)
    (text : m.out.Extends out) : Steps m op { m with scope := scope, out := out }
  /-- A draft that is not open takes none. -/
  | drops {m op scope} (shut : m.stage ≠ .opened) (inner : m.stage = .pending → op.isStart = false) :
    Steps m op { m with scope := scope }

variable {m m' : MethodDraft} {op : Op}

theorem steps_write {f : Text.Buffer → Text.Buffer} (text : ∀ b : Text.Buffer, b.Extends (f b))
    (scope : Scope) (inner : op.isStart = false ∧ op.isStop = false) :
    Steps m op (({ m with scope := scope } : MethodDraft).write f) := by
  unfold write
  split
  · next opened => exact .writes opened inner.2 (text m.out)
  · next shut => exact .drops shut fun _ => inner.1

theorem steps (m : MethodDraft) (op : Op) : Steps m op (m.step op) := by
  have printed {op : Op} (inner : op.isStart = false ∧ op.isStop = false) (text : String) :
      Steps m op (m.print text) := steps_write (fun b => .print b text) m.scope inner
  have laid {op : Op} (inner : op.isStart = false ∧ op.isStop = false) (piece : Java.Piece) :
      Steps m op (m.write (layPiece · piece)) := steps_write (extends_layPiece · piece) m.scope inner
  have kept {op : Op} (inner : op.isStart = false ∧ op.isStop = false) (scope : Scope) :
      Steps m op { m with scope := scope } := by
    by_cases opened : m.stage = .opened
    · exact .writes opened inner.2 .refl
    · exact .drops opened fun _ => inner.1
  cases op with
  | start =>
    unfold step start
    cases stage : m.stage with
    | pending =>
      cases abstract : m.signature.isAbstract with
      | true => exact .seals stage abstract
      | false => exact .opens stage abstract
    | opened => exact .writes stage rfl .refl
    | sealed | closed => exact .drops (by simp [stage]) (by simp [stage])
  | stop =>
    show Steps m .stop m.stop
    unfold stop
    split
    · next opened => exact .closes opened
    · next shut => exact .drops shut fun _ => rfl
  | print text => exact printed ⟨rfl, rfl⟩ text
  | putLine line => exact laid ⟨rfl, rfl⟩ (.line line)
  | openBlock heading => exact laid ⟨rfl, rfl⟩ (.opening heading)
  | closeBlock tail => exact laid ⟨rfl, rfl⟩ (.closing tail)
  | nextBlock heading => exact laid ⟨rfl, rfl⟩ (.next heading)
  | declareLocal type name init =>
    simp only [step, declareLocal]
    cases m.scope.reserve? name type with
    | none => exact kept ⟨rfl, rfl⟩ m.scope
    | some scope => exact steps_write (fun b => .putLine b _) scope ⟨rfl, rfl⟩
  | learnLocal type name =>
    simp only [step, learnLocal]
    cases m.scope.reserve? name type with
    | none => exact kept ⟨rfl, rfl⟩ m.scope
    | some scope => exact kept ⟨rfl, rfl⟩ scope
  | forgetLocal | freshName | freshLabel => exact kept ⟨rfl, rfl⟩ _
  | newTemp type init => exact steps_write (fun b => .putLine b _) _ ⟨rfl, rfl⟩
  | printLiteral value => exact printed ⟨rfl, rfl⟩ value.source
  | printInstanceOf type => exact printed ⟨rfl, rfl⟩ (" instanceof " ++ type.source)
  | printDirective directive =>
    simp only [step, printDirective]
    cases Directive.literal? directive with
    | none => exact kept ⟨rfl, rfl⟩ m.scope
    | some value => exact printed ⟨rfl, rfl⟩ value.source

/-- What an operation answers and what it does to the scope hang on the scope alone. -/
theorem answer_congr {other : MethodDraft} (same : other.scope = m.scope) (op : Op) :
    other.answer op = m.answer op ∧ (other.step op).scope = (m.step op).scope := by
  rw [scope_step, scope_step, same]
  refine ⟨?_, rfl⟩
  cases op with
  | declareLocal type name init =>
    simp only [answer, declareLocal, same]
    cases m.scope.reserve? name type <;> rfl
  | learnLocal type name =>
    simp only [answer, learnLocal, same]
    cases m.scope.reserve? name type <;> rfl
  | forgetLocal | freshName | newTemp | freshLabel =>
    simp only [answer, forgetLocal, localType?, freshName, newTemp, freshLabel, same]
  | printDirective directive =>
    simp only [answer, printDirective]
    cases Directive.literal? directive <;> rfl
  | _ => rfl

/-! ## Any number of operations -/

/-- A draft of the signature that some operations can leave. -/
inductive Lives (signature : Signature) (indent : Nat) : MethodDraft → Prop
  | pending {scope} : Lives signature indent ⟨signature, .ofStep indent, scope, .pending⟩
  | sealed {out scope} (abstract : signature.isAbstract = true)
    (text : out.text = signature.source ++ ";\n") :
    Lives signature indent ⟨signature, out, scope, .sealed⟩
  | opened {out scope} (concrete : signature.isAbstract = false)
    (text : ∃ body, out.text = signature.source ++ " \x7b\n" ++ body) :
    Lives signature indent ⟨signature, out, scope, .opened⟩
  | closed {out scope} (concrete : signature.isAbstract = false)
    (text : ∃ body, out.text = signature.source ++ " \x7b\n" ++ body) :
    Lives signature indent ⟨signature, out, scope, .closed⟩

/-- The first line of a draft, with its end. -/
theorem text_putLine_ofStep (indent : Nat) (line : String) {mark ended : String}
    (same : mark ++ "\n" = ended) :
    ((Text.Buffer.ofStep indent).putLine (line ++ mark)).text = line ++ ended := by
  rw [Text.Buffer.putLine_ofStep, ← same, ← String.append_assoc]

/-- A draft that has begun with a line begins with it when more is written. -/
theorem text_extends {b b' : Text.Buffer} {front : String} (begun : ∃ body, b.text = front ++ body)
    (more : b.Extends b') : ∃ body, b'.text = front ++ body := by
  obtain ⟨body, begun⟩ := begun
  obtain ⟨behind, same⟩ := more
  exact ⟨body ++ behind, by rw [same, begun, String.append_assoc]⟩

namespace Lives

variable {signature : Signature} {indent : Nat}

theorem step (lives : Lives signature indent m) (op : Op) : Lives signature indent (m.step op) := by
  have steps := m.steps op
  generalize m.step op = m' at steps
  cases lives with
  | pending =>
    cases steps with
    | seals _ abstract => exact .sealed abstract (text_putLine_ofStep indent signature.source rfl)
    | opens _ concrete =>
      have begun : ((Text.Buffer.ofStep indent).putLine (signature.source ++ " \x7b")).text =
          signature.source ++ " \x7b\n" := text_putLine_ofStep indent signature.source rfl
      exact .opened concrete (text_extends ⟨"", begun.trans String.append_empty.symm⟩ (.indent _))
    | drops => exact .pending
    | closes opened | writes opened => cases opened
  | sealed abstract text =>
    cases steps with
    | drops => exact .sealed abstract text
    | seals pending | opens pending => cases pending
    | closes opened | writes opened => cases opened
  | opened concrete text =>
    cases steps with
    | closes => exact .closed concrete (text_extends text (.putLine _ "\x7d"))
    | writes _ _ more => exact .opened concrete (text_extends text more)
    | drops shut => exact absurd rfl shut
    | seals pending | opens pending => cases pending
  | closed concrete text =>
    cases steps with
    | drops => exact .closed concrete text
    | seals pending | opens pending => cases pending
    | closes opened | writes opened => cases opened

theorem run (lives : Lives signature indent m) (ops : List Op) :
    Lives signature indent (m.run ops) := by
  induction ops generalizing m with
  | nil => exact lives
  | cons op rest ih => exact ih (lives.step op)

/-- The stage changes in the ways that `Moves` gives, if it does. -/
theorem moves (lives : Lives signature indent m) (op : Op) :
    (m.step op).stage = m.stage ∨ Moves signature.isAbstract m.stage (m.step op).stage := by
  have steps := m.steps op
  generalize m.step op = m' at steps
  cases lives with
  | pending =>
    cases steps with
    | seals _ abstract => exact .inr (.seals abstract)
    | opens _ concrete => exact .inr (.opens concrete)
    | writes | drops => exact .inl rfl
    | closes opened => cases opened
  | opened concrete =>
    cases steps with
    | closes => exact .inr (.closes concrete)
    | writes | drops => exact .inl rfl
    | seals pending | opens pending => cases pending
  | sealed | closed =>
    cases steps with
    | writes | drops => exact .inl rfl
    | seals pending | opens pending => cases pending
    | closes opened => cases opened

end Lives

theorem stage_run (m : MethodDraft) (ops : List Op) :
    (m.run ops).stage =
      match m.stage with
      | .pending => stageBehind m.signature.isAbstract ops
      | .opened => if ops.any Op.isStop then .closed else .opened
      | stage => stage := by
  induction ops generalizing m with
  | nil => cases stage : m.stage <;> exact stage
  | cons op rest ih =>
    have steps := m.steps op
    rw [show m.run (op :: rest) = (m.step op).run rest from rfl, ih]
    generalize m.step op = m' at steps
    cases steps with
    | seals pending abstract => simp [pending, abstract, stageBehind, Op.isStart]
    | opens pending concrete => simp [pending, concrete, stageBehind, Op.isStart]
    | closes opened => simp [opened, Op.isStop]
    | writes opened inner => simp [opened, inner]
    | drops shut inner =>
      cases stage : m.stage with
      | pending => simp [stageBehind, inner stage]
      | opened => exact absurd stage shut
      | sealed | closed => rfl

theorem stageBehind_eq_pending {isAbstract : Bool} {ops : List Op} :
    stageBehind isAbstract ops = .pending ↔ ops.any Op.isStart = false := by
  induction ops with
  | nil => simp [stageBehind]
  | cons op rest ih =>
    cases start : op.isStart with
    | true =>
      have begun : stageBehind isAbstract (op :: rest) ≠ .pending := by
        rw [stageBehind, List.dropWhile_cons_of_neg (by simp [start])]
        dsimp only
        cases isAbstract with
        | true => nofun
        | false => cases rest.any Op.isStop <;> nofun
      simp [begun, start]
    | false => simpa [stageBehind, start] using ih

/-- Nothing is added to a draft that is closed. -/
theorem text_run_of_closed (closed : m.stage = .closed) (ops : List Op) :
    (m.run ops).out.text = m.out.text := by
  induction ops generalizing m with
  | nil => rfl
  | cons op rest ih =>
    have steps := m.steps op
    rw [show m.run (op :: rest) = (m.step op).run rest from rfl]
    generalize m.step op = m' at steps
    cases steps with
    | drops => exact ih closed
    | seals pending | opens pending => cases closed.symm.trans pending
    | closes opened | writes opened => cases closed.symm.trans opened

theorem answers_congr {other : MethodDraft} (same : other.scope = m.scope) (ops : List Op) :
    other.answers ops = m.answers ops ∧ (other.run ops).scope = (m.run ops).scope := by
  induction ops generalizing m other with
  | nil => exact ⟨rfl, same⟩
  | cons op rest ih =>
    obtain ⟨answer, left⟩ := answer_congr same op
    obtain ⟨behind, scope⟩ := ih left
    exact ⟨by rw [answers, answers, answer, behind], scope⟩

/-- Behind any operations on a new draft: its stage, and where it can go from there; its text, which
    starts with the first start and ends with the stop behind it; and whatever is done next, it answers
    and leaves its variables and supplies of names as a draft that is open and has the same would. -/
theorem lifecycle_of_runs (signature : Signature) (indent : Nat) (ops : List Op) :
    let m := (ofSignature signature indent).run ops
    m.stage = stageBehind signature.isAbstract ops ∧
      (∀ op, (m.step op).stage = m.stage ∨ Moves signature.isAbstract m.stage (m.step op).stage) ∧
      (ops.any Op.isStart = false → m.out.text = "") ∧
      (ops.any Op.isStart = true →
        if signature.isAbstract then m.out.text = signature.source ++ ";\n"
        else ∃ body, m.out.text = signature.source ++ " \x7b\n" ++ body) ∧
      (m.stage = .closed → ∀ more, (m.run more).out.text = m.out.text) ∧
      ∀ other : MethodDraft, other.scope = m.scope → ∀ more,
        other.answers more = m.answers more ∧ (other.run more).scope = (m.run more).scope := by
  intro m
  have lives : Lives signature indent m := Lives.pending.run ops
  have stage : m.stage = stageBehind signature.isAbstract ops := stage_run _ ops
  have started : m.stage = .pending ↔ ops.any Op.isStart = false := by
    rw [stage, stageBehind_eq_pending]
  refine ⟨stage, lives.moves, fun never => ?_, fun starts => ?_, text_run_of_closed,
    fun other same => answers_congr same⟩
  · have pending := started.mpr never
    generalize m = m at lives pending
    cases lives with
    | pending => rfl
    | sealed | opened | closed => cases pending
  · have begun : m.stage ≠ .pending := by simp [started, starts]
    generalize m = m at lives begun
    cases lives with
    | pending => exact absurd rfl begun
    | sealed abstract text => simpa [abstract] using text
    | opened concrete text | closed concrete text => simpa [concrete] using text

/-- A method that is stopped too early, started twice and written to behind its end, and one without a
    body. A temporary and a label that the second hands out are those of an open draft. -/
theorem lifecycle_of_two_runs :
    let signature : Signature := ⟨"run", .member, .void, [⟨"x", .int⟩], []⟩
    let ops : List Op :=
      [.stop, .newTemp .int none, .start, .start, .putLine "f();", .stop, .print "g", .freshLabel]
    let more : List Op := [.start, .openBlock "if (x)", .newTemp .int none, .declareLocal .int "y" none]
    let m := (ofSignature signature 2).run ops
    let bare := (ofSignature { signature with flavor := .abstract } 2).run ops
    (m.stage = .closed ∧ (m.run more).out.text = m.out.text) ∧
      bare.out.text = "public abstract void run(int x);\n" ∧
      (({ bare with stage := .opened } : MethodDraft).answers more = bare.answers more ∧
        bare.answers more = [.nothing, .nothing, .name "temp$2", .isNew true]) := by
  intro signature ops more m bare
  obtain ⟨stage, -, -, -, kept, -⟩ := lifecycle_of_runs signature 2 ops
  obtain ⟨-, -, -, text, -, like⟩ := lifecycle_of_runs { signature with flavor := .abstract } 2 ops
  have closed : m.stage = .closed := stage.trans (by decide)
  exact ⟨⟨closed, kept closed more⟩, (text (by decide)).trans (by decide),
    (like { bare with stage := .opened } rfl more).1, by decide⟩

end JavaBackend.MethodDraft
