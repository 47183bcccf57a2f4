import JavaBackend.Proofs.Footprints.Lowering
import JavaBackend.Proofs.Layout.Classes

/-!
# What lowering leaves as it was

A caller may go on with a method after a tree was lowered into it, also if that was refused. Then the
loops around are those of before, every variable is still known, supplies of names have only grown, and
the text of before stands in front (`perform_restores_but_for_temps`). A variable of a block is forgotten
behind the block: what is new outside of it is assigned outside of it, or is a temporary. A temporary may
have the name of such a variable, though, since names of temporaries are counted without a look at the
variables.
-/

namespace JavaBackend

open Java (Stmt Code Piece Handler)
open Lower

/-! ## Depth -/

/-- The depth behind a piece. -/
def Java.Piece.depthAfter (step depth : Nat) : Piece → Nat
  | .line _ => depth
  | .opening _ => depth + step
  | .next _ => depth - step + step
  | .closing _ => depth - step

/-- The pieces lead from one depth to another, and never below `low`. -/
inductive Climbs (step low : Nat) : Nat → List Piece → Nat → Prop
  | nil {depth : Nat} (above : low ≤ depth) : Climbs step low depth [] depth
  | cons {depth after : Nat} {piece : Piece} {rest : List Piece} (above : low ≤ depth)
      (behind : Climbs step low (piece.depthAfter step depth) rest after) :
      Climbs step low depth (piece :: rest) after

namespace Climbs

variable {step low depth middle after : Nat} {pieces rest written : List Piece}

theorem append (first : Climbs step low depth pieces middle)
    (second : Climbs step low middle rest after) : Climbs step low depth (pieces ++ rest) after := by
  induction first with
  | nil _ => exact second
  | cons above _ ih => exact .cons above (ih second)

theorem mono {below : Nat} (climbs : Climbs step low depth pieces after) (le : below ≤ low) :
    Climbs step below depth pieces after := by
  induction climbs with
  | nil above => exact .nil (Nat.le_trans le above)
  | cons above _ ih => exact .cons (Nat.le_trans le above) ih

theorem foldl_eq (climbs : Climbs step low depth pieces after) :
    pieces.foldl (Piece.depthAfter step) depth = after := by
  induction climbs with
  | nil _ => rfl
  | cons _ _ ih => exact ih

theorem le_of_prefix (climbs : Climbs step low depth pieces after) (begins : written <+: pieces) :
    low ≤ written.foldl (Piece.depthAfter step) depth := by
  induction climbs generalizing written with
  | nil above =>
    cases List.prefix_nil.mp begins
    exact above
  | cons above _ ih =>
    cases written with
    | nil => exact above
    | cons first others =>
      obtain ⟨rfl, others⟩ := List.cons_prefix_cons.mp begins
      exact ih others

theorem line (text : String) : Climbs step depth depth [.line text] depth :=
  .cons (Nat.le_refl _) (.nil (Nat.le_refl _))

/-- A block of statements between its braces, which may go on with other blocks. -/
theorem block {heading : String} (tail : String)
    (inside : Climbs step (depth + step) (depth + step) pieces (depth + step)) :
    Climbs step depth depth (.opening heading :: (pieces ++ [.closing tail])) depth := by
  have closes : Climbs step depth (depth + step) [.closing tail] depth := by
    refine .cons (Nat.le_add_right _ _) ?_
    rw [Piece.depthAfter, Nat.add_sub_cancel]
    exact .nil (Nat.le_refl _)
  exact .cons (Nat.le_refl _) ((inside.mono (Nat.le_add_right _ _)).append closes)

/-- A block that follows another one. -/
theorem next (heading : String)
    (behind : Climbs step (depth + step) (depth + step) rest (depth + step)) :
    Climbs step (depth + step) (depth + step) (.next heading :: rest) (depth + step) := by
  refine .cons (Nat.le_refl _) ?_
  rwa [Piece.depthAfter, Nat.add_sub_cancel]

end Climbs

namespace Java.Stmt

variable {step : Nat}

mutual

/-- A statement ends at the depth where it starts and never goes below. -/
theorem climbs_pieces : (stmt : Stmt) → (depth : Nat) →
    Climbs step depth depth stmt.pieces depth
  | .declare _ _ _, _ | .store _ _, _ | .setField _ _, _ | .eval _, _ | .ret, _ | .print _ _, _
  | .delegate _ _, _ | .break _, _ | .continue _, _ => .line _
  | .labeled _ body, depth => (Climbs.line _).append (climbs_pieces body depth)
  | .block body, depth | .ifThen _ body, depth | .whileLoop _ body, depth | .doLoop body _, depth
  | .forEach _ _ _ body, depth => .block _ (climbs_codePieces body _)
  | .ifElse _ yes no, depth => by
    have inside := (climbs_codePieces yes (depth + step)).append
      (.next "else" (climbs_codePieces no (depth + step)))
    simpa [pieces] using inside.block ""
  | .tryCatch body handlers, depth => by
    have inside := (climbs_codePieces body (depth + step)).append (climbs_handlersPieces handlers depth)
    simpa [pieces] using inside.block ""
  | .tryFinally body cleanup, depth => by
    have inside := (climbs_codePieces body (depth + step)).append
      (.next "finally" (climbs_codePieces cleanup (depth + step)))
    simpa [pieces] using inside.block ""

theorem climbs_codePieces : (code : Code) → (depth : Nat) →
    Climbs step depth depth (codePieces code) depth
  | [], _ => .nil (Nat.le_refl _)
  | stmt :: rest, depth => (climbs_pieces stmt depth).append (climbs_codePieces rest depth)

theorem climbs_handlerPieces : (handler : Handler Code) → (depth : Nat) →
    Climbs step (depth + step) (depth + step) (handlerPieces handler) (depth + step)
  | ⟨_, _, body⟩, depth => .next _ (climbs_codePieces body (depth + step))

theorem climbs_handlersPieces : (handlers : List (Handler Code)) → (depth : Nat) →
    Climbs step (depth + step) (depth + step) (handlersPieces handlers) (depth + step)
  | [], _ => .nil (Nat.le_refl _)
  | handler :: rest, depth =>
    (climbs_handlerPieces handler depth).append (climbs_handlersPieces rest depth)

end

end Java.Stmt

/-! ## Buffers -/

theorem extends_layPiece (b : Text.Buffer) (piece : Piece) : b.Extends (layPiece b piece) := by
  cases piece with
  | line text => exact .putLine b text
  | opening heading => exact .putLine b _
  | next heading => exact .putLine b.dedent _
  | closing tail => exact .putLine b.dedent _

theorem extends_layPieces (pieces : List Piece) (b : Text.Buffer) :
    b.Extends (pieces.foldl layPiece b) := by
  induction pieces generalizing b with
  | nil => exact .refl
  | cons piece rest ih => exact (extends_layPiece b piece).trans (ih (layPiece b piece))

theorem depth_layPiece (b : Text.Buffer) (piece : Piece) :
    (layPiece b piece).depth = piece.depthAfter b.step b.depth := by
  cases piece <;>
    simp [layPiece, Text.Buffer.indent, Text.Buffer.dedent, Text.Buffer.depth_putLine,
      Piece.depthAfter]

theorem depth_layPieces (pieces : List Piece) (b : Text.Buffer) :
    (pieces.foldl layPiece b).depth = pieces.foldl (Piece.depthAfter b.step) b.depth := by
  induction pieces generalizing b with
  | nil => rfl
  | cons piece rest ih =>
    rw [List.foldl_cons, ih, step_layPiece, depth_layPiece]
    rfl

/-- What is laid out by a run never ends above the depth where it starts, and ends there if the run ends
    well. -/
theorem Outcome.Keeps.depth {α : Type} {f : Footprint} {post : α → Prop} {outcome : Outcome α}
    (keeps : outcome.Keeps f post) (b : Text.Buffer) :
    b.depth ≤ (outcome.pieces.foldl layPiece b).depth ∧ ∀ result, outcome.toExcept = .ok result →
      (outcome.pieces.foldl layPiece b).depth = b.depth := by
  rw [depth_layPieces]
  cases outcome with
  | done code result =>
    have level := (Stmt.climbs_codePieces code b.depth : Climbs b.step _ _ _ _).foldl_eq
    exact ⟨Nat.le_of_eq level.symm, fun _ _ => level⟩
  | failed written fault =>
    obtain ⟨code, -, begins⟩ := keeps
    have climbs : Climbs b.step _ _ _ _ := Stmt.climbs_codePieces code b.depth
    exact ⟨climbs.le_of_prefix begins, fun _ ok => nomatch ok⟩

/-! ## Calls -/

/-- What may be asked of the code of a tree. -/
inductive Order where
  | statement (tree : Tree) (dest : Destination)
  | expression (tree : Tree)
  | operand (tree : Tree)
  | ret (value : Option Tree)

namespace Order

/-- The tree, unless nothing is returned. -/
def tree? : Order → Option Tree
  | .statement tree _ | .expression tree | .operand tree => some tree
  | .ret value => value

def lower : Order → Lower Unit
  | .statement tree dest => tree.toStatement dest
  | .expression tree => (fun _ => ()) <$> tree.toExpr
  | .operand tree => (fun _ => ()) <$> tree.toOperand
  | .ret value => Tree.toReturn value

/-- The variables that are assigned outside of every block that declares them. -/
def assigned (order : Order) : List String := order.tree?.elim [] Tree.freeAssigned

theorem stays {f : Footprint} {order : Order} (fits : ∀ tree ∈ order.tree?, tree.Fits f) :
    Stays f order.lower := by
  cases order with
  | statement tree dest => exact (Tree.keeps (fits tree rfl)).statement dest
  | expression tree => exact (Tree.keeps (fits tree rfl)).toExpr.stays _
  | operand tree => exact (Tree.keeps (fits tree rfl)).toOperand.stays _
  | ret value =>
    refine stays_lowerReturn fun part mem => ?_
    obtain ⟨tree, found, rfl⟩ := Option.map_eq_some_iff.mp mem
    exact Tree.keeps (fits tree found)

theorem stays_ofNames (order : Order) : Stays (.ofNames (· ∈ order.assigned)) order.lower := by
  refine stays fun tree mem => Tree.fits_ofNames tree _ fun name found => ?_
  rwa [assigned, Option.mem_def.mp mem]

end Order

/-- A method that code is lowered into, inside of some loops. -/
structure Session where
  draft : ClassDraft
  index : Nat
  loops : List EnclosingLoop

namespace Session

def method? (s : Session) : Option MethodDraft := s.draft.methods[s.index]?

/-- Lower what is asked for. The session goes on also after a fault. -/
def perform (s : Session) (order : Order) : Except Fault Unit × Session :=
  let (result, draft) := s.draft.lower s.index s.loops order.lower
  (result, { s with draft := draft })

theorem perform_of_found {s : Session} {m : MethodDraft} (found : s.method? = some m) (order : Order) :
    s.perform order =
      let run := order.lower (s.draft.context m s.loops) ⟨m.scope, []⟩
      (run.outcome.toExcept, { s with draft := (s.draft.setMethod s.index (({ m with scope :=
        run.progress.scope } : MethodDraft).lay run.outcome.pieces)).useFields run.progress.fields }) := by
  have lowered : s.draft.lower s.index s.loops order.lower = _ :=
    ClassDraft.lower_of_found found s.loops
  unfold perform
  rw [lowered]

theorem method?_perform {s : Session} {m : MethodDraft} (found : s.method? = some m) (order : Order) :
    let run := order.lower (s.draft.context m s.loops) ⟨m.scope, []⟩
    (s.perform order).1 = run.outcome.toExcept ∧ (s.perform order).2.method? =
      some (({ m with scope := run.progress.scope } : MethodDraft).lay run.outcome.pieces) := by
  intro run
  rw [perform_of_found found order]
  refine ⟨rfl, ?_⟩
  show (ClassDraft.useFields _ _).methods[s.index]? = _
  rw [ClassDraft.methods_useFields]
  exact List.getElem?_set_self (List.getElem?_eq_some_iff.mp found).1

end Session

/-- What a call leaves as it was in a method. A variable that is new is assigned outside of the blocks
    that declare it, or it is a temporary of the call. -/
structure MethodDraft.Restored (m : MethodDraft) (assigned : List String) (m' : MethodDraft) :
    Prop where
  kept : ∀ name, m.isLocal name = true → m'.isLocal name = true
  new : ∀ name, m'.isLocal name = true → m.isLocal name = true ∨ name ∈ assigned ∨
    ∃ n, m.scope.temps < n ∧ n ≤ m'.scope.temps ∧ name = tempName n
  temps : m.scope.temps ≤ m'.scope.temps
  labels : m.scope.labels ≤ m'.scope.labels
  text : ∃ more, m'.out.text = m.out.text ++ more
  depth : m.out.depth ≤ m'.out.depth

theorem MethodDraft.Restored.of_reaches {m : MethodDraft} {p : Progress} {names : List String}
    (reaches : Progress.Reaches (.ofNames (· ∈ names)) ⟨m.scope, []⟩ p) {out : Text.Buffer}
    (text : m.out.Extends out) (depth : m.out.depth ≤ out.depth) :
    m.Restored names { m with scope := p.scope, out := out } where
  kept := reaches.kept
  new name known := by
    obtain ⟨type, found⟩ := Option.isSome_iff_exists.mp known
    rcases reaches.new name type found with before | ⟨-, ⟨assigned, -⟩ | temp⟩
    · exact .inl (Option.isSome_iff_exists.mpr ⟨type, before⟩)
    · exact .inr (.inl assigned)
    · exact .inr (.inr temp)
  temps := reaches.temps
  labels := reaches.labels
  text := text
  depth := depth

/-- Lowering leaves the loops, the variables, the supplies of names and the text as they were, whether it
    ends well or in a fault: it adds to them. The depth is that of before if it ends well, and never less.
    The variable of a block is not known behind the block, unless it is assigned outside of it or has the
    name of a temporary that the call took from the supply. -/
theorem perform_restores_but_for_temps {s : Session} {m : MethodDraft} (found : s.method? = some m)
    (order : Order) :
    (s.perform order).2.loops = s.loops ∧
      ∃ m', (s.perform order).2.method? = some m' ∧ m.Restored order.assigned m' ∧
        ((s.perform order).1 = .ok () → m'.out.depth = m.out.depth) := by
  obtain ⟨result, after⟩ := Session.method?_perform found order
  obtain ⟨reaches, laid⟩ := order.stays_ofNames (s.draft.context m s.loops) ⟨m.scope, []⟩
  rw [result, after]
  refine ⟨rfl, _, rfl, ?_⟩
  generalize order.lower (s.draft.context m s.loops) ⟨m.scope, []⟩ = run at reaches laid ⊢
  obtain ⟨deeper, level⟩ := laid.depth m.out
  unfold MethodDraft.lay MethodDraft.write
  split
  · exact ⟨.of_reaches reaches (extends_layPieces _ _) deeper, level ()⟩
  · exact ⟨.of_reaches reaches .refl (Nat.le_refl _), fun _ => rfl⟩

/-- A loop over elements may have a variable with the name of a temporary. The flag of its body takes that
    name first and is known for good, so that the variable is known behind the loop. -/
theorem element_known_behind_loop :
    let step : Tree := .node (.call .implicit "step" [] .void) .void
    let loop : Tree := .node (.forEach ⟨"temp$1", .node (.var "xs") (.array .object), some step, true⟩) .void
    let m : MethodDraft :=
      (MethodDraft.ofSignature ⟨"run", .member, .void, [⟨"xs", .array .object⟩], []⟩ 2).start
    let c : ClassDraft := ⟨"a.mirah", none, "A", .classType .object false, [], [], .ofStep 2, [], [m],
      true, {}⟩
    let s : Session := ⟨c, 0, []⟩
    let order : Order := .statement loop .discard
    s.method? = some m ∧ m.isLocal "temp$1" = false ∧ order.assigned = [] ∧
      (s.perform order).1 = .ok () ∧ ∃ m', (s.perform order).2.method? = some m' ∧
        m.Restored [] m' ∧ m'.out.depth = m.out.depth ∧ m'.isLocal "temp$1" = true := by
  intro step loop m c s order
  have found : s.method? = some m := rfl
  have accepted : (s.perform order).1 = .ok () :=
    ClassDraft.lower_of_wellPlaced found rfl (show loop.wellPlaced none = true from rfl) .discard
  have known : ((s.perform order).2.method?.map (·.isLocal "temp$1")) = some true := by decide +kernel
  obtain ⟨-, m', after, restored, level⟩ := perform_restores_but_for_temps found order
  rw [after] at known
  exact ⟨found, by decide +kernel, rfl, accepted, m', after, restored, level accepted,
    Option.some.inj known⟩

end JavaBackend
