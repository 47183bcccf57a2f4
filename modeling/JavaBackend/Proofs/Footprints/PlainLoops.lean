import JavaBackend.Proofs.Effects.Known
import JavaBackend.Proofs.Footprints.Restored
import JavaBackend.Proofs.Lowering.Silence

/-!
# Loops without labels

Whether a loop needs labels is decided in front of its `init`, and its condition is written behind it,
with more variables known by then. That is sound, since a tree that is an expression is one among more
variables, too (`Tree.isExpression_mono`), and no variable is forgotten on the way: the condition of a
loop without labels is written in place, and the loop takes no name.
-/

namespace JavaBackend

open Java (Stmt Code Piece Expr Test)
open Lower

/-! ## Runs -/

/-- Statements for the effects of a tree that may be missing. -/
def Tree.toEffects (tree : Option Tree) : Lower Unit := lowerEffects (tree.map Tree.part)

variable {ctx : Context} {p q q' : Progress} {code : Code} {spec : Loop Tree}

/-- No variable is forgotten behind statements. -/
theorem Tree.isLocal_of_toEffects {tree : Option Tree} (ends : Ends (toEffects tree) ctx p code () q)
    {name : String} (known : p.scope.isLocal name = true) : q.scope.isLocal name = true := by
  have stays : Stays (.ofNames fun _ => True) (toEffects tree) := by
    refine stays_lowerEffects fun part mem => ?_
    obtain ⟨tree, -, rfl⟩ := Option.map_eq_some_iff.mp mem
    exact Tree.keeps (tree.fits_ofNames _ fun _ _ => trivial)
  have reaches := (stays ctx p).1
  rw [show toEffects tree ctx p = _ from ends] at reaches
  exact reaches.kept name known

/-- What a fault leaves behind stands behind the code in front of it. -/
theorem Lower.bind_apply_of_ends_failed {α β : Type} {m : Lower α} {f : α → Lower β} {a : α}
    {written : List Piece} {fault : Fault} (ends : Ends m ctx p code a q)
    (fails : f a ctx q = ⟨.failed written fault, q'⟩) :
    (m >>= f) ctx p = ⟨.failed (Stmt.codePieces code ++ written) fault, q'⟩ := by
  show Lower.bind m f ctx p = _
  unfold Ends at ends
  simp only [Lower.bind, ends, fails]

namespace Loop

/-- The loop is lowered without labels, if `isLocal` are the variables in front of it. -/
structure IsPlain (spec : Loop Tree) (isLocal : String → Bool) : Prop where
  redo : spec.redo = false
  post : spec.post = none
  cond : spec.cond.isExpression isLocal = true

/-- The condition of the loop, written in place. -/
def plainTest (spec : Loop Tree) (ctx : Context) : Test := ⟨spec.cond.expr ctx, spec.negative⟩

/-- What is run in each pass of a loop without labels. -/
def toPass (spec : Loop Tree) : Lower Unit := do
  Tree.toEffects spec.pre
  Tree.toEffects spec.body

/-- What a loop without labels is around. -/
def plainContext (ctx : Context) : Context := ctx.enter ⟨.plainWhile, none, none⟩

/-- The condition is decided on in front of `init` and is written behind it: also there it is an
    expression, and to write it lays out nothing and leaves all variables and supplies as they are. -/
theorem IsPlain.ends_cond (plain : spec.IsPlain p.scope.isLocal)
    (init : Ends (Tree.toEffects spec.init) ctx p code () q) :
    Ends spec.cond.toInline ctx q [] (spec.cond.expr ctx) (q.useFields spec.cond.fieldReads) :=
  Tree.ends_toInline (Tree.isExpression_mono (fun _ => Tree.isLocal_of_toEffects init) plain.cond)

/-- What is left of a loop without labels once its condition is written. -/
theorem lowerPlainLoop_apply
    (cond : Ends spec.cond.toInline ctx p [] (spec.cond.expr ctx) q) :
    lowerPlainLoop (spec.map Tree.part) ctx p =
      (block [loopOpening spec.checkFirst (spec.plainTest ctx)]
          (inLoop ⟨.plainWhile, none, none⟩ spec.toPass) >>=
        fun pass => emit (loopStmt spec.checkFirst (spec.plainTest ctx) pass)) ctx q :=
  bind_apply_of_ends_nil cond _

theorem refuseRedo_map (body : Option Tree) (form : LoopForm) :
    refuseRedo (body.map Tree.part) form =
      if body.any Tree.hasRedo then fail (.redoUnsupported form) else pure () := by
  cases body <;> rfl

/-- Statements for the loop, whatever becomes of its value. -/
def toStatements (spec : Loop Tree) : Lower Unit := lowerLoop (spec.map Tree.part)

/-- The run of a loop without labels: its body is searched for a `redo`, then come `init` and the loop. -/
theorem IsPlain.toStatements_apply (plain : spec.IsPlain p.scope.isLocal) :
    spec.toStatements ctx p =
      if spec.body.any Tree.hasRedo then (fail (.redoUnsupported .plainWhile) : Lower Unit) ctx p
      else (Tree.toEffects spec.init >>= fun _ => lowerPlainLoop (spec.map Tree.part)) ctx p := by
  have unlabeled : (spec.map Tree.part).isLabeled p.scope.isLocal = false := by
    show (spec.redo || (spec.post.map Tree.part).isSome || !spec.cond.isExpression p.scope.isLocal) = false
    rw [plain.redo, plain.post, plain.cond]
    rfl
  have checked : (spec.map Tree.part).redo = false := plain.redo
  rw [toStatements, lowerLoop_apply, unlabeled, checked]
  show (refuseRedo (spec.body.map Tree.part) .plainWhile >>= fun _ =>
    Tree.toEffects spec.init >>= fun _ => lowerPlainLoop (spec.map Tree.part)) ctx p = _
  rw [refuseRedo_map]
  split
  · rfl
  · rw [pure_bind]

theorem IsPlain.toStatements_of_clear (plain : spec.IsPlain p.scope.isLocal)
    (clear : spec.body.any Tree.hasRedo = false) :
    spec.toStatements ctx p =
      (Tree.toEffects spec.init >>= fun _ => lowerPlainLoop (spec.map Tree.part)) ctx p :=
  plain.toStatements_apply.trans (if_neg (Bool.eq_false_iff.mp clear))

/-- A fault inside leaves the opened loop behind the code of `init`. -/
theorem IsPlain.toStatements_of_failed {written : List Piece} {fault : Fault}
    (plain : spec.IsPlain p.scope.isLocal) (clear : spec.body.any Tree.hasRedo = false)
    (init : Ends (Tree.toEffects spec.init) ctx p code () q)
    (fails : spec.toPass (plainContext ctx) (q.useFields spec.cond.fieldReads) =
      ⟨.failed written fault, q'⟩) :
    spec.toStatements ctx p =
      ⟨.failed (Stmt.codePieces code ++ loopOpening spec.checkFirst (spec.plainTest ctx) :: written) fault,
        q'⟩ := by
  have entered : block [loopOpening spec.checkFirst (spec.plainTest ctx)]
      (inLoop ⟨.plainWhile, none, none⟩ spec.toPass) ctx (q.useFields spec.cond.fieldReads) =
        ⟨.failed (loopOpening spec.checkFirst (spec.plainTest ctx) :: written) fault, q'⟩ := by
    unfold block
    rw [show inLoop ⟨.plainWhile, none, none⟩ spec.toPass ctx _ = _ from fails]
    rfl
  have looped : lowerPlainLoop (spec.map Tree.part) ctx q =
      ⟨.failed (loopOpening spec.checkFirst (spec.plainTest ctx) :: written) fault, q'⟩ := by
    rw [lowerPlainLoop_apply (plain.ends_cond init)]
    exact bind_apply_of_failed entered _
  exact (plain.toStatements_of_clear clear).trans (bind_apply_of_ends_failed init looped)

/-- A loop without labels is laid out behind the code of `init`. -/
theorem IsPlain.ends_toStatements {pass : Code} (plain : spec.IsPlain p.scope.isLocal)
    (clear : spec.body.any Tree.hasRedo = false)
    (init : Ends (Tree.toEffects spec.init) ctx p code () q)
    (passed : Ends spec.toPass (plainContext ctx) (q.useFields spec.cond.fieldReads) pass () q') :
    Ends spec.toStatements ctx p
      (code ++ [loopStmt spec.checkFirst (spec.plainTest ctx) pass]) () q' := by
  have looped : Ends (lowerPlainLoop (spec.map Tree.part)) ctx q
      [loopStmt spec.checkFirst (spec.plainTest ctx) pass] () q' := by
    unfold Ends
    rw [lowerPlainLoop_apply (plain.ends_cond init)]
    refine ends_blockBind.mpr ⟨pass, q', ?_, ends_emit.mpr ⟨rfl, rfl⟩⟩
    exact ends_inLoop.mpr passed
  exact (plain.toStatements_of_clear clear).trans (ends_bind.mpr ⟨code, (), q, _, init, looped, rfl⟩)

/-- As a node, the loop has the value `null`. -/
theorem toStatement_node (spec : Loop Tree) (type : JavaType) (dest : Destination) :
    (Tree.node (.loop spec) type).toStatement dest =
      spec.toStatements >>= fun _ => putValue dest (.literal .null) :=
  Tree.toStatement_node (.loop spec) type dest

/-! ## Text -/

/-- The line that opens a loop without labels. -/
def heading (spec : Loop Tree) (ctx : Context) : String :=
  if spec.checkFirst then "while (" ++ (spec.plainTest ctx).text ++ ") \x7b" else "do \x7b"

/-- The line that closes a loop without labels. -/
def ending (spec : Loop Tree) (ctx : Context) : String :=
  if spec.checkFirst then "\x7d" else "\x7d while (" ++ (spec.plainTest ctx).text ++ ");"

end Loop

/-- Lay out code. -/
def layCode (out : Text.Buffer) (code : Code) : Text.Buffer := (Stmt.codePieces code).foldl layPiece out

theorem depth_layCode (out : Text.Buffer) (code : Code) : (layCode out code).depth = out.depth := by
  rw [layCode, depth_layPieces]
  exact (Stmt.climbs_codePieces code out.depth : Climbs out.step _ _ _ _).foldl_eq

theorem layCode_append (out : Text.Buffer) (first second : Code) :
    layCode out (first ++ second) = layCode (layCode out first) second := by
  rw [layCode, Stmt.codePieces_append, List.foldl_append]
  rfl

theorem step_layCode (out : Text.Buffer) (code : Code) : (layCode out code).step = out.step :=
  Text.Buffer.foldl_keeps Text.Buffer.step step_layPiece _ _

/-- Text with some code, a line that opens a block, the block's code one level deeper, and a line that
    closes the block. -/
structure LaidAround (heading ending : String) (front inside : Code) (out out' : Text.Buffer) : Prop where
  text : out' = (layCode ((layCode out front).putLine heading).indent inside).dedent.putLine ending
  headingDepth : (layCode out front).depth = out.depth
  insideDepth : ((layCode out front).putLine heading).indent.depth = out.depth + out.step
  endingDepth : (layCode ((layCode out front).putLine heading).indent inside).dedent.depth = out.depth

theorem laidAround (heading ending : String) (front inside : Code) (out : Text.Buffer) :
    LaidAround heading ending front inside out
      ((layCode ((layCode out front).putLine heading).indent inside).dedent.putLine ending) := by
  have step : ((layCode out front).putLine heading).step = out.step := by
    rw [Text.Buffer.step_putLine, step_layCode]
  have depth : ((layCode out front).putLine heading).depth = out.depth := by
    rw [Text.Buffer.depth_putLine, depth_layCode]
  have deeper : ((layCode out front).putLine heading).indent.depth = out.depth + out.step := by
    rw [← step, ← depth]
    rfl
  refine ⟨rfl, depth_layCode out front, deeper, ?_⟩
  show (layCode _ inside).depth - (layCode _ inside).step = out.depth
  rw [depth_layCode, step_layCode, deeper]
  show out.depth + out.step - ((layCode out front).putLine heading).step = out.depth
  rw [step, Nat.add_sub_cancel]

/-- How a statement with one block is laid out. -/
theorem layCode_block {stmt : Stmt} {opening tail : String} {inside : Code}
    (pieces : stmt.pieces = .opening opening :: (Stmt.codePieces inside ++ [.closing tail]))
    (headed : opening.isEmpty = false) (out : Text.Buffer) :
    layCode out [stmt] =
      (layCode (out.putLine (opening ++ " \x7b")).indent inside).dedent.putLine ("\x7d" ++ tail) := by
  have single : Stmt.codePieces [stmt] = stmt.pieces := List.append_nil _
  rw [layCode, single, pieces, List.foldl_cons, List.foldl_append, layPiece, headed]
  rfl

/-- How a loop without labels is laid out. -/
theorem Loop.layCode_loopStmt (spec : Loop Tree) (ctx : Context) (out : Text.Buffer) (inside : Code) :
    layCode out [loopStmt spec.checkFirst (spec.plainTest ctx) inside] =
      (layCode (out.putLine (spec.heading ctx)).indent inside).dedent.putLine (spec.ending ctx) := by
  unfold loopStmt heading ending
  split
  · have heading : Java.whileHeading (spec.plainTest ctx) ++ " \x7b" =
        "while (" ++ (spec.plainTest ctx).text ++ ") \x7b" := by
      rw [Java.whileHeading, String.append_assoc]
      rfl
    rw [layCode_block rfl (by simp [Java.whileHeading]), heading]
    rfl
  · rw [layCode_block rfl rfl]
    have ending : "\x7d" ++ Java.doTail (spec.plainTest ctx) =
        "\x7d while (" ++ (spec.plainTest ctx).text ++ ");" := by
      rw [Java.doTail, ← String.append_assoc, ← String.append_assoc]
      rfl
    rw [ending]
    rfl

/-- A tree that is an expression is one among more variables, too. So a loop that needs no labels by the
    look of it in front of its `init` needs none behind: the condition is written in place, which lays out
    nothing and moves neither variables nor supplies of names. The text of the loop is that of `init`, a
    line that opens the loop, the pass one level deeper and a line that closes it, with the loop's value
    `null` behind it where it is wanted, and names are taken for `init` and the pass only. -/
theorem plain_loops_stay_plain :
    (∀ (tree : Tree) (fewer more : String → Bool), (∀ name, fewer name = true → more name = true) →
      tree.isExpression fewer = true → tree.isExpression more = true) ∧
    ∀ (c : ClassDraft) (index : Nat) (m : MethodDraft) (loops : List EnclosingLoop) (spec : Loop Tree)
      (type : JavaType) (dest : Destination), c.methods[index]? = some m → spec.IsPlain m.scope.isLocal →
      let ctx := c.context m loops
      let start : Progress := ⟨m.scope, []⟩
      let loop := (Tree.node (.loop spec) type).toStatement dest
      (spec.body.any Tree.hasRedo = true →
        c.lower index loops loop = (.error (.redoUnsupported .plainWhile), c)) ∧
      (spec.body.any Tree.hasRedo = false →
        (∀ written fault q, Tree.toEffects spec.init ctx start = ⟨.failed written fault, q⟩ →
          loop ctx start = ⟨.failed written fault, q⟩) ∧
        ∀ front q, Ends (Tree.toEffects spec.init) ctx start front () q →
          ∃ q₁, Ends spec.cond.toInline ctx q [] (spec.plainTest ctx).expr q₁ ∧ q₁.scope = q.scope ∧
            (∀ written fault q', spec.toPass (Loop.plainContext ctx) q₁ = ⟨.failed written fault, q'⟩ →
              loop ctx start = ⟨.failed (Stmt.codePieces front ++
                loopOpening spec.checkFirst (spec.plainTest ctx) :: written) fault, q'⟩) ∧
            ∀ pre q₂ body q₃, Ends (Tree.toEffects spec.pre) (Loop.plainContext ctx) q₁ pre () q₂ →
              Ends (Tree.toEffects spec.body) (Loop.plainContext ctx) q₂ body () q₃ →
              Ends loop ctx start
                (front ++ [loopStmt spec.checkFirst (spec.plainTest ctx) (pre ++ body)] ++
                  dest.put (.literal .null)) () q₃ ∧
              (m.stage = .opened → (c.lower index loops loop).1 = .ok () ∧
                ∃ out, LaidAround (spec.heading ctx) (spec.ending ctx) front (pre ++ body) m.out out ∧
                  (c.lower index loops loop).2.methods[index]? =
                    some { m with scope := q₃.scope, out := layCode out (dest.put (.literal .null)) })) := by
  refine ⟨fun tree fewer more known => Tree.isExpression_mono known, ?_⟩
  intro c index m loops spec type dest found plain ctx start loop
  have plain : spec.IsPlain start.scope.isLocal := plain
  have failed {written fault q} (fails : spec.toStatements ctx start = ⟨.failed written fault, q⟩) :
      loop ctx start = ⟨.failed written fault, q⟩ :=
    (congrFun (congrFun (spec.toStatement_node type dest) ctx) start).trans (bind_apply_of_failed fails _)
  refine ⟨fun refused => ?_, fun clear => ⟨fun written fault q fails => ?_, fun front q init => ?_⟩⟩
  · have run := failed (plain.toStatements_apply.trans (if_pos refused))
    exact ClassDraft.lower_of_unmoved found run rfl rfl
  · exact failed ((plain.toStatements_of_clear clear).trans (bind_apply_of_failed fails _))
  · refine ⟨_, plain.ends_cond init, Progress.scope_useFields _ _, fun written fault q' fails => ?_,
      fun pre q₂ body q₃ opened passed => ?_⟩
    · exact failed (plain.toStatements_of_failed clear init fails)
    · have pass : Ends spec.toPass (Loop.plainContext ctx) _ (pre ++ body) () q₃ :=
        ends_bind.mpr ⟨pre, (), q₂, body, opened, passed, rfl⟩
      have put : Ends (putValue dest (.literal .null)) ctx q₃ (dest.put (.literal .null)) () q₃ := by
        cases dest <;> rfl
      have ends : Ends loop ctx start _ () q₃ :=
        (congrFun (congrFun (spec.toStatement_node type dest) ctx) start).trans
          (ends_bind.mpr ⟨_, (), q₃, _, plain.ends_toStatements clear init pass, put, rfl⟩)
      refine ⟨ends, fun isOpen => ?_⟩
      obtain ⟨ok, left⟩ := ClassDraft.lower_of_ends found isOpen ends
      refine ⟨ok, _, laidAround (spec.heading ctx) (spec.ending ctx) front (pre ++ body) m.out, ?_⟩
      rw [← spec.layCode_loopStmt, ← layCode_append, ← layCode_append, ← List.append_assoc]
      exact left

/-- A loop whose `init` declares a variable and a temporary, and whose condition assigns a variable. -/
def drainLoop : Loop Tree where
  cond := .node (.isNull (.node (.assign "x" (.node (.call .implicit "next" [] .object) .object)) .object))
    .boolean
  checkFirst := false
  negative := true
  body := some (.node (.jump .next) .void)
  redo := false
  init := some (.node (.assign "i" (.node (.seq [.node (.call .implicit "log" [] .void) .void,
    .node (.literal (.int 0)) .int]) .int)) .int)
  pre := some (.node (.call .implicit "step" [] .void) .void)
  post := none

/-- The condition is written in place behind `init`, and the loop has no label. -/
theorem drainLoop_stays_plain :
    let m : MethodDraft := (MethodDraft.ofSignature ⟨"run", .member, .void, [⟨"x", .object⟩], []⟩ 2).start
    let c : ClassDraft := ⟨"a.mirah", none, "A", .classType .object false, [], [], .ofStep 2, [], [m],
      true, {}⟩
    let ctx := c.context m []
    let lowered := c.lower 0 [] ((Tree.node (.loop drainLoop) .object).toStatement .discard)
    c.methods[0]? = some m ∧ m.stage = .opened ∧ drainLoop.IsPlain m.scope.isLocal ∧
      drainLoop.body.any Tree.hasRedo = false ∧ ∃ front q q₁ pre q₂ body q₃ out,
        Ends (Tree.toEffects drainLoop.init) ctx ⟨m.scope, []⟩ front () q ∧
        Ends drainLoop.cond.toInline ctx q [] (drainLoop.plainTest ctx).expr q₁ ∧ q₁.scope = q.scope ∧
        Ends (Tree.toEffects drainLoop.pre) (Loop.plainContext ctx) q₁ pre () q₂ ∧
        Ends (Tree.toEffects drainLoop.body) (Loop.plainContext ctx) q₂ body () q₃ ∧
        lowered.1 = .ok () ∧
        LaidAround (drainLoop.heading ctx) (drainLoop.ending ctx) front (pre ++ body) m.out out ∧
        lowered.2.methods[0]? = some { m with scope := q₃.scope, out := layCode out [] } ∧
        lowered.2.methods[0]?.map (fun m => (m.out.text, m.scope.labels)) = some (m.out.text ++
          "  int temp$1 = 0;\n  this.log();\n  temp$1 = 0;\n  int i = temp$1;\n" ++
          "  do \x7b\n    this.step();\n    continue;\n  \x7d while (!((x = this.next()) == null));\n", 0) := by
  intro m c ctx lowered
  have plain : drainLoop.IsPlain m.scope.isLocal := ⟨rfl, rfl, rfl⟩
  have clear : drainLoop.body.any Tree.hasRedo = false := rfl
  have effects {part : Option Tree} (tree : Tree) (found : part = some tree) (ctx : Context)
      (p : Progress) (placed : tree.part.Placed ctx) :
      ∃ code q, Ends (Tree.toEffects part) ctx p code () q := by
    subst found
    obtain ⟨code, ⟨⟩, q, ends⟩ := ((tree.fits ctx).statement .discard).ends placed p
    exact ⟨code, q, ends⟩
  obtain ⟨-, run⟩ := plain_loops_stay_plain.2 c 0 m [] drainLoop .object .discard rfl plain
  obtain ⟨front, q, init⟩ := effects _ (rfl : drainLoop.init = _) ctx ⟨m.scope, []⟩ rfl
  obtain ⟨q₁, cond, unmoved, -, ends⟩ := (run clear).2 front q init
  obtain ⟨pre, q₂, opened⟩ := effects _ (rfl : drainLoop.pre = _) (Loop.plainContext ctx) q₁ rfl
  obtain ⟨body, q₃, passed⟩ := effects _ (rfl : drainLoop.body = _) (Loop.plainContext ctx) q₂ rfl
  obtain ⟨ok, out, laid, left⟩ := (ends pre q₂ body q₃ opened passed).2 rfl
  exact ⟨rfl, rfl, plain, clear, front, q, q₁, pre, q₂, body, q₃, out, init, cond, unmoved, opened, passed,
    ok, laid, left, by decide +kernel⟩

end JavaBackend
