import JavaBackend.Proofs.Jumps.Lowering
import JavaBackend.Proofs.Lowering.Appended
import JavaBackend.Proofs.Meaning.Fragment

/-!
# Lowering preserves meaning

What a tree does, event by event, is what its code does in the method that it is appended to. The code
of a loop runs side by side with the loop, and the code of a value has that value, in whichever of its
forms it is asked for.

The temporaries of the code are named by number, whatever the variables are called that the method has
already. So the code means what the tree means as long as no variable of the tree has the name of one
of the temporaries that are handed out for it (`MethodDraft.KeptApart`). If one has, the code declares
that variable once more (`MethodDraft.Clashes`), which Java refuses.
-/

namespace JavaBackend

open Java (Stmt Code Expr Sink Env Result Exec)
open Lower Meaning

/-- None of the temporaries that were handed out in between has one of the names. -/
def MethodDraft.KeptApart (before after : MethodDraft) (names : List String) : Prop :=
  ∀ name ∈ names, ∀ k, before.scope.temps < k → k ≤ after.scope.temps → name ≠ tempName k

/-- A name that starts with another letter than those of temporaries do is kept apart from them. -/
theorem MethodDraft.keptApart_of_head {before after : MethodDraft} {names : List String}
    (other : ∀ name ∈ names, name.toList.head? ≠ some 't') : before.KeptApart after names := by
  rintro name mem k - - rfl
  exact other _ mem (by rw [tempName, String.toList_append]; rfl)

/-- A temporary that was handed out in between has one of the names, and the code declares it. -/
def MethodDraft.Clashes (before after : MethodDraft) (code : Code) (names : List String) : Prop :=
  ∃ k, before.scope.temps < k ∧ k ≤ after.scope.temps ∧ tempName k ∈ names ∧
    tempName k ∈ Java.declaredIn code

/-- All temporaries that are handed out are declared, so one that is not kept apart clashes. -/
theorem MethodDraft.clashes_of_not_keptApart {α : Type} {lowering : Lower α} {trees : List Tree}
    {ctx : Context} {code : Code} {result : α} {p' : Progress} {before after : MethodDraft}
    {names : List String} (lays : Lays lowering trees)
    (ends : Ends lowering ctx ⟨before.scope, []⟩ code result p') (scope : after.scope = p'.scope)
    (mixed : ¬ before.KeptApart after names) : before.Clashes after code names := by
  simp only [KeptApart, Classical.not_forall, Classical.not_not] at mixed
  obtain ⟨name, known, k, low, high, same⟩ := mixed
  obtain ⟨nest, -, laid⟩ := lays ends
  rw [same] at known
  refine ⟨k, low, high, known, laid.declares k low ?_⟩
  rwa [scope] at high

/-- The code of the method runs in the world, whose variables change as told. -/
structure World.Hosts (w : World) (c : ClassDraft) (m : MethodDraft) (isVolatile : String → Bool) :
    Prop where
  owner : w.owner = c.simpleName
  static : w.isStatic = m.signature.isStatic
  changes : w.isVolatile = isVolatile

/-- Both runs are done, or both would go back once more than they may, after the same events. -/
inductive Alike {α β : Type} : Ending α → Result β → Prop
  | done (value : α) (result : β) (ρ : Env) (h : History) :
    Alike (.done value h) (.done result ρ h)
  | running (h : History) : Alike (.running h) (.running h)

theorem Matches.alike {α β : Type} {good : α → β → Env → Prop} {near : Env → Prop}
    {ending : Ending α} {result : Result β} (agree : Matches [] (Reaches good) near ending result) :
    Alike ending result := by
  rcases agree.cases with ⟨value, h, rfl, b, ρ, rfl, -⟩ | ⟨_, _, _, _, _, _, ⟨⟩, _⟩ | ⟨h, rfl, rfl⟩
  · exact .done value b ρ h
  · exact .running h

variable {w : World} {c : ClassDraft} {index : Nat} {m : MethodDraft} {isVolatile : String → Bool}

theorem World.Hosts.ready {S : Setting} (hosts : S.world.Hosts c m isVolatile)
    (start : S.bot = m.scope.temps) : S.Ready (c.context m []) m.scope.temps Env.empty where
  owner := hosts.owner.symm
  static := hosts.static.symm
  above := Nat.le_of_eq start
  free _ _ := rfl
  names _ _ := rfl
  flag _ mem := nomatch mem

theorem World.Hosts.vocabulary {S : Setting} (hosts : S.world.Hosts c m isVolatile)
    (hasLoops : Bool) : S.vocabulary hasLoops = ⟨S.names, isVolatile, hasLoops⟩ := by
  unfold Setting.vocabulary
  rw [hosts.changes]

/-! ## Control flow -/

/-- Trees with loops, whose variables others may change at any time: each read of one is an event. -/
def Vocabulary.ofOracle (names : List String) : Vocabulary := ⟨names, names.contains, true⟩

/-- The code of a tree with loops and jumps does what the tree does, in any world: the same events in
    the same order, and it goes back as often. -/
theorem code_follows_control_flow (names : List String) {tree : Tree}
    (covered : (Vocabulary.ofOracle names).Covers (.effects false) tree)
    (found : c.methods[index]? = some m) (opened : m.stage = .opened)
    (accepted : (c.lower index [] (tree.toStatement .discard)).1 = .ok ()) :
    ∃ code after, c.Appends index (tree.toStatement .discard) () code m after ∧
      (m.KeptApart after names → ∀ w : World, w.Hosts c m names.contains → ∀ n h,
        Alike (tree.meaning w n h) (Stmt.execCode w n code Env.empty h)) ∧
      (¬ m.KeptApart after names → m.Clashes after code names) := by
  obtain ⟨code, p', ends⟩ := ClassDraft.ends_of_lower found accepted
  obtain ⟨after, appends, scope⟩ := ClassDraft.appends_of_ends found opened ends
  refine ⟨code, after, appends, fun apart w hosts n h => ?_,
    MethodDraft.clashes_of_not_keptApart (tree.lays.statement _) ends scope⟩
  have volatile : ∀ name, w.isVolatile name = true → name ∈ names := by
    intro name changes
    rw [hosts.changes] at changes
    exact List.contains_iff_mem.mp changes
  let S : Setting := ⟨w, n, names, m.scope.temps, after.scope.temps, volatile, apart⟩
  have hostsCode : S.world.Hosts c m names.contains := hosts
  have acts : S.Acts false tree := by
    refine Setting.sound_of_covers (?_ : (S.vocabulary true).Covers (.effects false) tree)
    rw [hostsCode.vocabulary]
    exact covered
  have below : p'.scope.temps ≤ S.top := Nat.le_of_eq (congrArg Scope.temps scope.symm)
  exact ((acts ends).agrees below Env.empty h (hostsCode.ready rfl)).alike

/-- A loop in which a call decides whether the body is run again. -/
theorem redo_loop_follows_oracle :
    let loop : Tree := .node (.loop ⟨.node (.var "more") .boolean, true, false,
      some (.node (.cond (.node (.call .implicit "again" [] .boolean) .boolean)
        (some (.node (.jump .redo) .void)) none) .void), true, none, none, none⟩) .void
    let m : MethodDraft := (MethodDraft.ofSignature
      ⟨"run", .member, .void, [⟨"more", .boolean⟩], []⟩ 2).start
    let c : ClassDraft := ⟨"a.mirah", none, "A", .classType .object false, [], [], .ofStep 2, [], [m],
      true, {}⟩
    (Vocabulary.ofOracle ["more"]).Covers (.effects false) loop ∧ c.methods[0]? = some m ∧
      m.stage = .opened ∧ (c.lower 0 [] (loop.toStatement .discard)).1 = .ok () ∧
      ∃ code after, c.Appends 0 (loop.toStatement .discard) () code m after ∧
        ∀ w : World, w.Hosts c m ["more"].contains → ∀ n h,
          Alike (loop.meaning w n h) (Stmt.execCode w n code Env.empty h) := by
  intro loop m c
  have covered : (Vocabulary.ofOracle ["more"]).Covers (.effects false) loop := by
    refine .loop rfl (.var List.mem_cons_self (.inl rfl)) (by simp) (by simp) (by simp) ?_
    rintro _ ⟨rfl⟩
    refine .cond (.call _ _ (by simp [Receiver.toList]) (by simp)) ?_ (by simp)
    rintro _ ⟨rfl⟩
    exact .jump rfl .redo
  have accepted : (c.lower 0 [] (loop.toStatement .discard)).1 = .ok () := rfl
  obtain ⟨code, after, appends, faithful, -⟩ :=
    code_follows_control_flow ["more"] covered rfl rfl accepted
  refine ⟨covered, rfl, rfl, accepted, code, after, appends, faithful ?_⟩
  exact MethodDraft.keptApart_of_head (by decide)

/-! ## Values -/

/-- Trees without loops, whose variables nobody changes. -/
def Vocabulary.ofConstants (names : List String) : Vocabulary := ⟨names, fun _ => false, false⟩

/-- A setting in which no variable changes. -/
def Setting.ofConstants {names : List String} {after : MethodDraft}
    (hosts : w.Hosts c m fun _ => false) (n : Nat) (apart : m.KeptApart after names) : Setting :=
  ⟨w, n, names, m.scope.temps, after.scope.temps,
    fun name changes => absurd (congrFun hosts.changes name ▸ changes) Bool.false_ne_true, apart⟩

theorem World.Hosts.ofConstants {S : Setting} (hosts : S.world.Hosts c m fun _ => false) {tree : Tree}
    (covered : (Vocabulary.ofConstants S.names).Covers .value tree) :
    S.Evaluates tree ∧ S.Acts false tree ∧ Total (S.meaning tree) := by
  have covers : (S.vocabulary false).Covers .value tree := by
    rw [hosts.vocabulary]
    exact covered
  have unused : (S.vocabulary false).Covers (.effects false) tree := by
    rw [hosts.vocabulary]
    exact covered.unused fun _ => rfl
  exact ⟨Setting.sound_of_covers covers, Setting.sound_of_covers unused, Setting.total_of_covers covers⟩

/-- Code that runs side by side with a meaning that is always done, run from the start. -/
theorem Setting.Simulates.fromStart {S : Setting} {hi : Nat} {α β : Type} {meaning : Meaning α}
    {code : Exec β} {Done : Env → α → History → Result β → Prop}
    (simulates : S.Simulates (c.context m []) m.scope.temps hi [] meaning code Done)
    (hosts : S.world.Hosts c m isVolatile) (start : S.bot = m.scope.temps) (stop : hi = S.top)
    (total : Total meaning) (h : History) :
    ∃ value h', meaning h = .done value h' ∧ Done Env.empty value h' (code Env.empty h) := by
  obtain ⟨value, h', done⟩ := total h
  have agree := simulates.agrees (Nat.le_of_eq stop) Env.empty h (hosts.ready start)
  rw [done] at agree
  exact ⟨value, h', done, agree⟩

theorem Java.Exec.deliver_of_none {sink : Sink} {ρ : Env}
    (unknown : ∀ name, sink = .into name → ρ name = none) (value : Value) (h : History) :
    Exec.deliver w sink value ρ h =
      (Exec.deliver w sink value Env.empty h).mapEnv fun _ => ρ := by
  cases sink with
  | into name =>
    simp only [Exec.deliver, unknown name rfl, Env.empty]
    split <;> rfl
  | result | thrown | lead _ => rfl

/-- The code of a tree without loops does what the tree does, in any world, and has its value: as an
    expression after some statements, as statements that put it somewhere, or as statements that do
    not use it. -/
theorem code_has_value (names : List String) {tree : Tree}
    (covered : (Vocabulary.ofConstants names).Covers .value tree)
    (found : c.methods[index]? = some m) (opened : m.stage = .opened) :
    (∃ expr code after, c.Appends index tree.toExpr expr code m after ∧
      (m.KeptApart after names → ∀ w : World, w.Hosts c m (fun _ => false) → ∀ n h,
        ∃ value h' ρ, tree.meaning w n h = .done value h' ∧
          (do Stmt.execCode w n code; expr.eval w) Env.empty h = .done value ρ h') ∧
      (¬ m.KeptApart after names → m.Clashes after code names)) ∧
    (∀ sink, (∀ name, sink = .into name → name ∈ names) →
      ∃ code after, c.Appends index (tree.toStatement (.store sink)) () code m after ∧
        (m.KeptApart after names → ∀ w : World, w.Hosts c m (fun _ => false) → ∀ n h,
          ∃ value h' ρ, tree.meaning w n h = .done value h' ∧
            Stmt.execCode w n code Env.empty h =
              (Exec.deliver w sink value Env.empty h').mapEnv fun _ => ρ) ∧
        (¬ m.KeptApart after names → m.Clashes after code names)) ∧
    ∃ code after, c.Appends index (tree.toStatement .discard) () code m after ∧
      (m.KeptApart after names → ∀ w : World, w.Hosts c m (fun _ => false) → ∀ n h,
        ∃ value h' ρ, tree.meaning w n h = .done value h' ∧
          Stmt.execCode w n code Env.empty h = .done () ρ h') ∧
      (¬ m.KeptApart after names → m.Clashes after code names) := by
  have fits := tree.fits (c.context m [])
  have placed : tree.part.Placed (c.context m []) := covered.wellPlaced rfl _
  refine ⟨?_, fun sink known => ?_, ?_⟩
  · obtain ⟨code, expr, p', ends⟩ := (tree.accepts_toExpr _).ends placed ⟨m.scope, []⟩
    obtain ⟨after, appends, scope⟩ := ClassDraft.appends_of_ends found opened ends
    refine ⟨expr, code, after, appends, fun apart w hosts n h => ?_,
      MethodDraft.clashes_of_not_keptApart tree.lays.toExpr ends scope⟩
    let S : Setting := .ofConstants hosts n apart
    obtain ⟨evaluates, -, total⟩ := World.Hosts.ofConstants (S := S) hosts covered
    obtain ⟨value, h', done, _, ρ, reached, rfl, -⟩ := (evaluates.toExpr ends).fromStart hosts rfl
      (congrArg Scope.temps scope.symm) total h
    exact ⟨_, h', ρ, done, reached⟩
  · obtain ⟨code, _, p', ends⟩ := (fits.statement (.store sink)).ends placed ⟨m.scope, []⟩
    obtain ⟨after, appends, scope⟩ := ClassDraft.appends_of_ends found opened ends
    refine ⟨code, after, appends, fun apart w hosts n h => ?_,
      MethodDraft.clashes_of_not_keptApart (tree.lays.statement _) ends scope⟩
    let S : Setting := .ofConstants hosts n apart
    obtain ⟨evaluates, -, total⟩ := World.Hosts.ofConstants (S := S) hosts covered
    have outer : S.Outer m.scope.temps sink := by
      cases sink with
      | into name => exact .inl (known name rfl)
      | result | thrown | lead _ => trivial
    obtain ⟨value, h', done, ρ, frame, delivered⟩ := (evaluates.store outer ends).fromStart hosts rfl
      (congrArg Scope.temps scope.symm) total h
    refine ⟨value, h', ρ, done, delivered.trans ?_⟩
    refine Exec.deliver_of_none (fun name same => frame name fun k low high => ?_) value h'
    rw [← scope] at high
    exact apart name (known name same) k low high
  · obtain ⟨code, _, p', ends⟩ := (fits.statement .discard).ends placed ⟨m.scope, []⟩
    obtain ⟨after, appends, scope⟩ := ClassDraft.appends_of_ends found opened ends
    refine ⟨code, after, appends, fun apart w hosts n h => ?_,
      MethodDraft.clashes_of_not_keptApart (tree.lays.statement _) ends scope⟩
    let S : Setting := .ofConstants hosts n apart
    obtain ⟨-, acts, total⟩ := World.Hosts.ofConstants (S := S) hosts covered
    obtain ⟨value, h', done, _, ρ, reached, -⟩ := (acts ends).fromStart hosts rfl
      (congrArg Scope.temps scope.symm) total h
    exact ⟨value, h', ρ, done, reached⟩

/-- An argument that needs statements is evaluated before the next one. -/
theorem spilled_arguments_in_order :
    let log : Tree := .node (.call .implicit "log" [] .void) .void
    let call : Tree := .node (.call .implicit "f"
      [.node (.seq [log, .node (.var "x") .int]) .int, .node (.var "y") .int] .int) .int
    let m : MethodDraft := (MethodDraft.ofSignature
      ⟨"run", .member, .void, [⟨"x", .int⟩, ⟨"y", .int⟩], []⟩ 2).start
    let c : ClassDraft := ⟨"a.mirah", none, "A", .classType .object false, [], [], .ofStep 2, [], [m],
      true, {}⟩
    (Vocabulary.ofConstants ["x", "y"]).Covers .value call ∧ c.methods[0]? = some m ∧
      m.stage = .opened ∧
      ∃ expr code after, c.Appends 0 call.toExpr expr code m after ∧
        ∀ w : World, w.Hosts c m (fun _ => false) → ∀ n h,
          ∃ value h' ρ, call.meaning w n h = .done value h' ∧
            (do Stmt.execCode w n code; expr.eval w) Env.empty h = .done value ρ h' := by
  intro log call m c
  have covered : (Vocabulary.ofConstants ["x", "y"]).Covers .value call := by
    refine .call _ _ ?_ (by simp)
    refine List.forall_mem_cons.mpr ⟨?_, List.forall_mem_singleton.mpr ?_⟩
    · refine .seq (.call _ _ (by simp [Receiver.toList]) (by simp)) (.last ?_)
      exact .var (by decide) (.inl rfl)
    · exact .var (by decide) (.inl rfl)
  obtain ⟨⟨expr, code, after, appends, faithful, -⟩, -⟩ :=
    code_has_value ["x", "y"] covered (show c.methods[0]? = some m from rfl) rfl
  refine ⟨covered, rfl, rfl, expr, code, after, appends, faithful ?_⟩
  exact MethodDraft.keptApart_of_head (by decide)

end JavaBackend
