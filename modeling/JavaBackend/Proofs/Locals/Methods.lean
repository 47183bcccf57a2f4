import JavaBackend.Proofs.Locals.Lowering
import JavaBackend.Proofs.Unit.Bodies
import JavaBackend.Proofs.Unit.Independence

/-!
# The scope of variables in compiled methods

The methods of a compiled unit, in the order of their declarations, assign only to variables that are
in scope if and only if the walk through the declared method says so
(`assignments_in_scope_iff_walk`). A variable that is first assigned to in a block is known behind the
block, too, but declared in it: a later assignment is out of scope. A method whose assigned names are
all parameters, or listed to be declared at the start, has no such assignment.
-/

namespace JavaBackend

open Java (Stmt Code Piece Expr)
open Java.Stmt
open Lower

/-! ## Methods -/

/-- The declaration of a variable that is listed at the start of a method. -/
def Walk.declare (name : String) : Walk := fun names =>
  if names.isKnown name then (names, true) else (⟨name :: names.known, name :: names.visible⟩, true)

namespace MethodDecl

/-- Going through a method. -/
def walk (decl : MethodDecl) : Walk :=
  (Walk.each Tree.walk decl.delegateArgs).andThen
    ((Walk.each (fun param => .declare param.name) decl.locals).andThen
      (Walk.each Tree.walk decl.body.toList))

/-- The names that a method starts with. -/
def startNames (decl : MethodDecl) : Names :=
  ⟨decl.params.map Param.name, decl.params.map Param.name⟩

/-- Every variable that the method assigns to is visible there. -/
def inScope (decl : MethodDecl) : Bool := (decl.walk decl.startNames).2

end MethodDecl

section

variable {ctx : Context} {p p' : Progress} {code : Code} {visible : List String} {names : Names}
  {decl : MethodDecl}

theorem MethodDecl.stands_startNames (decl : MethodDecl) :
    decl.startNames.Stands ⟨.ofParams decl.params, []⟩ (decl.params.map Param.name) where
  known name _ := by
    rw [Scope.isLocal_ofParams, Bool.eq_iff_iff]
    simp [startNames, Names.isKnown]
  visible _ _ := Iff.rfl

theorem Declares.inStep {locals : List Param} (declares : Declares locals p code p')
    (own : ∀ param ∈ locals, isOwn param.name = true) (stands : names.Stands p visible) :
    InStep p visible code .done p' (Walk.each (fun param => .declare param.name) locals names) := by
  induction declares generalizing names visible with
  | nil => exact .done stands
  | @known param rest p _ _ known _ ih =>
    obtain ⟨first, others⟩ := List.forall_mem_cons.mp own
    have found : names.isKnown param.name = true := (stands.known _ first).trans known
    have skipped : Walk.each (fun param => .declare param.name) (param :: rest) names =
        Walk.each (fun param => .declare param.name) rest names := by
      simp [Walk.each, Walk.andThen, Walk.declare, found]
    rw [skipped]
    exact ih others stands
  | @new param rest p _ _ scope reserved _ ih =>
    obtain ⟨first, others⟩ := List.forall_mem_cons.mp own
    have unknown : names.isKnown param.name = false :=
      (stands.known _ first).trans (Scope.unknown_of_reserve? reserved)
    have declared : InStep p visible
        [.declare param.type param.name (.literal param.type.defaultValue)] _ _ _ :=
      .declare stands reserved _
    have all := declared.andThen (ih others declared.behind)
    simpa [Walk.each, Walk.andThen, Walk.declare, unknown] using all

theorem Delegates.inStep {kind : MethodKind} (delegates : Delegates ctx p kind code p')
    (around : OverAll Word.Hidden ctx.words) (named : decl.kind = kind) (own : decl.Over Word.Own)
    (stands : names.Stands p visible) :
    InStep p visible code .done p' (Walk.each Tree.walk decl.delegateArgs names) := by
  cases delegates with
  | none plain =>
    have none : decl.delegateArgs = [] := by
      unfold MethodDecl.delegateArgs
      split
      · next delegate same => exact absurd (named.symm.trans same) (plain delegate)
      · rfl
    rw [none]
    exact .done stands
  | @call delegate _ _ _ operands =>
    have args : decl.delegateArgs = delegate.args := by
      unfold MethodDecl.delegateArgs
      rw [named]
    have front := operands.inStep around (args ▸ own.delegate) trivial stands
    rw [args]
    exact front.useStmt rfl rfl

theorem MethodDecl.walk_task (decl : MethodDecl) :
    decl.task.walk = Walk.each Tree.walk decl.body.toList := by
  unfold MethodDecl.task
  cases decl.body with
  | none => rfl
  | some tree =>
    dsimp only
    rw [Option.toList_some, Walk.each_singleton]
    split
    · rfl
    · rw [Task.walk, Tree.walk_node]
      exact Walk.each_singleton _ _

theorem MethodDecl.ready_task (decl : MethodDecl) (isLocal : String → Bool) :
    decl.task.Ready isLocal ∧ ∀ visible, decl.task.around visible = visible := by
  unfold MethodDecl.task
  cases decl.body with
  | none => exact ⟨trivial, fun _ => rfl⟩
  | some tree => dsimp only; split <;> exact ⟨trivial, fun _ => rfl⟩

/-- The code of a method assigns only to visible variables if and only if the walk through the method
    says so. -/
theorem MethodDecl.inStep (ends : Ends decl.lower ctx p code () p')
    (around : OverAll Word.Hidden ctx.words) (own : decl.Over Word.Own)
    (stands : names.Stands p visible) : InStep p visible code .done p' (decl.walk names) := by
  obtain ⟨opening, declared, rest, p₁, p₂, rfl, delegates, declares, lowers⟩ := derives ends
  have first := delegates.inStep around rfl own stands
  have second := declares.inStep (fun param mem => (own.locals param mem).1) first.behind
  obtain ⟨ready, same⟩ := decl.ready_task p₂.scope.isLocal
  have third := lowers.inStep around (spans_task own) ready second.behind
  rw [same, decl.walk_task] at third
  exact first.andThen (second.andThen third)

/-- The body of a finished method, if it has one. -/
theorem MethodDecl.Finished.codeInScope {c : ClassDraft} {m : MethodDraft} {body : Option Code}
    {uses : List FieldUse} (finished : decl.Finished c m body uses) (own : decl.Over Word.Own) :
    ∀ code ∈ body, Stmt.codeInScope (decl.params.map Param.name) code = decl.inScope := by
  cases finished with
  | sealed => nofun
  | @closed code p' _ ends =>
    rintro _ ⟨⟩
    have around : OverAll Word.Hidden (Context.words
        ⟨c.simpleName, m.signature.isStatic, m.signature.returns, []⟩) :=
      OverAll.cons_iff.mpr ⟨trivial, .nil⟩
    have checked := (MethodDecl.inStep ends around own decl.stands_startNames).checked
    rwa [Yield.inScope_done, Bool.and_true] at checked

/-! ## Names that are listed -/

/-- The known names are `known`, and so are the visible ones. -/
def Names.Are (names : Names) (known : String → Bool) : Prop :=
  names.isKnown = known ∧ ∀ name, name ∈ names.visible ↔ known name = true

/-- A walk that finds every variable in scope and leaves the names as they are. -/
def Walk.Quiet (known : String → Bool) (walk : Walk) : Prop :=
  ∀ names : Names, names.Are known → (walk names).1.Are known ∧ (walk names).2 = true

namespace Walk.Quiet

variable {known : String → Bool} {first second body : Walk}

theorem skip : Quiet known Walk.skip := fun _ are => ⟨are, rfl⟩

theorem andThen (quiet : Quiet known first) (others : Quiet known second) :
    Quiet known (first.andThen second) := by
  intro names are
  obtain ⟨between, checked⟩ := quiet names are
  obtain ⟨behind, rest⟩ := others _ between
  exact ⟨behind, by simp [Walk.andThen, checked, rest]⟩

theorem each {α : Type} {go : α → Walk} {parts : List α} (quiet : ∀ part ∈ parts, Quiet known (go part)) :
    Quiet known (Walk.each go parts) := by
  induction parts with
  | nil => exact skip
  | cons part rest ih =>
    obtain ⟨first, others⟩ := List.forall_mem_cons.mp quiet
    exact first.andThen (ih others)

theorem block (quiet : Quiet known body) : Quiet known body.block := by
  intro names are
  obtain ⟨behind, checked⟩ := quiet names are
  exact ⟨⟨behind.1, are.2⟩, checked⟩

theorem assign {name : String} (found : known name = true) : Quiet known (Walk.assign name) := by
  intro names are
  have listed : names.isKnown name = true := by rw [are.1, found]
  have visible := (are.2 name).mpr found
  rw [Walk.assign, if_pos listed]
  exact ⟨are, by simpa using visible⟩

/-- The variable of a heading is one of the known ones, or known in the block only. -/
theorem binding {name : String} (same : known name = true → Quiet known body)
    (more : known name = false → Quiet (fun other => other == name || known other) body) :
    Quiet known (Walk.binding name body) := by
  intro names are
  cases found : known name with
  | true =>
    have listed : names.isKnown name = true := by rw [are.1, found]
    rw [Walk.binding_known listed]
    exact ((assign found).andThen (same found)).block names are
  | false =>
    have unlisted : names.isKnown name = false := by rw [are.1, found]
    rw [Walk.binding_unknown unlisted]
    obtain ⟨⟨behind, -⟩, checked⟩ := more found ⟨name :: names.known, name :: names.visible⟩ (by
      refine ⟨funext fun other => ?_, fun other => ?_⟩
      · rw [← are.1]
        exact List.contains_cons
      · simp [are.2])
    refine ⟨⟨funext fun other => ?_, are.2⟩, checked⟩
    have within := congrFun behind other
    by_cases differs : other = name
    · subst differs
      simp [Walk.block, Walk.within, Names.isKnown, found]
    · have other : (other == name) = false := beq_eq_false_iff_ne.mpr differs
      simpa [Walk.block, Walk.within, Names.isKnown, differs, other] using within

end Walk.Quiet

theorem Tree.AssignsTo.mono {known known' : String → Bool}
    (more : ∀ name, known name = true → known' name = true) {tree : Tree}
    (assigns : tree.AssignsTo known) : tree.AssignsTo known' :=
  Tree.Every.mono (fun _ _ own name found => more name (own name found)) assigns

/-- A node that assigns to known names only, over parts that do. -/
theorem Kind.quiet_walk {known : String → Bool} {kind : Kind Tree}
    (own : ∀ name ∈ kind.assigned?, known name = true)
    (parts : ∀ tree ∈ kind.children, ∀ more : String → Bool,
      (∀ name, known name = true → more name = true) → Walk.Quiet more tree.walk) :
    Walk.Quiet known (kind.walk Tree.walk id) := by
  have here : ∀ tree ∈ kind.children, Walk.Quiet known tree.walk :=
    fun tree mem => parts tree mem known fun _ found => found
  have bound {name : String} {trees : List Tree} (subset : ∀ tree ∈ trees, tree ∈ kind.children) :
      Walk.Quiet known (.binding name (.each Tree.walk trees)) :=
    .binding (fun _ => .each fun tree mem => here tree (subset tree mem)) fun _ =>
      .each fun tree mem => parts tree (subset tree mem) _ (by simp +contextual)
  cases kind with
  | assign name value => exact (here value List.mem_cons_self).andThen (.assign (own name rfl))
  | binary op left right =>
    have second := here right (List.mem_cons_of_mem _ List.mem_cons_self)
    refine (here left List.mem_cons_self).andThen ?_
    split
    · exact second.block
    · exact second
  | cond test yes no =>
    simp only [children, List.forall_mem_cons, List.forall_mem_append] at here
    obtain ⟨test, yes, no⟩ := here
    exact test.andThen ((Walk.Quiet.each yes).block.andThen (Walk.Quiet.each no).block)
  | loop spec =>
    simp only [children, List.forall_mem_cons, List.forall_mem_append] at here
    obtain ⟨init, cond, ⟨pre, body⟩, post⟩ := here
    have tested {trees : List Tree} (only : ∀ tree ∈ trees, tree = spec.cond) :
        Walk.Quiet known (.each Tree.walk trees) :=
      .each fun tree mem => only tree mem ▸ cond
    have rounds (held : Bool) : Walk.Quiet known (spec.walkRounds Tree.walk held) :=
      (tested (by split <;> simp)).andThen (Walk.Quiet.block ((Walk.Quiet.each pre).andThen
        ((Walk.Quiet.each body).block.andThen
          ((Walk.Quiet.each post).andThen (tested (by split <;> simp))))))
    intro names are
    obtain ⟨between, checked⟩ := Walk.Quiet.each init names are
    obtain ⟨behind, rest⟩ := rounds _ _ between
    exact ⟨behind, Bool.and_eq_true_iff.mpr ⟨checked, rest⟩⟩
  | forEach spec =>
    exact (here _ List.mem_cons_self).andThen (bound fun _ mem => List.mem_cons_of_mem _ mem)
  | rescue body clauses otherwise =>
    simp only [children, List.forall_mem_append] at here
    obtain ⟨⟨body, bodies⟩, otherwise⟩ := here
    have guarded := (Walk.Quiet.each body).andThen (Walk.Quiet.each otherwise)
    have handled : ∀ clause ∈ clauses, Walk.Quiet known (clause.walk Tree.walk) := by
      intro clause mem
      have subset : ∀ tree ∈ clause.body.toList, tree ∈ clauses.filterMap RescueClause.body :=
        fun tree found => List.mem_filterMap.mpr ⟨clause, mem, Option.mem_toList.mp found⟩
      refine Walk.Quiet.each fun _ _ => ?_
      cases named : clause.name with
      | none => exact (Walk.Quiet.each fun tree found => bodies tree (subset tree found)).block
      | some name =>
        exact bound fun tree found =>
          List.mem_append_left _ (List.mem_append_right _ (subset tree found))
    rw [walk]
    split
    · exact guarded
    · exact guarded.block.andThen (.each handled)
  | ensure body cleanup =>
    exact (here body List.mem_cons_self).block.andThen
      (here cleanup (List.mem_cons_of_mem _ List.mem_cons_self)).block
  | _ => exact .each here

/-- A tree that assigns to names only that are known and visible finds them in scope. -/
theorem Tree.AssignsTo.quiet_walk {tree : Tree} {known : String → Bool}
    (assigns : tree.AssignsTo known) : Walk.Quiet known tree.walk := by
  revert known
  refine Tree.induction (motive := fun tree => ∀ {known : String → Bool}, tree.AssignsTo known →
    Walk.Quiet known tree.walk) ?_ tree
  intro kind type ih known assigns
  obtain ⟨own, parts⟩ := Tree.every_node.mp assigns
  rw [Tree.walk_node]
  exact Kind.quiet_walk own fun tree mem more grows => ih tree mem (AssignsTo.mono grows (parts tree mem))

/-- The declarations at the start of a method make all listed names known and visible. -/
theorem Walk.each_declare {known : String → Bool} (are : names.Are known) (locals : List Param) :
    (Walk.each (fun param => .declare param.name) locals names).1.Are
        (fun name => known name || (locals.map Param.name).contains name) ∧
      (Walk.each (fun param => .declare param.name) locals names).2 = true := by
  induction locals generalizing names known with
  | nil => simpa [Walk.each, Walk.skip] using are
  | cons param rest ih =>
    have first : (Walk.declare param.name names).1.Are (fun name => known name || name == param.name) ∧
        (Walk.declare param.name names).2 = true := by
      unfold Walk.declare
      split
      · next listed =>
        rw [are.1] at listed
        refine ⟨⟨are.1.trans (funext fun name => ?_), fun name => (are.2 name).trans ?_⟩, rfl⟩ <;>
          by_cases same : name = param.name <;> simp [same, listed]
      · refine ⟨⟨funext fun name => ?_, fun name => ?_⟩, rfl⟩
        · rw [← are.1, Bool.or_comm]
          exact List.contains_cons
        · simp [are.2, or_comm]
    obtain ⟨behind, checked⟩ := ih first.1
    refine ⟨?_, by simp [Walk.each, Walk.andThen, first.2, checked]⟩
    simp only [List.map_cons, List.contains_cons, ← Bool.or_assoc]
    exact behind

/-- Every name that the method assigns to is one of a parameter, or, in the body, of a variable that is
    listed to be declared at the start. -/
structure MethodDecl.ListsAssigned (decl : MethodDecl) : Prop where
  delegate : ∀ arg ∈ decl.delegateArgs, arg.AssignsTo (decl.params.map Param.name).contains
  body : ∀ body ∈ decl.body, body.AssignsTo fun name =>
    (decl.params.map Param.name).contains name || (decl.locals.map Param.name).contains name

theorem MethodDecl.ListsAssigned.inScope (lists : decl.ListsAssigned) : decl.inScope = true := by
  have start : decl.startNames.Are (decl.params.map Param.name).contains :=
    ⟨rfl, fun name => List.contains_iff_mem.symm⟩
  obtain ⟨first, opening⟩ := Walk.Quiet.each (fun arg mem => (lists.delegate arg mem).quiet_walk) _ start
  obtain ⟨second, declared⟩ := Walk.each_declare first decl.locals
  obtain ⟨-, rest⟩ := Walk.Quiet.each
    (fun body mem => (lists.body body (Option.mem_toList.mp mem)).quiet_walk) _ second
  exact Bool.and_eq_true_iff.mpr ⟨opening, Bool.and_eq_true_iff.mpr ⟨declared, rest⟩⟩

end

/-! ## Units -/

/-- In every method of a compiled unit, in the order of the declarations, each assignment stands in the
    scope of a declaration of its variable if and only if the walk through the method finds it there,
    if no variable has the name of a temporary. The walk finds all of them there if the method lists the
    names that it assigns to. -/
theorem assignments_in_scope_iff_walk {unit : CompilationUnit} {style : Style}
    {artifacts : List Artifact} (ok : unit.compile style = .ok artifacts)
    (own : ∀ type ∈ unit.types, ∀ decl ∈ type.methods, decl.Over Word.Own) :
    ∃ classes : List ClassDraft, artifacts = classes.map (fun c => ⟨c.path, c.text⟩) ∧
      List.Forall₂ (fun type c => type.Bodies (unit.begun style) c fun decl _ body =>
        (decl.ListsAssigned → decl.inScope = true) ∧
          ∀ code ∈ body, codeInScope (decl.params.map Param.name) code = decl.inScope)
        unit.types classes := by
  refine CompilationUnit.bodies_of_compile ok fun type declared decl mine m body uses finished => ?_
  exact ⟨fun lists => lists.inScope, finished.codeInScope (own type declared decl mine)⟩

/-- A method that assigns to a variable in a branch first, and then behind it. -/
def branchMethod : MethodDecl :=
  let assign (value : Int32) : Tree := .node (.assign "x" (.node (.literal (.int value)) .int)) .int
  let branch : Tree := .node (.cond (.node (.var "c") .boolean) (some (assign 1)) none) .void
  ⟨"run", .member, [⟨"c", .boolean⟩], .void, [], [], some (.node (.seq [branch, assign 2]) .void)⟩

def branchType : TypeDecl := ⟨"A", .classType none false, [], [], [], [branchMethod]⟩

def branchUnit : CompilationUnit := ⟨"a.mirah", none, [branchType]⟩

/-- The text of the type: the variable is declared inside the branch. -/
def branchText : String :=
  "// Generated from a.mirah\npublic class A extends Object \x7b\n" ++
    "  public void run(boolean c) \x7b\n    if (c) \x7b\n      int x = 1;\n    \x7d\n" ++
    "    x = 2;\n  \x7d\n\x7d\n"

/-- The second assignment is out of the scope of the declaration. -/
theorem branchUnit_out_of_scope :
    (∀ type ∈ branchUnit.types, ∀ decl ∈ type.methods, decl.Over Word.Own) ∧
      branchUnit.compile {} = .ok [⟨"A.java", branchText⟩] ∧
      ∃ (c : ClassDraft) (m : MethodDraft) (code : Code) (uses : List FieldUse),
        branchType.draft (branchUnit.begun {}) = .ok c ∧ c.text = branchText ∧ c.methods = [m] ∧
        branchMethod.Finished ((branchUnit.begun {}).newType "A" branchType.shape []) m (some code) uses ∧
        codeInScope ["c"] code = false := by
  have own : ∀ type ∈ branchUnit.types, ∀ decl ∈ type.methods, decl.Over Word.Own := by
    have names : isOwn "c" = true ∧ isOwn "x" = true := by decide
    refine List.forall_mem_singleton.mpr (List.forall_mem_singleton.mpr
      ⟨trivial, List.forall_mem_singleton.mpr ⟨names.1, trivial⟩, trivial, nofun, nofun, nofun, ?_⟩)
    rintro _ ⟨⟩
    simpa [Tree.over_node, Kind.children, Kind.words, Word.Own] using names
  have ok : branchUnit.compile {} = .ok [⟨"A.java", branchText⟩] := by decide +kernel
  obtain ⟨classes, written, all⟩ := assignments_in_scope_iff_walk ok own
  obtain ⟨c, _, ⟨drafted, methods⟩, none, rfl⟩ := List.forall₂_cons_left_iff.mp all
  cases none
  have text : c.text = branchText := (congrArg Artifact.text (List.cons.inj written).1).symm
  obtain ⟨m, _, ⟨body, uses, finished, -, checked⟩, none, listed⟩ :=
    List.forall₂_cons_left_iff.mp methods
  cases none
  refine ⟨own, ok, c, m, ?_⟩
  cases finished with
  | sealed signature out abstract =>
    rw [signature] at abstract
    cases abstract
  | closed signature ends out concrete =>
    have failed : branchMethod.inScope = false := by decide +kernel
    exact ⟨_, _, drafted, text, listed, .closed signature ends out concrete,
      (checked _ rfl).trans failed⟩

end JavaBackend
