import JavaBackend.Proofs.Jumps.Skeleton
import JavaBackend.Proofs.Lowering.Expressions

/-!
# How loops and jumps are nested

`Tree.Nests` says which loops and jumps come out of a tree, and in which order, with no mention of Java.
A loop may come out with or without labels. Its initial part and the first test of its condition stand
in front of it; the condition is tested again at the end of each pass.

A loop with labels has a label for its body, and `next` and `redo` go by that label. So they must be in
the body: a nest is `kept` if none of them stands in front of the body or behind it.

`Skeleton.nestAll` finds the loops and jumps in Java code again.
-/

namespace JavaBackend

/-- How the loops and jumps of a source program are nested. -/
inductive Nest where
  | jump (action : Jump)
  /-- A loop without labels. -/
  | plain (inside : List Nest)
  /-- A loop with labels: what stands in front of its labeled body, in the body and behind it. -/
  | labeled (before body after : List Nest)

namespace Nest

/-- A jump that goes by the label of the body of its loop. -/
def needsBody : Nest → Bool
  | .jump .next | .jump .redo => true
  | .jump .break | .plain _ | .labeled _ _ _ => false

mutual

/-- Every jump by the label of a body stands in that body. -/
def kept : Nest → Bool
  | .jump _ => true
  | .plain inside => keptAll inside
  | .labeled before body after =>
    !(before ++ after).any needsBody && (keptAll before && keptAll body && keptAll after)

def keptAll : List Nest → Bool
  | [] => true
  | part :: rest => part.kept && keptAll rest

end

theorem keptAll_append (first second : List Nest) :
    keptAll (first ++ second) = (keptAll first && keptAll second) := by
  induction first with
  | nil => rfl
  | cons part rest ih => rw [List.cons_append, keptAll, keptAll, ih, Bool.and_assoc]

end Nest

/-! ## Trees -/

/-- The trees that a clause handles exceptions with: its body, once for each type. -/
def RescueClause.handling (clause : RescueClause Tree) : List Tree :=
  (List.replicate (max 1 clause.types.length) clause.body.toList).flatten

/-- Neither a loop nor a jump, and each child comes out once. -/
def Kind.isSimple {α : Type} : Kind α → Bool
  | .loop _ | .forEach _ | .jump _ | .rescue _ _ _ => false
  | _ => true

namespace Tree

mutual

/-- The loops and jumps that come out of a tree. -/
inductive Nests : Tree → List Nest → Prop
  | jump {action : Jump} {type : JavaType} : Nests (.node (.jump action) type) [.jump action]
  | plainLoop {spec : Loop Tree} {type : JavaType} {start inside : List Nest}
    (noRedo : spec.redo = false) (noPost : spec.post = none)
    (expression : ∃ known, spec.cond.isExpression known = true)
    (init : AllNest spec.init.toList start)
    (pass : AllNest (spec.pre.toList ++ spec.body.toList) inside) :
    Nests (.node (.loop spec) type) (start ++ [.plain inside])
  | labeledLoop {spec : Loop Tree} {type : JavaType} {start before body after : List Nest}
    (needed : spec.redo = true ∨ spec.post.isSome = true ∨
      ∃ known, spec.cond.isExpression known = false)
    (init : AllNest (spec.init.toList ++ if spec.checkFirst then [spec.cond] else []) start)
    (pre : AllNest spec.pre.toList before) (pass : AllNest spec.body.toList body)
    (post : AllNest (spec.post.toList ++ [spec.cond]) after) :
    Nests (.node (.loop spec) type) (start ++ [.labeled before body after])
  | plainForEach {spec : ForEach Tree} {type : JavaType} {start inside : List Nest}
    (noRedo : spec.redo = false) (iterable : AllNest [spec.iterable] start)
    (pass : AllNest spec.body.toList inside) :
    Nests (.node (.forEach spec) type) (start ++ [.plain inside])
  | labeledForEach {spec : ForEach Tree} {type : JavaType} {start body : List Nest}
    (redo : spec.redo = true) (iterable : AllNest [spec.iterable] start)
    (pass : AllNest spec.body.toList body) :
    Nests (.node (.forEach spec) type) (start ++ [.labeled [] body []])
  | rescue {body otherwise : Option Tree} {clauses : List (RescueClause Tree)} {type : JavaType}
    {nest : List Nest}
    (parts : AllNest (body.toList ++ otherwise.toList ++ clauses.flatMap RescueClause.handling)
      nest) : Nests (.node (.rescue body clauses otherwise) type) nest
  | simple {kind : Kind Tree} {type : JavaType} {nest : List Nest} (isSimple : kind.isSimple = true)
    (children : AllNest kind.children nest) : Nests (.node kind type) nest

/-- The loops and jumps that come out of trees, one after another. -/
inductive AllNest : List Tree → List Nest → Prop
  | nil : AllNest [] []
  | cons {tree : Tree} {rest : List Tree} {first others : List Nest} (head : Nests tree first)
    (tail : AllNest rest others) : AllNest (tree :: rest) (first ++ others)

end

theorem AllNest.append {first second : List Tree} {nest nest' : List Nest}
    (one : AllNest first nest) (other : AllNest second nest') :
    AllNest (first ++ second) (nest ++ nest') := by
  induction first generalizing nest with
  | nil =>
    cases one
    exact other
  | cons tree rest ih =>
    cases one with
    | cons head tail =>
      rw [List.append_assoc]
      exact .cons head (ih tail)

theorem allNest_nil_of_forall {trees : List Tree} (none : ∀ tree ∈ trees, Nests tree []) :
    AllNest trees [] := by
  induction trees with
  | nil => exact .nil
  | cons tree rest ih =>
    have head := none tree List.mem_cons_self
    exact .cons head (ih fun tree mem => none tree (List.mem_cons_of_mem _ mem))

theorem AllNest.eq_nil_of_forall {trees : List Tree} {nest : List Nest}
    (none : ∀ tree ∈ trees, ∀ nest, Nests tree nest → nest = []) (all : AllNest trees nest) :
    nest = [] := by
  induction trees generalizing nest with
  | nil =>
    cases all
    rfl
  | cons tree rest ih =>
    cases all with
    | cons head tail =>
      rw [none tree List.mem_cons_self _ head,
        ih (fun tree mem => none tree (List.mem_cons_of_mem _ mem)) tail]
      rfl

theorem Nests.single {tree : Tree} {nest : List Nest} (nests : Nests tree nest) :
    AllNest [tree] nest := by
  have all := AllNest.cons nests .nil
  rwa [List.append_nil] at all

/-- There are no loops and jumps in an expression. -/
theorem nests_nil_of_isExpression (known : String → Bool) (tree : Tree) :
    tree.isExpression known = true → Nests tree [] := by
  induction tree using Tree.induction with
  | step kind type ih =>
    intro expression
    have children : AllNest kind.children [] := allNest_nil_of_forall fun tree mem =>
      ih tree mem (Kind.isExpression_of_mem_children expression tree mem)
    refine .simple ?_ children
    cases kind with
    | loop _ | forEach _ | jump _ | rescue _ _ _ => exact absurd expression Bool.false_ne_true
    | _ => rfl

/-- No loop and no jump comes out of an expression. -/
theorem eq_nil_of_isExpression (known : String → Bool) (tree : Tree) :
    tree.isExpression known = true → ∀ nest, Nests tree nest → nest = [] := by
  induction tree using Tree.induction with
  | step kind type ih =>
    intro expression nest nests
    cases nests with
    | jump | plainLoop | labeledLoop | plainForEach | labeledForEach | rescue =>
      exact absurd expression Bool.false_ne_true
    | simple _ children =>
      refine AllNest.eq_nil_of_forall ?_ children
      intro tree mem
      exact ih tree mem (Kind.isExpression_of_mem_children expression tree mem)

end Tree

/-! ## Java code -/

namespace Java.Skeleton

/-- Whether this is the labeled body of a loop. -/
def isBody (bodies : List String) : Skeleton → Bool
  | .node (.loop (some label)) _ | .node (.block (some label)) _ => bodies.contains label
  | _ => false

mutual

/-- The loops and jumps that code stands for. Some of its labels are those of loops, and the others,
    `bodies`, those of their bodies. -/
def nest (bodies : List String) : Skeleton → List Nest
  | .node (.breaks none) _ => [.jump .break]
  | .node (.breaks (some label)) _ =>
    [.jump (if bodies.contains label then .next else .break)]
  | .node (.continues none) _ => [.jump .next]
  | .node (.continues (some _)) _ => [.jump .redo]
  | .node (.declares _) _ => []
  | .node (.loop none) inside => [.plain (nestAll bodies inside)]
  | .node (.loop (some label)) inside =>
    if bodies.contains label then nestAll bodies inside
    else
      let (before, body, after) := nestParts bodies inside
      [.labeled before body after]
  | .node (.block _) inside | .node (.other _) inside => nestAll bodies inside

def nestAll (bodies : List String) : List Skeleton → List Nest
  | [] => []
  | part :: rest => part.nest bodies ++ nestAll bodies rest

/-- What stands in front of the labeled body of a loop, in it, and behind it. -/
def nestParts (bodies : List String) : List Skeleton → List Nest × List Nest × List Nest
  | [] => ([], [], [])
  | part :: rest =>
    if part.isBody bodies then ([], part.nest bodies, nestAll bodies rest)
    else
      let (before, body, after) := nestParts bodies rest
      (part.nest bodies ++ before, body, after)

end

theorem nestAll_append (bodies : List String) (first second : List Skeleton) :
    nestAll bodies (first ++ second) = nestAll bodies first ++ nestAll bodies second := by
  induction first with
  | nil => rfl
  | cons part rest ih => rw [List.cons_append, nestAll, nestAll, ih, List.append_assoc]

theorem nestAll_singleton (bodies : List String) (part : Skeleton) :
    nestAll bodies [part] = part.nest bodies := by
  rw [nestAll, nestAll, List.append_nil]

end Java.Skeleton

end JavaBackend
