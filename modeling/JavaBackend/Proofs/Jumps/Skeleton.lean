import JavaBackend.Java.Stmt
import JavaBackend.Source.Kind

/-!
# Jumps, labels and loops in Java code

The `Skeleton` of code is what decides where its jumps lead: its jumps, its loops and bare blocks with
their labels, and the variables that are declared on the way. Branches and handlers only put code
together, so their skeletons are those of their parts, one after another.

`Skeleton.marksAll` lists what is in a skeleton, and `Skeleton.placedAll` lists it together with all
that stands around it. The rules of Java for jumps are about these lists.
-/

namespace JavaBackend.Java

/-- What a part of code has to do with jumps. -/
inductive Mark where
  | breaks (label : Option String)
  | continues (label : Option String)
  /-- A variable is declared. -/
  | declares (name : String)
  | loop (label : Option String)
  | block (label : Option String)
  /-- A label in front of anything else. -/
  | other (label : String)
  deriving DecidableEq, Repr

namespace Mark

/-- The label of a statement. -/
def label? : Mark → Option String
  | .loop label | .block label => label
  | .other label => some label
  | .breaks _ | .continues _ | .declares _ => none

/-- The variable that is declared. -/
def declared? : Mark → Option String
  | .declares name => some name
  | _ => none

/-- A label stands in front of a loop or a bare block only. -/
def labelFits : Mark → Bool
  | .other _ => false
  | _ => true

def isLoop : Mark → Bool
  | .loop _ => true
  | _ => false

/-- A jump with a label stands in the statement that has the label, which is a loop if the jump is a
    `continue`. What stands around it is listed from the inside. -/
def inScope (around : List Mark) : Mark → Bool
  | .breaks (some label) => around.any (·.label? == some label)
  | .continues (some label) => around.contains (.loop (some label))
  | _ => true

/-- A jump without a label stands in a loop, and the innermost one has no label either. -/
def inPlainLoop (around : List Mark) : Mark → Bool
  | .breaks none | .continues none => around.find? isLoop == some (.loop none)
  | _ => true

end Mark

/-- Marks, and what stands inside of them. -/
inductive Skeleton where
  | node (mark : Mark) (inside : List Skeleton)

namespace Stmt

/-- Code that is neither a loop nor a block, with its label if it has one. -/
def tagged : Option String → List Skeleton → List Skeleton
  | none, inside => inside
  | some label, inside => [.node (.other label) inside]

mutual

/-- The skeleton of a statement that has a label or none. -/
def skeleton (label : Option String) : Stmt → List Skeleton
  | .declare _ name _ => tagged label [.node (.declares name) []]
  | .store _ _ | .setField _ _ | .eval _ | .ret | .print _ _ | .delegate _ _ => tagged label []
  | .break target => tagged label [.node (.breaks target) []]
  | .continue target => tagged label [.node (.continues target) []]
  | .labeled own body => tagged label (body.skeleton (some own))
  | .block body => [.node (.block label) (codeSkeleton body)]
  | .ifThen _ yes => tagged label (codeSkeleton yes)
  | .ifElse _ yes no => tagged label (codeSkeleton yes ++ codeSkeleton no)
  | .whileLoop _ body | .doLoop body _ => [.node (.loop label) (codeSkeleton body)]
  | .forEach _ name _ body =>
    [.node (.loop label) (.node (.declares name) [] :: codeSkeleton body)]
  | .tryCatch body handlers => tagged label (codeSkeleton body ++ handlersSkeleton handlers)
  | .tryFinally body cleanup => tagged label (codeSkeleton body ++ codeSkeleton cleanup)

/-- The skeleton of the statements of a block. -/
def codeSkeleton : Code → List Skeleton
  | [] => []
  | stmt :: rest => stmt.skeleton none ++ codeSkeleton rest

def handlersSkeleton : List (Handler Code) → List Skeleton
  | [] => []
  | ⟨_, name, body⟩ :: rest =>
    .node (.declares name) [] :: (codeSkeleton body ++ handlersSkeleton rest)

end

theorem codeSkeleton_append (first second : Code) :
    codeSkeleton (first ++ second) = codeSkeleton first ++ codeSkeleton second := by
  induction first with
  | nil => rfl
  | cons stmt rest ih => rw [List.cons_append, codeSkeleton, codeSkeleton, ih, List.append_assoc]

theorem codeSkeleton_singleton (stmt : Stmt) : codeSkeleton [stmt] = stmt.skeleton none := by
  rw [codeSkeleton, codeSkeleton, List.append_nil]

theorem handlersSkeleton_append (first second : List (Handler Code)) :
    handlersSkeleton (first ++ second) = handlersSkeleton first ++ handlersSkeleton second := by
  induction first with
  | nil => rfl
  | cons handler rest ih =>
    rw [List.cons_append, handlersSkeleton, handlersSkeleton, ih, List.cons_append,
      List.append_assoc]

end Stmt

namespace Skeleton

mutual

/-- The marks, in order. -/
def marks : Skeleton → List Mark
  | .node mark inside => mark :: marksAll inside

def marksAll : List Skeleton → List Mark
  | [] => []
  | part :: rest => part.marks ++ marksAll rest

end

mutual

/-- The marks, each behind those that stand around it. -/
def placed (around : List Mark) : Skeleton → List (List Mark × Mark)
  | .node mark inside => (around, mark) :: placedAll (mark :: around) inside

def placedAll (around : List Mark) : List Skeleton → List (List Mark × Mark)
  | [] => []
  | part :: rest => part.placed around ++ placedAll around rest

end

theorem marksAll_append (first second : List Skeleton) :
    marksAll (first ++ second) = marksAll first ++ marksAll second := by
  induction first with
  | nil => rfl
  | cons part rest ih => rw [List.cons_append, marksAll, marksAll, ih, List.append_assoc]

theorem marksAll_singleton (mark : Mark) (inside : List Skeleton) :
    marksAll [.node mark inside] = mark :: marksAll inside := by
  rw [marksAll, marksAll, marks, List.append_nil]

theorem marksAll_body (front : List Skeleton) (mark : Mark) (inside back : List Skeleton) :
    marksAll (front ++ .node mark inside :: back) =
      marksAll front ++ mark :: (marksAll inside ++ marksAll back) := by
  rw [marksAll_append, marksAll, marks, List.cons_append]

theorem placedAll_append (around : List Mark) (first second : List Skeleton) :
    placedAll around (first ++ second) = placedAll around first ++ placedAll around second := by
  induction first with
  | nil => rfl
  | cons part rest ih => rw [List.cons_append, placedAll, placedAll, ih, List.append_assoc]

theorem placedAll_singleton (around : List Mark) (mark : Mark) (inside : List Skeleton) :
    placedAll around [.node mark inside] =
      (around, mark) :: placedAll (mark :: around) inside := by
  rw [placedAll, placedAll, placed, List.append_nil]

theorem placedAll_body (around : List Mark) (front : List Skeleton) (mark : Mark)
    (inside back : List Skeleton) :
    placedAll around (front ++ .node mark inside :: back) =
      placedAll around front ++ (around, mark) ::
        (placedAll (mark :: around) inside ++ placedAll around back) := by
  rw [placedAll_append, placedAll, placed, List.cons_append]

end Skeleton

/-- The labels of code, in order. -/
def labelsOf (code : Code) : List String :=
  (Skeleton.marksAll (Stmt.codeSkeleton code)).filterMap Mark.label?

/-- The variables that code declares, in order. -/
def declaredIn (code : Code) : List String :=
  (Skeleton.marksAll (Stmt.codeSkeleton code)).filterMap Mark.declared?

end JavaBackend.Java
