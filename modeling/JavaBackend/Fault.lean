import JavaBackend.Source.Kind

/-!
# Faults

What can go wrong while code is generated, and the message for each.
-/

namespace JavaBackend

/-- The forms that a loop takes in Java. -/
inductive LoopForm where
  /-- A plain `while` or `do`. -/
  | plainWhile
  /-- A labeled `while` or `do` around a labeled body. -/
  | labeledWhile
  /-- A plain `for` over elements. -/
  | plainForEach
  /-- A labeled `for` over elements around a labeled body. -/
  | labeledForEach
  deriving DecidableEq, Repr

def LoopForm.name : LoopForm → String
  | .plainWhile => "simple while loop"
  | .labeledWhile => "complex while loop"
  | .plainForEach => "simple for-each loop"
  | .labeledForEach => "redoable for-each loop"

/-- The parts of a type's header. -/
inductive HeaderPart where
  | package
  | superclass
  | abstractFlag
  | interfaces
  | annotations
  deriving DecidableEq, Repr

def HeaderPart.name : HeaderPart → String
  | .package => "package"
  | .superclass => "superclass"
  | .abstractFlag => "abstract flag"
  | .interfaces => "interfaces"
  | .annotations => "annotations"

/-- A reason why code cannot be generated. -/
inductive Fault where
  /-- A jump with no loop around it. -/
  | outsideLoop (action : Jump)
  /-- A `redo` in a loop whose form has no way back to the start of the body. -/
  | redoUnsupported (form : LoopForm)
  | unknownDirective (directive : String)
  /-- An argument for another constructor that needs statements. The kind of its node is named. -/
  | invalidDelegateArgument (kind : String)
  /-- A change to a header that is written already. -/
  | headerSealed (type : String) (part : HeaderPart)
  | staticInterfaceMethod (type method : String)
  | interfaceSuperclass (type : String)
  | interfaceConstructor (type : String)
  | unknownMethod (index : Nat)
  deriving DecidableEq, Repr

namespace Fault

def message : Fault → String
  | .outsideLoop action => action.keyword ++ " outside of loop"
  | .redoUnsupported form => form.name ++ " doesn't support redo"
  | .unknownDirective directive => "unknown emission directive `" ++ directive ++ "`"
  | .invalidDelegateArgument kind =>
    "invalid constructor argument: " ++ kind ++ " is not an expression"
  | .headerSealed type part =>
    "cannot change " ++ part.name ++ " of " ++ type ++ ": header already emitted"
  | .staticInterfaceMethod type method =>
    "interfaces can't have static methods (" ++ type ++ "." ++ method ++ ")"
  | .interfaceSuperclass type => "internal error: interface " ++ type ++ " has no superclass"
  | .interfaceConstructor type =>
    "internal error: interface " ++ type ++ " can't have a constructor"
  | .unknownMethod index =>
    "internal error: unknown method MethodId(" ++ toString index ++ ")"

end Fault

end JavaBackend
