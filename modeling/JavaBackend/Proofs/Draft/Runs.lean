import JavaBackend.Proofs.Layout.Splicing
import JavaBackend.Proofs.Unit.Written
import Mathlib.Data.List.Basic
import Mathlib.Data.List.Induction

/-!
# Runs of a class's draft

A draft of a class or an interface takes operations in any order. `ClassDraft.Step` says what one of
them can do, and `Reached` what any number of them have done: the header is written once, each field
has the line of its first declaration, and the methods stand in the order of their declarations.
-/

namespace JavaBackend

/-- The lines that declare a field: its annotations, and the declaration. -/
def FieldDecl.lines (field : FieldDecl) : List String :=
  field.annotations.map AnnotationUse.source ++
    ["private " ++ (if field.isStatic then "static " else "") ++ field.type.source ++ " " ++
      field.name ++ ";"]

/-- The first declaration of each name, in order. -/
def firstDeclared : List FieldDecl → List FieldDecl
  | [] => []
  | field :: rest => field :: (firstDeclared rest).filter (·.name ≠ field.name)

/-- The shape with another superclass and another flag, as far as there are. An interface has none. -/
def Shape.change (superclass : Option JavaType) (isAbstract : Option Bool) : Shape → Shape
  | .classType old flag => .classType (superclass.getD old) (isAbstract.getD flag)
  | .interface => .interface

@[simp]
theorem Shape.change_none (shape : Shape) : shape.change none none = shape := by
  cases shape <;> rfl

namespace ClassDraft

/-- An operation on a draft. What is done to a method can be anything. -/
inductive Op where
  | setPackage (package : String)
  | setSuperclass (superclass : JavaType)
  | setAbstract (isAbstract : Bool)
  | addInterface (type : JavaType)
  | annotate (use : AnnotationUse)
  | sealHeader
  | addField (field : FieldDecl)
  | addMethod (name : String) (params : List Param) (returns : JavaType) (exceptions : List JavaType)
  | addAbstractMethod (name : String) (params : List Param) (returns : JavaType)
    (exceptions : List JavaType)
  | addStaticMethod (name : String) (params : List Param) (returns : JavaType)
    (exceptions : List JavaType)
  | addConstructor (params : List Param) (exceptions : List JavaType)
  | addMain
  | changeMethod (index : Nat) (change : MethodDraft → MethodDraft)

/-- The draft after an operation, or why it is refused. -/
def apply (c : ClassDraft) : Op → Except Fault ClassDraft
  | .setPackage package => c.setPackage package
  | .setSuperclass superclass => c.setSuperclass superclass
  | .setAbstract isAbstract => c.setAbstract isAbstract
  | .addInterface type => c.addInterface type
  | .annotate use => c.annotate use
  | .sealHeader => .ok c.sealHeader
  | .addField field => .ok (c.addField field.name field.type field.isStatic field.annotations).2
  | .addMethod name params returns exceptions => .ok (c.addMethod name params returns exceptions).2
  | .addAbstractMethod name params returns exceptions =>
    .ok (c.addAbstractMethod name params returns exceptions).2
  | .addStaticMethod name params returns exceptions =>
    Prod.snd <$> c.addStaticMethod name params returns exceptions
  | .addConstructor params exceptions => Prod.snd <$> c.addConstructor params exceptions
  | .addMain => Prod.snd <$> c.addMain
  | .changeMethod index change =>
    if index < c.methods.length then .ok (c.modifyMethod index change)
    else .error (.unknownMethod index)

/-- The draft that is left by an operation. -/
def attempt (c : ClassDraft) (op : Op) : ClassDraft :=
  match c.apply op with
  | .ok c' => c'
  | .error _ => c

/-- The draft that is left by operations, from the first to the last. -/
def run (c : ClassDraft) (ops : List Op) : ClassDraft := ops.foldl attempt c

namespace Op

/-- The part of the header that the operation changes. -/
def part? : Op → Option HeaderPart
  | .setPackage _ => some .package
  | .setSuperclass _ => some .superclass
  | .setAbstract _ => some .abstractFlag
  | .addInterface _ => some .interfaces
  | .annotate _ => some .annotations
  | _ => none

/-! The value that the header is to show after the operation. -/

@[simp]
def package? : Op → Option String
  | .setPackage package => some package
  | _ => none

@[simp]
def superclass? : Op → Option JavaType
  | .setSuperclass superclass => some superclass
  | _ => none

@[simp]
def abstractFlag? : Op → Option Bool
  | .setAbstract isAbstract => some isAbstract
  | _ => none

@[simp]
def interface? : Op → Option JavaType
  | .addInterface type => some type
  | _ => none

@[simp]
def annotation? : Op → Option AnnotationUse
  | .annotate use => some use
  | _ => none

/-- The field that the operation declares. -/
def field? : Op → Option FieldDecl
  | .addField field => some field
  | _ => none

/-- The signature of the method that the operation declares in a class like `c`, if it can. -/
def signature? (c : ClassDraft) : Op → Option Signature
  | .addMethod name params returns exceptions =>
    some ⟨name, if c.isInterface then .abstract else .member, returns, params, exceptions⟩
  | .addAbstractMethod name params returns exceptions =>
    some ⟨name, .abstract, returns, params, exceptions⟩
  | .addStaticMethod name params returns exceptions =>
    if c.isInterface then none else some ⟨name, .static, returns, params, exceptions⟩
  | .addConstructor params exceptions =>
    if c.isInterface then none else some ⟨c.simpleName, .constructor, .void, params, exceptions⟩
  | .addMain =>
    if c.isInterface then none
    else some ⟨"main", .static, .void, [⟨"argv", .array .string⟩], []⟩
  | _ => none

end Op

/-- Why an operation is refused. -/
inductive Refused (c : ClassDraft) : Op → Fault → Prop
  /-- A change to a header that is written already. -/
  | header {op : Op} {part : HeaderPart} (changes : op.part? = some part)
    (sealed : c.isSealed = true) : Refused c op (.headerSealed c.simpleName part)
  | superclass {superclass : JavaType} (unsealed : c.isSealed = false)
    (interface : c.isInterface = true) :
    Refused c (.setSuperclass superclass) (.interfaceSuperclass c.simpleName)
  | static {name : String} {params : List Param} {returns : JavaType} {exceptions : List JavaType}
    (interface : c.isInterface = true) :
    Refused c (.addStaticMethod name params returns exceptions)
      (.staticInterfaceMethod c.simpleName name)
  | main (interface : c.isInterface = true) :
    Refused c .addMain (.staticInterfaceMethod c.simpleName "main")
  | constructor {params : List Param} {exceptions : List JavaType}
    (interface : c.isInterface = true) :
    Refused c (.addConstructor params exceptions) (.interfaceConstructor c.simpleName)
  | method {index : Nat} {change : MethodDraft → MethodDraft} (missing : c.methods.length ≤ index) :
    Refused c (.changeMethod index change) (.unknownMethod index)

/-- A draft that is as `start`, with the header that operations have asked for: the package, the
    superclass and the flag are those that were set last, and the interfaces and the annotations are all
    that were added, in order. -/
def headerOf (start : ClassDraft) (ops : List Op) : ClassDraft :=
  { start with
    package := (ops.filterMap Op.package?).getLast?.or start.package
    shape := start.shape.change (ops.filterMap Op.superclass?).getLast?
      (ops.filterMap Op.abstractFlag?).getLast?
    interfaces := start.interfaces ++ ops.filterMap Op.interface?
    annotations := start.annotations ++ ops.filterMap Op.annotation? }

theorem change_shape {c : ClassDraft} (interface : c.isInterface = true) (superclass : Option JavaType)
    (isAbstract : Option Bool) : c.shape.change superclass isAbstract = c.shape := by
  cases shape : c.shape <;> simp_all [isInterface, Shape.change]

/-- What an operation that is not refused does. -/
inductive Step (c : ClassDraft) : Op → ClassDraft → Prop
  | header {op : Op} {part : HeaderPart} {c' : ClassDraft} (changes : op.part? = some part)
    (unsealed : c.isSealed = false) (shown : c' = c.headerOf [op]) : Step c op c'
  | sealHeader : Step c .sealHeader c.sealHeader
  /-- Only the first declaration of a field counts. -/
  | known {field : FieldDecl} (known : c.hasField field.name = true) : Step c (.addField field) c
  | field {field : FieldDecl} (new : c.hasField field.name = false) :
    Step c (.addField field) { c.sealHeader with
      out := c.sealHeader.out.putLines field.lines
      fields := field.name :: c.sealHeader.fields }
  | method {op : Op} {signature : Signature} (declares : op.signature? c = some signature) :
    Step c op (c.withMethod (.ofSignature signature c.style.indent))
  | change {index : Nat} {change : MethodDraft → MethodDraft} (found : index < c.methods.length) :
    Step c (.changeMethod index change) (c.modifyMethod index change)

/-! ## One operation -/

variable {c : ClassDraft} {op : Op}

/-- The operation is refused for a reason, or does what it is for. -/
def Explains (c : ClassDraft) (op : Op) : Except Fault ClassDraft → Prop
  | .error fault => Refused c op fault
  | .ok c' => Step c op c'

theorem explains_change {part : HeaderPart} {f : ClassDraft → Except Fault ClassDraft}
    (changes : op.part? = some part) (open_ : c.isSealed = false → Explains c op (f c)) :
    Explains c op (c.change part f) := by
  unfold change
  split
  case isTrue sealed => exact .header changes sealed
  case isFalse unsealed => exact open_ (Bool.eq_false_iff.mpr unsealed)

theorem explains_method {signature : Signature} (declares : op.signature? c = some signature) :
    Explains c op (.ok (c.pushMethod signature).2) := by
  rw [pushMethod_eq]
  exact Step.method declares

/-- Some methods cannot be declared in interfaces. -/
theorem explains_guarded {fault : Fault} {signature : Signature}
    (refused : c.isInterface = true → Refused c op fault)
    (declares : c.isInterface = false → op.signature? c = some signature) :
    Explains c op (Prod.snd <$>
      if c.isInterface then .error fault else .ok (c.pushMethod signature)) := by
  split
  case isTrue interface => exact refused interface
  case isFalse concrete => exact explains_method (declares (Bool.eq_false_iff.mpr concrete))

theorem explains_apply (c : ClassDraft) (op : Op) : Explains c op (c.apply op) := by
  cases op with
  | setPackage | addInterface | annotate =>
    simp only [apply, setPackage, addInterface, annotate]
    exact explains_change rfl fun unsealed => .header rfl unsealed (by simp [headerOf])
  | setSuperclass superclass =>
    simp only [apply, setSuperclass]
    refine explains_change rfl fun unsealed => ?_
    cases shape : c.shape with
    | interface => exact .superclass unsealed (by simp [isInterface, shape])
    | classType old isAbstract =>
      exact .header rfl unsealed (by simp [headerOf, shape, Shape.change])
  | setAbstract isAbstract =>
    simp only [apply, setAbstract]
    refine explains_change rfl fun unsealed => ?_
    cases shape : c.shape with
    | interface => 
      have interface : c.isInterface = true := by simp [isInterface, shape]
      exact .header rfl unsealed (by simp [headerOf, change_shape interface, List.filterMap_cons])
    | classType superclass old =>
      exact .header rfl unsealed (by simp [headerOf, shape, Shape.change])
  | sealHeader => exact .sealHeader
  | addField field =>
    simp only [apply, addField]
    split
    case isTrue known => exact .known known
    case isFalse new => exact .field (Bool.eq_false_iff.mpr new)
  | addMethod name params returns exceptions => exact explains_method rfl
  | addAbstractMethod name params returns exceptions => exact explains_method rfl
  | addStaticMethod name params returns exceptions =>
    exact explains_guarded .static fun concrete => by simp [Op.signature?, concrete]
  | addConstructor params exceptions =>
    exact explains_guarded .constructor fun concrete => by simp [Op.signature?, concrete]
  | addMain => exact explains_guarded .main fun concrete => by simp [Op.signature?, concrete]
  | changeMethod index change =>
    simp only [apply]
    split
    case isTrue found => exact .change found
    case isFalse missing => exact .method (Nat.le_of_not_lt missing)

theorem apply_of_refused {fault : Fault} (refused : Refused c op fault) :
    c.apply op = .error fault := by
  cases refused with
  | header changes sealed =>
    cases op <;> cases changes <;>
      simp [apply, setPackage, setSuperclass, setAbstract, addInterface, annotate, change, sealed]
  | superclass unsealed interface =>
    cases shape : c.shape with
    | interface => simp [apply, setSuperclass, change, unsealed, shape]
    | classType superclass isAbstract => simp [isInterface, shape] at interface
  | static interface | main interface =>
    simp only [apply, addMain, addStaticMethod, interface]
    rfl
  | constructor interface =>
    simp only [apply, addConstructor, interface]
    rfl
  | method missing => simp [apply, Nat.not_lt.mpr missing]

theorem apply_eq_error_iff {fault : Fault} : c.apply op = .error fault ↔ Refused c op fault := by
  refine ⟨fun applied => ?_, apply_of_refused⟩
  have explained := explains_apply c op
  rwa [applied] at explained

theorem attempt_of_ok {c' : ClassDraft} (applied : c.apply op = .ok c') : c.attempt op = c' := by
  simp [attempt, applied]

theorem attempt_of_error {fault : Fault} (applied : c.apply op = .error fault) :
    c.attempt op = c := by
  simp [attempt, applied]

/-! ## The header -/

namespace Op

/-- The operation writes the header of a draft like `start` if there is none yet: it seals the header,
    or declares a field, or a method that can be declared. -/
def writesHeader (start : ClassDraft) : Op → Bool
  | .sealHeader | .addField _ => true
  | op => (op.signature? start).isSome

theorem writesHeader_of_part? {part : HeaderPart} (changes : op.part? = some part)
    (start : ClassDraft) : op.writesHeader start = false := by
  cases op <;> simp_all [part?, writesHeader, signature?]

theorem writesHeader_of_signature? {start : ClassDraft} {signature : Signature}
    (declares : op.signature? start = some signature) : op.writesHeader start = true := by
  cases op <;> simp_all [signature?, writesHeader]

theorem writesHeader_of_refused {start : ClassDraft} {fault : Fault} (refused : Refused c op fault)
    (interface : c.isInterface = start.isInterface) : op.writesHeader start = false := by
  cases refused with
  | header changes sealed => exact writesHeader_of_part? changes start
  | superclass unsealed => rfl
  | static concrete | main concrete | constructor concrete =>
    rw [interface] at concrete
    simp [writesHeader, signature?, concrete]
  | method missing => rfl

end Op

/-- The operations in front of the one that writes the header. -/
def prelude (start : ClassDraft) (ops : List Op) : List Op :=
  ops.takeWhile fun op => !op.writesHeader start

theorem run_append (c : ClassDraft) (ops more : List Op) :
    c.run (ops ++ more) = (c.run ops).run more := by
  simp [run]

theorem headerOf_nil (c : ClassDraft) : c.headerOf [] = c := by
  simp [headerOf]

theorem headerOf_append (start : ClassDraft) (ops more : List Op) :
    start.headerOf (ops ++ more) = (start.headerOf ops).headerOf more := by
  cases shape : start.shape <;>
    simp [headerOf, shape, Shape.change, List.getLast?_append, Option.or_assoc, Option.getD_or]

theorem isInterface_headerOf (c : ClassDraft) (ops : List Op) :
    (c.headerOf ops).isInterface = c.isInterface := by
  cases shape : c.shape <;> simp [headerOf, isInterface, shape, Shape.change]

/-- An operation that is refused asks for nothing that the header could show. -/
theorem Refused.headerOf {fault : Fault} (refused : Refused c op fault) (unsealed : c.isSealed = false) :
    c.headerOf [op] = c := by
  cases refused with
  | header changes sealed => simp [unsealed] at sealed
  | superclass _ interface =>
    simp [ClassDraft.headerOf, change_shape interface, List.filterMap_cons]
  | static | main | constructor | method => simp [ClassDraft.headerOf, List.filterMap_cons]

theorem prelude_of_writes {start : ClassDraft} (writes : op.writesHeader start = true)
    (ops : List Op) : prelude start (ops ++ [op]) = prelude start ops ∧
      (prelude start ops).length < (ops ++ [op]).length := by
  have front : prelude start ops <+: ops := List.takeWhile_prefix _
  refine ⟨?_, by simpa using Nat.lt_succ_of_le front.length_le⟩
  unfold prelude at front ⊢
  rw [List.takeWhile_append]
  split
  · next all => simp [writes, front.eq_of_length all]
  · rfl

theorem prelude_of_silent {start : ClassDraft} (silent : op.writesHeader start = false)
    (ops : List Op) : prelude start (ops ++ [op]) =
      if (prelude start ops).length = ops.length then ops ++ [op] else prelude start ops := by
  unfold prelude
  rw [List.takeWhile_append]
  split
  · simp [silent]
  · rfl

/-! ## Fields -/

theorem mem_firstDeclared {fields : List FieldDecl} {name : String} :
    name ∈ (firstDeclared fields).map FieldDecl.name ↔ name ∈ fields.map FieldDecl.name := by
  induction fields with
  | nil => rfl
  | cons first rest ih =>
    by_cases same : name = first.name
    · simp [firstDeclared, same]
    · simp only [List.mem_map] at ih
      simp only [firstDeclared, List.map_cons, List.mem_cons, same, false_or, List.mem_map,
        List.mem_filter, ← ih]
      constructor
      · rintro ⟨found, ⟨mem, -⟩, named⟩
        exact ⟨found, mem, named⟩
      · rintro ⟨found, mem, named⟩
        exact ⟨found, ⟨mem, by simpa [named] using same⟩, named⟩

theorem firstDeclared_append (fields : List FieldDecl) (field : FieldDecl) :
    firstDeclared (fields ++ [field]) =
      if field.name ∈ fields.map FieldDecl.name then firstDeclared fields
      else firstDeclared fields ++ [field] := by
  induction fields with
  | nil => simp [firstDeclared]
  | cons first rest ih =>
    simp only [List.cons_append, firstDeclared, ih, List.map_cons, List.mem_cons]
    by_cases same : field.name = first.name
    · rw [if_pos (c := _ ∨ _) (.inl same)]
      split <;> simp [same]
    · by_cases mem : field.name ∈ rest.map FieldDecl.name <;> simp [mem, same]

theorem nodup_firstDeclared (fields : List FieldDecl) :
    ((firstDeclared fields).map FieldDecl.name).Nodup := by
  induction fields with
  | nil => exact List.nodup_nil
  | cons first rest ih =>
    rw [firstDeclared, List.map_cons, List.nodup_cons]
    constructor
    · simp [List.mem_map, List.mem_filter]
    · exact ih.sublist (List.filter_sublist.map FieldDecl.name)

/-- What a name is declared as is what it is declared as first. -/
theorem find?_firstDeclared (fields : List FieldDecl) (name : String) :
    (firstDeclared fields).find? (·.name = name) = fields.find? (·.name = name) := by
  induction fields with
  | nil => rfl
  | cons first rest ih =>
    by_cases same : first.name = name
    · simp [firstDeclared, same]
    · have others : (fun field : FieldDecl => decide (decide (field.name ≠ first.name) = true ∧
          decide (field.name = name) = true)) = fun field => decide (field.name = name) := by
        funext field
        by_cases named : field.name = name
        · simp [named, Ne.symm same]
        · simp [named]
      rw [firstDeclared, List.find?_cons, List.find?_cons, List.find?_filter, others, ih]

/-! ## Runs -/

/-- The fields that operations declare. -/
def fieldsOf (ops : List Op) : List FieldDecl := firstDeclared (ops.filterMap Op.field?)

/-- What an operation on a draft like `start` does to the methods. -/
def Op.onMethods (start : ClassDraft) : Op → List MethodDraft → List MethodDraft
  | .changeMethod index change, methods => methods.modify index change
  | op, methods =>
    methods ++ (op.signature? start).toList.map (MethodDraft.ofSignature · start.style.indent)

/-- The methods of a draft after operations. -/
def methodsOf (start : ClassDraft) (ops : List Op) : List MethodDraft :=
  ops.foldl (fun methods op => op.onMethods start methods) []

/-- The header and the fields that operations write. -/
def written (start : ClassDraft) (ops : List Op) : Text.Buffer :=
  { text := unlines (start.headerOf (prelude start ops)).headerLines ++
      shift start.style.indent (unlines ((fieldsOf ops).flatMap FieldDecl.lines))
    depth := start.style.indent
    step := start.style.indent }

/-- A draft that no operation has changed. -/
structure IsNew (c : ClassDraft) : Prop where
  fields : c.fields = []
  methods : c.methods = []
  unsealed : c.isSealed = false
  out : c.out = .ofStep c.style.indent

/-- What operations have made of a new draft. -/
structure Reached (start : ClassDraft) (ops : List Op) (c : ClassDraft) : Prop where
  new : IsNew start
  simpleName : c.simpleName = start.simpleName
  interface : c.isInterface = start.isInterface
  style : c.style = start.style
  fields : c.fields = ((fieldsOf ops).map FieldDecl.name).reverse
  methods : c.methods = methodsOf start ops
  unsealed : c.isSealed = false → prelude start ops = ops ∧ c = start.headerOf ops
  sealed : c.isSealed = true →
    (prelude start ops).length < ops.length ∧ c.out = written start ops

theorem isSealed_sealHeader (c : ClassDraft) : c.sealHeader.isSealed = true := by
  unfold sealHeader
  split
  · assumption
  · rfl

theorem isInterface_sealHeader (c : ClassDraft) : c.sealHeader.isInterface = c.isInterface := by
  unfold sealHeader
  split <;> rfl

theorem fields_sealHeader (c : ClassDraft) : c.sealHeader.fields = c.fields := by
  unfold sealHeader
  split <;> rfl

theorem isNew_new (style : Style) (sourceName : String) (defaultPackage : Option String)
    (name : String) (shape : Shape) (interfaces : List JavaType) :
    IsNew (ClassDraft.new style sourceName defaultPackage name shape interfaces) := by
  constructor <;> simp [ClassDraft.new]

theorem IsNew.reached {start : ClassDraft} (new : IsNew start) : Reached start [] start where
  new := new
  simpleName := rfl
  interface := rfl
  style := rfl
  fields := new.fields
  methods := new.methods
  unsealed _ := ⟨rfl, start.headerOf_nil.symm⟩
  sealed sealed := by simp [new.unsealed] at sealed

theorem fieldsOf_append (ops : List Op) (op : Op) : fieldsOf (ops ++ [op]) =
    match op.field? with
    | none => fieldsOf ops
    | some field =>
      if field.name ∈ (fieldsOf ops).map FieldDecl.name then fieldsOf ops
      else fieldsOf ops ++ [field] := by
  simp only [fieldsOf, List.filterMap_append, List.filterMap_cons, List.filterMap_nil]
  cases op.field? with
  | none => simp
  | some field => simp only [firstDeclared_append, mem_firstDeclared]

theorem methodsOf_append (start : ClassDraft) (ops : List Op) (op : Op) :
    methodsOf start (ops ++ [op]) = op.onMethods start (methodsOf start ops) := by
  simp [methodsOf]

theorem Op.onMethods_sealHeader (start : ClassDraft) (methods : List MethodDraft) :
    Op.sealHeader.onMethods start methods = methods := List.append_nil methods

theorem Op.onMethods_addField (start : ClassDraft) (field : FieldDecl)
    (methods : List MethodDraft) : (Op.addField field).onMethods start methods = methods :=
  List.append_nil methods

theorem Op.onMethods_of_part? {part : HeaderPart} (changes : op.part? = some part)
    (start : ClassDraft) (methods : List MethodDraft) : op.onMethods start methods = methods := by
  cases op <;> simp_all [part?, onMethods, signature?]

theorem Op.onMethods_of_signature? {start : ClassDraft} {signature : Signature}
    (declares : op.signature? start = some signature) (methods : List MethodDraft) :
    op.onMethods start methods =
      methods ++ [MethodDraft.ofSignature signature start.style.indent] := by
  cases op <;> simp_all [onMethods, signature?]

theorem Op.onMethods_of_refused {start : ClassDraft} {fault : Fault} (refused : Refused c op fault)
    (interface : c.isInterface = start.isInterface) :
    op.onMethods start c.methods = c.methods := by
  cases refused with
  | header changes sealed => exact onMethods_of_part? changes start c.methods
  | superclass unsealed => exact onMethods_of_part? rfl start c.methods
  | static concrete | main concrete | constructor concrete =>
    rw [interface] at concrete
    simp [onMethods, signature?, concrete]
  | method missing => exact List.modify_eq_self missing

theorem Op.field?_of_part? {part : HeaderPart} (changes : op.part? = some part) :
    op.field? = none := by
  cases op <;> simp_all [part?, field?]

theorem Op.field?_of_signature? {signature : Signature}
    (declares : op.signature? c = some signature) : op.field? = none := by
  cases op <;> simp_all [signature?, field?]

theorem Refused.field? {fault : Fault} (refused : Refused c op fault) : op.field? = none := by
  cases refused with
  | header changes sealed => exact Op.field?_of_part? changes
  | _ => rfl

theorem signature?_congr {start : ClassDraft} (name : c.simpleName = start.simpleName)
    (interface : c.isInterface = start.isInterface) : op.signature? c = op.signature? start := by
  unfold Op.signature?
  rw [name, interface]

namespace Reached

variable {start : ClassDraft} {ops : List Op}

/-- In front of the header there are no members. -/
theorem fieldsOf_eq_nil (reached : Reached start ops c) (unsealed : c.isSealed = false) :
    fieldsOf ops = [] := by
  have fields := reached.fields
  rw [(reached.unsealed unsealed).2, show (start.headerOf ops).fields = [] from reached.new.fields] at fields
  simpa using fields.symm

/-- The header that is written now is the one of the first member, if there is one already. -/
theorem out_sealHeader (reached : Reached start ops c) : c.sealHeader.out = written start ops := by
  cases sealed : c.isSealed with
  | true => rw [ClassDraft.sealHeader, if_pos sealed, (reached.sealed sealed).2]
  | false =>
    obtain ⟨none, same⟩ := reached.unsealed sealed
    have out : c.out = .ofStep start.style.indent := by
      rw [same]
      exact reached.new.out
    rw [ClassDraft.sealHeader, if_neg (by simp [sealed]), out, written, none,
      reached.fieldsOf_eq_nil sealed, ← same]
    simp [Text.Buffer.putLines_at_start, Text.Buffer.ofStep, Text.Buffer.indent,
      shift_zero (wholeLines_unlines c.headerLines)]

/-- An operation that declares no member leaves the fields alone, and the header if it is written. -/
theorem keep {c' : ClassDraft} (reached : Reached start ops c)
    (shown : c.isSealed = false → c' = c.headerOf [op])
    (rest : c.isSealed = true → c' = { c with methods := c'.methods })
    (methods : c'.methods = op.onMethods start c.methods) (field : op.field? = none)
    (silent : op.writesHeader start = false) : Reached start (ops ++ [op]) c' := by
  have fields : fieldsOf (ops ++ [op]) = fieldsOf ops := by rw [fieldsOf_append, field]
  have behind := methodsOf_append start ops op
  rw [← reached.methods, ← methods] at behind
  cases sealed : c.isSealed with
  | false =>
    obtain ⟨none, same⟩ := reached.unsealed sealed
    have more : c' = start.headerOf (ops ++ [op]) := by rw [shown sealed, headerOf_append, ← same]
    have unsealed : c'.isSealed = false := by
      rw [more]
      exact reached.new.unsealed
    refine ⟨reached.new, by rw [more]; rfl, by rw [more, isInterface_headerOf], by rw [more]; rfl, ?_,
      behind.symm, fun _ => ⟨?_, more⟩, fun sealed => by simp [unsealed] at sealed⟩
    · rw [more, fields, reached.fieldsOf_eq_nil sealed]
      exact reached.new.fields
    · rw [prelude_of_silent silent, none, if_pos rfl]
  | true =>
    obtain ⟨shorter, out⟩ := reached.sealed sealed
    have same : prelude start (ops ++ [op]) = prelude start ops := by
      rw [prelude_of_silent silent, if_neg (Nat.ne_of_lt shorter)]
    refine ⟨reached.new, by rw [rest sealed]; exact reached.simpleName,
      by rw [rest sealed]; exact reached.interface, by rw [rest sealed]; exact reached.style,
      by rw [rest sealed, fields]; exact reached.fields, behind.symm, fun unsealed => ?_, fun _ => ?_⟩
    · rw [rest sealed] at unsealed
      exact absurd (sealed.symm.trans unsealed) (by decide)
    · rw [written, same, fields, rest sealed]
      exact ⟨by simp; omega, out⟩

/-- The first member writes the header, and every other one finds it written. -/
theorem member (reached : Reached start ops c) (op : Op) (writes : op.writesHeader start = true)
    (more : List FieldDecl)
    (declared : fieldsOf (ops ++ [op]) = fieldsOf ops ++ more) :
    Reached start (ops ++ [op]) { c.sealHeader with
      out := c.sealHeader.out.putLines (more.flatMap FieldDecl.lines)
      fields := (more.map FieldDecl.name).reverse ++ c.sealHeader.fields
      methods := op.onMethods start c.sealHeader.methods } := by
  obtain ⟨same, shorter⟩ := prelude_of_writes writes ops
  refine ⟨reached.new, c.sealHeader_simpleName.trans reached.simpleName,
    c.isInterface_sealHeader.trans reached.interface, c.sealHeader_style.trans reached.style,
    ?_, ?_, ?_, ?_⟩
  · simp [declared, fields_sealHeader, reached.fields]
  · rw [methodsOf_append, methods_sealHeader, reached.methods]
  · intro unsealed
    exact absurd (c.isSealed_sealHeader.symm.trans unsealed) (by decide)
  · intro _
    rw [same, reached.out_sealHeader, Text.Buffer.putLines_at_start rfl]
    refine ⟨shorter, ?_⟩
    rw [written, written, same, declared, List.flatMap_append, unlines_append,
      shift_append (wholeLines_unlines _) (wholeLines_unlines _), String.append_assoc]

theorem attempt (reached : Reached start ops c) (op : Op) :
    Reached start (ops ++ [op]) (c.attempt op) := by
  have explained := explains_apply c op
  cases applied : c.apply op with
  | error fault =>
    have refused := apply_eq_error_iff.mp applied
    rw [attempt_of_error applied]
    exact reached.keep (fun unsealed => (refused.headerOf unsealed).symm) (fun _ => rfl)
      (Op.onMethods_of_refused refused reached.interface).symm refused.field?
      (Op.writesHeader_of_refused refused reached.interface)
  | ok c' =>
    have step : Step c op c' := by rwa [applied] at explained
    rw [attempt_of_ok applied]
    cases step with
    | header changes unsealed shown =>
      refine reached.keep (fun _ => shown) (fun sealed => ?_) ?_ (Op.field?_of_part? changes)
        (Op.writesHeader_of_part? changes start)
      · simp [unsealed] at sealed
      · rw [shown]
        exact (Op.onMethods_of_part? changes start c.methods).symm
    | sealHeader =>
      have all := reached.member .sealHeader rfl [] (by simp [fieldsOf_append, Op.field?])
      rwa [Op.onMethods_sealHeader] at all
    | @known field known =>
      have present : field.name ∈ (fieldsOf ops).map FieldDecl.name := by
        simpa [hasField, reached.fields] using known
      have sealed : c.isSealed = true := by
        rw [← Bool.not_eq_false]
        intro unsealed
        simp [reached.fieldsOf_eq_nil unsealed] at present
      have all := reached.member (.addField field) rfl []
        (by simp [fieldsOf_append, Op.field?, present])
      rwa [Op.onMethods_addField, ClassDraft.sealHeader, if_pos sealed] at all
    | @field field new =>
      have absent : field.name ∉ (fieldsOf ops).map FieldDecl.name := by
        simpa [hasField, reached.fields] using new
      have all := reached.member (.addField field) rfl [field]
        (by simp [fieldsOf_append, Op.field?, absent])
      rwa [Op.onMethods_addField, List.flatMap_singleton] at all
    | method declares =>
      rw [signature?_congr reached.simpleName reached.interface] at declares
      have all := reached.member op (Op.writesHeader_of_signature? declares) []
        (by simp [fieldsOf_append, Op.field?_of_signature? declares])
      rw [Op.onMethods_of_signature? declares, methods_sealHeader, ← reached.style] at all
      exact all
    | change found =>
      refine reached.keep (fun unsealed => ?_) (fun _ => rfl) rfl rfl rfl
      rw [(reached.unsealed unsealed).2,
        show (start.headerOf ops).methods = [] from reached.new.methods] at found
      cases found

end Reached

/-- What operations leave of a new draft, whatever they are. -/
theorem reached_run {start : ClassDraft} (new : IsNew start) (ops : List Op) :
    Reached start ops (start.run ops) := by
  induction ops using List.reverseRecOn with
  | nil => exact new.reached
  | append_singleton ops op ih =>
    rw [run_append]
    exact ih.attempt op

/-! ## The text -/

/-- Methods of whole lines behind other members: an empty line in front of each. -/
theorem appendMethods_eq {out : Text.Buffer} (start : out.atLineStart = true)
    {methods : List MethodDraft} (whole : ∀ m ∈ methods, WholeLines m.out.text) :
    appendMethods out true methods = { out with
      text := out.text ++
        String.join (methods.map fun m => "\n" ++ shift out.depth m.out.text) } := by
  induction methods generalizing out with
  | nil => simp [appendMethods]
  | cons m rest ih =>
    obtain ⟨first, others⟩ := List.forall_mem_cons.mp whole
    rw [appendMethods, if_pos rfl, Text.Buffer.putLine_empty start, Text.Buffer.append_wholeLines, ih]
    · simp [String.append_assoc]
    · exact start
    · exact others
    · exact start
    · exact first

theorem intercalate_cons (text : String) (rest : List String) :
    "\n".intercalate (text :: rest) = text ++ String.join (rest.map ("\n" ++ ·)) := by
  induction rest generalizing text with
  | nil => simp
  | cons second rest ih =>
    rw [String.intercalate_cons_cons, ih]
    simp [String.append_assoc]

/-- The members of a type of whole lines, with an empty line between the fields and each method. -/
theorem text_of_out {c : ClassDraft} {header lines : String}
    (out : c.sealHeader.out =
      { text := header ++ lines, depth := c.style.indent, step := c.style.indent })
    (whole : ∀ m ∈ c.methods, WholeLines m.out.text) (fieldless : c.fields = [] → lines = "") :
    c.text = header ++ "\n".intercalate ((if c.fields.isEmpty then [] else [lines]) ++
      c.methods.map fun m => shift c.style.indent m.out.text) ++ "\x7d\n" := by
  have closed (b : Text.Buffer) (start : b.atLineStart = true) (depth : b.depth = b.step) :
      (b.dedent.putLine "\x7d").text = b.text ++ "\x7d\n" := by
    have lines := Text.Buffer.putLines_at_start (b := b.dedent) start ["\x7d"]
    have outside : b.dedent.depth = 0 := by simp [Text.Buffer.dedent, depth]
    rw [outside, shift_zero (wholeLines_unlines _)] at lines
    exact congrArg Text.Buffer.text lines
  simp only [text, fields_sealHeader, methods_sealHeader, out]
  cases fields : c.fields with
  | cons name rest =>
    simp only [List.isEmpty_cons, Bool.not_false]
    rw [appendMethods_eq rfl whole, closed _ rfl rfl]
    simp [intercalate_cons, String.append_assoc, Function.comp_def]
  | nil =>
    rw [fieldless fields, String.append_empty]
    cases methods : c.methods with
    | nil => simp [appendMethods, closed]
    | cons m rest =>
      obtain ⟨first, others⟩ := List.forall_mem_cons.mp (methods ▸ whole)
      simp only [List.isEmpty_nil, Bool.not_true, appendMethods]
      rw [if_neg (by decide), Text.Buffer.append_wholeLines rfl first, appendMethods_eq rfl others,
        closed _ rfl rfl]
      simp [intercalate_cons, String.append_assoc, Function.comp_def]

/-- The text of a type whose methods are whole lines: the header, the fields and the methods. -/
theorem Reached.text {start : ClassDraft} {ops : List Op} {c : ClassDraft}
    (reached : Reached start ops c) (whole : ∀ m ∈ c.methods, WholeLines m.out.text) :
    c.text = unlines (start.headerOf (prelude start ops)).headerLines ++
      "\n".intercalate ((if (fieldsOf ops).isEmpty then [] else
          [shift start.style.indent (unlines ((fieldsOf ops).flatMap FieldDecl.lines))]) ++
        c.methods.map fun m => shift start.style.indent m.out.text) ++ "\x7d\n" := by
  have none : c.fields.isEmpty = (fieldsOf ops).isEmpty := by
    rw [reached.fields, List.isEmpty_reverse, List.isEmpty_map]
  have laid := reached.out_sealHeader
  rw [written, ← reached.style] at laid
  have fieldless : c.fields = [] →
      shift c.style.indent (unlines ((fieldsOf ops).flatMap FieldDecl.lines)) = "" := by
    intro fieldless
    rw [reached.fields, List.reverse_eq_nil_iff, List.map_eq_nil_iff] at fieldless
    simp [fieldless]
  have all := text_of_out laid whole fieldless
  rwa [none, reached.style] at all

/-! ## Lowering -/

theorem run_addFields (c : ClassDraft) (uses : List FieldUse) :
    c.run (uses.map fun use => .addField ⟨use.name, use.type, use.isStatic, []⟩) =
      c.useFields uses := by
  induction uses generalizing c with
  | nil => rfl
  | cons use rest ih => exact ih _

/-- Lowering into a method is a change to the method, and the declaration of fields. -/
theorem lower_eq_run {α : Type} (c : ClassDraft) (index : Nat) (loops : List EnclosingLoop)
    (code : Lower α) : ∃ ops, (c.lower index loops code).2 = c.run ops := by
  cases found : c.methods[index]? with
  | none => exact ⟨[], by simp [lower, found, run]⟩
  | some m =>
    rw [lower_of_found found]
    have change (m' : MethodDraft) (uses : List FieldUse) : (c.setMethod index m').useFields uses =
        c.run (.changeMethod index (fun _ => m') :: uses.map fun use =>
          .addField ⟨use.name, use.type, use.isStatic, []⟩) := by
      have inside := (List.getElem?_eq_some_iff.mp found).1
      show _ = (c.attempt _).run _
      rw [run_addFields]
      simp [attempt, apply, inside, setMethod, modifyMethod, List.set_eq_modify]
    exact ⟨_, change _ _⟩

/-- Operations on a class or an interface, in any order: refused ones change nothing; the header is
    written once, by the first member, from the values that hold then; each field has its first
    declaration; and the text has the header, the fields and the methods. -/
theorem runs_of_class_drafts (style : Style) (sourceName : String) (defaultPackage : Option String)
    (name : String) (shape : Shape) (interfaces : List JavaType) (ops : List Op) :
    let start := ClassDraft.new style sourceName defaultPackage name shape interfaces
    let c := start.run ops
    let header := unlines (start.headerOf (prelude start ops)).headerLines
    let fields := fieldsOf ops
    let fieldLines := shift style.indent (unlines (fields.flatMap FieldDecl.lines))
    (∀ before op after fault, ops = before ++ op :: after →
      ((start.run before).apply op = .error fault ↔ Refused (start.run before) op fault) ∧
        ((start.run before).apply op = .error fault → c = start.run (before ++ after))) ∧
      (c.isSealed = true ↔ (prelude start ops).length < ops.length) ∧
      c.out.text = (if c.isSealed then header ++ fieldLines else "") ∧
      (fields.map FieldDecl.name).Nodup ∧
      (∀ name, fields.find? (·.name = name) = (ops.filterMap Op.field?).find? (·.name = name)) ∧
      c.methods = methodsOf start ops ∧
      ((∀ m ∈ c.methods, WholeLines m.out.text) →
        c.text = header ++ "\n".intercalate ((if fields.isEmpty then [] else [fieldLines]) ++
          c.methods.map fun m => shift style.indent m.out.text) ++ "\x7d\n") ∧
      ∀ (α : Type) (index : Nat) (loops : List EnclosingLoop) (code : Lower α),
        ∃ more, (c.lower index loops code).2 = start.run (ops ++ more) := by
  intro start c header fields fieldLines
  have styled : start.style = style := by simp [start, ClassDraft.new]
  have reached : Reached start ops c :=
    reached_run (isNew_new style sourceName defaultPackage name shape interfaces) ops
  clear_value start
  subst styled
  refine ⟨?_, ?_, ?_, ?_, ?_, reached.methods, ?_, ?_⟩
  · rintro before op after fault split
    refine ⟨apply_eq_error_iff, fun applied => ?_⟩
    have first : before ++ op :: after = before ++ ([op] ++ after) := rfl
    rw [show c = start.run ops from rfl, split, first, run_append, run_append, run_append]
    exact congrArg (run · after) (attempt_of_error applied)
  · cases sealed : c.isSealed with
    | true => exact iff_of_true rfl (reached.sealed sealed).1
    | false =>
      refine iff_of_false (by decide) ?_
      rw [(reached.unsealed sealed).1]
      exact Nat.lt_irrefl _
  · cases sealed : c.isSealed with
    | true => exact congrArg Text.Buffer.text (reached.sealed sealed).2
    | false =>
      rw [(reached.unsealed sealed).2]
      exact congrArg Text.Buffer.text reached.new.out
  · exact nodup_firstDeclared _
  · exact find?_firstDeclared _
  · exact reached.text
  · intro α index loops code
    obtain ⟨more, same⟩ := lower_eq_run c index loops code
    exact ⟨more, by rw [same, run_append]⟩

/-- Every operation on the header, two of them twice, a package that comes too late, a field that is
    declared twice, and a method without code. -/
def fieldAndMethod : List Op :=
  [.setPackage "org", .setSuperclass (.reference "B"), .setAbstract true, .addInterface (.reference "I"),
    .annotate (.mk "Mark" []), .setSuperclass (.reference "C"), .addInterface (.reference "J"),
    .addField ⟨"x", .int, false, []⟩, .setPackage "late", .addField ⟨"x", .long, true, []⟩,
    .addMethod "f" [] .void [], .changeMethod 0 MethodDraft.start, .changeMethod 0 MethodDraft.stop]

theorem runs_of_fieldAndMethod :
    let start := ClassDraft.new {} "a.mirah" none "A" (.classType .object false) []
    (start.run (fieldAndMethod.take 8)).apply (.setPackage "late") = .error (.headerSealed "A" .package) ∧
      prelude start fieldAndMethod = fieldAndMethod.take 7 ∧
      (start.run fieldAndMethod).text =
        "// Generated from a.mirah\npackage org;\n\n@Mark\n" ++
          "public abstract class A extends C implements I, J \x7b\n" ++
          "  private int x;\n\n  public void f() \x7b\n  \x7d\n\x7d\n" := by
  intro start
  have ⟨refused, _, _, _, _, methods, text, _⟩ := runs_of_class_drafts {} "a.mirah" none "A"
    (.classType .object false) [] fieldAndMethod
  refine ⟨?_, rfl, ?_⟩
  · exact (refused (fieldAndMethod.take 8) (.setPackage "late") (fieldAndMethod.drop 9) _ rfl).1.mpr
      (.header rfl rfl)
  · rw [text]
    · decide +kernel
    · rw [methods]
      exact List.forall_mem_singleton.mpr (.inr (by decide))

end ClassDraft

end JavaBackend
