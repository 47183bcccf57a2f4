import JavaBackend.Proofs.Layout.Statements
import JavaBackend.Proofs.Unit.Bodies
import JavaBackend.Proofs.Unit.Independence

/-!
# The layout of sources

The lines of a class stand at the levels of the blocks around them: the header and the fields as they
are written, the methods as they are spliced in. `indentation_tracks_blocks` says so for every source
of a compiled unit.
-/

namespace JavaBackend

open Java (Stmt Code Piece Expr)
open Java.Stmt Lower

/-! ## Lines that open no block -/

/-- A line that neither opens a block nor closes one, or an empty one. -/
structure PlainLine (text : String) : Prop where
  whole : '\n' ∉ text.toList
  plain : text = "" ∨
    Line.startsPlain text.toList = true ∧ text.toList.getLast? ≠ some '\x7b'

/-- A line that starts and ends with fixed text. -/
theorem PlainLine.of_ends {first middle last : String} (whole : '\n' ∉ middle.toList)
    (starts : Line.startsPlain first.toList = true ∧ '\n' ∉ first.toList)
    (ends : last.toList.getLast? = some ';' ∧ '\n' ∉ last.toList) :
    PlainLine (first ++ (middle ++ last)) := by
  refine ⟨by simp [whole, starts.2, ends.2], .inr ⟨?_, ?_⟩⟩
  · rw [String.toList_append]
    exact startsPlain_append starts.1 _
  · rw [← String.append_assoc, getLast?_back _ ends.1]
    decide

/-- Plain lines at one level. -/
def plainLines (level : Nat) (texts : List String) : List Line :=
  texts.map fun text => ⟨level, text.toList⟩

theorem nested_plainLines {texts : List String} (plain : ∀ text ∈ texts, PlainLine text) (d : Nat) :
    Nested d (plainLines d texts) d := by
  induction texts with
  | nil => exact .nil
  | cons text rest ih =>
    obtain ⟨first, others⟩ := List.forall_mem_cons.mp plain
    rcases first.plain with rfl | ⟨starts, last⟩
    · exact .blank (ih others)
    · exact .plain starts last (ih others)

namespace Text.Buffer

theorem Holds.putLines {b : Buffer} {lines : List Line} {level : Nat} (holds : b.Holds lines level)
    {texts : List String} (whole : ∀ text ∈ texts, '\n' ∉ text.toList) :
    (b.putLines texts).Holds (lines ++ plainLines level texts) level := by
  induction texts generalizing b lines with
  | nil => rwa [plainLines, List.map_nil, List.append_nil]
  | cons text rest ih =>
    obtain ⟨first, others⟩ := List.forall_mem_cons.mp whole
    have next := ih (holds.putLine first) others
    rwa [List.append_assoc] at next

end Text.Buffer

theorem step_layPiece (b : Text.Buffer) (piece : Piece) : (layPiece b piece).step = b.step := by
  cases piece <;> simp [layPiece, Text.Buffer.indent, Text.Buffer.dedent]

/-! ## Annotations -/

mutual

/-- The names in an annotation can stand as names. -/
def AnnotationUse.Tidy : AnnotationUse → Prop
  | .mk name values => Unbroken name ∧ ElementValue.BindingsTidy values

def ElementValue.BindingsTidy : List (String × ElementValue) → Prop
  | [] => True
  | (key, value) :: rest => Unbroken key ∧ value.Tidy ∧ ElementValue.BindingsTidy rest

def ElementValue.Tidy : ElementValue → Prop
  | .int _ | .str _ => True
  | .array items => ElementValue.ItemsTidy items
  | .type value => value.Tidy
  | .nested value => value.Tidy

def ElementValue.ItemsTidy : List ElementValue → Prop
  | [] => True
  | item :: rest => item.Tidy ∧ ElementValue.ItemsTidy rest

end

theorem break_not_mem_intercalate {texts : List String}
    (whole : ∀ text ∈ texts, '\n' ∉ text.toList) : '\n' ∉ (", ".intercalate texts).toList := by
  rw [← see_breakReading, breakReading.see_intercalate (by decide), List.flatMap_eq_nil_iff]
  exact fun text mem => see_breakReading.mpr (whole text mem)

theorem unbroken_annotationName {name : String} (unbroken : Unbroken name) :
    Unbroken (mapChars (fun c => if c = '/' ∨ c = '$' then '.' else c) name) :=
  unbroken.mapChars fun c => by split <;> simp

mutual

/-- Annotations do not break their lines: texts in them are quoted. -/
theorem AnnotationUse.break_not_mem_source : (use : AnnotationUse) → use.Tidy →
    '\n' ∉ use.source.toList
  | .mk name values, tidy => by
    have named := (unbroken_annotationName tidy.1).break_not_mem
    have bound := break_not_mem_intercalate (ElementValue.break_not_mem_bindings values tidy.2)
    cases values with
    | nil => simpa [AnnotationUse.source] using named
    | cons value rest =>
      rw [AnnotationUse.source, ← see_breakReading, breakReading.see_back (by decide),
        see_breakReading]
      simp only [String.toList_append, List.mem_append, not_or]
      exact ⟨⟨⟨by decide, named⟩, by decide⟩, bound⟩

theorem ElementValue.break_not_mem_bindings : (values : List (String × ElementValue)) →
    ElementValue.BindingsTidy values → ∀ text ∈ ElementValue.bindings values, '\n' ∉ text.toList
  | [], _ => List.forall_mem_nil _
  | (key, value) :: rest, tidy => by
    have named := Unbroken.break_not_mem tidy.1
    have bound := ElementValue.break_not_mem_source value tidy.2.1
    refine List.forall_mem_cons.mpr ⟨?_, ElementValue.break_not_mem_bindings rest tidy.2.2⟩
    simp [named, bound]

theorem ElementValue.break_not_mem_source : (value : ElementValue) → value.Tidy →
    '\n' ∉ value.source.toList
  | .int value, _ => Literal.break_not_mem_source (show (Literal.int value).Tidy from trivial)
  | .str value, _ => Literal.break_not_mem_source (show (Literal.str value).Tidy from trivial)
  | .array items, tidy => by
    have bound := break_not_mem_intercalate (ElementValue.break_not_mem_sources items tidy)
    simp only [ElementValue.source, String.toList_append, List.mem_append, not_or]
    exact ⟨⟨by decide, bound⟩, by decide⟩
  | .type value, tidy => Literal.break_not_mem_source (show (Literal.type value).Tidy from tidy)
  | .nested value, tidy => AnnotationUse.break_not_mem_source value tidy

theorem ElementValue.break_not_mem_sources : (items : List ElementValue) →
    ElementValue.ItemsTidy items → ∀ text ∈ ElementValue.sources items, '\n' ∉ text.toList
  | [], _ => List.forall_mem_nil _
  | item :: rest, tidy => List.forall_mem_cons.mpr
    ⟨ElementValue.break_not_mem_source item tidy.1, ElementValue.break_not_mem_sources rest tidy.2⟩

end

theorem AnnotationUse.plainLine {use : AnnotationUse} (tidy : use.Tidy) : PlainLine use.source := by
  refine ⟨use.break_not_mem_source tidy, .inr ?_⟩
  obtain ⟨name, values⟩ := use
  have named := unbroken_annotationName tidy.1
  cases values with
  | nil =>
    refine ⟨by simp [AnnotationUse.source, Line.startsPlain], fun last => ?_⟩
    have mem := List.mem_of_getLast? last
    rw [AnnotationUse.source, String.toList_append, List.mem_append] at mem
    rcases mem with mem | mem
    · exact absurd mem (by decide)
    · exact named _ mem (by decide)
  | cons value rest =>
    refine ⟨by simp [AnnotationUse.source, Line.startsPlain], ?_⟩
    have last : (")".toList).getLast? = some ')' := by decide
    rw [AnnotationUse.source, getLast?_back _ last]
    decide

/-! ## Methods -/

section

variable {decl : MethodDecl} {ctx : Context} {p p' : Progress} {code : Code}

theorem Delegates.setsMembers {kind : MethodKind} (delegates : Delegates ctx p kind code p') :
    CodeSetsMembers code := by
  cases delegates with
  | none => trivial
  | call operands => simpa [CodeSetsMembers, SetsMembers] using operands.setsMembers.1

theorem Declares.setsMembers {locals : List Param} (declares : Declares locals p code p') :
    CodeSetsMembers code := by
  induction declares with
  | nil => trivial
  | known _ _ ih => exact ih
  | new _ _ ih => exact ⟨trivial, ih⟩

theorem MethodDecl.setsMembers (ends : Ends decl.lower ctx p code () p') : CodeSetsMembers code := by
  obtain ⟨opening, declared, rest, p₁, p₂, rfl, delegates, declares, lowers⟩ := derives ends
  simpa using ⟨delegates.setsMembers, declares.setsMembers, lowers.setsMembers.1⟩

end

/-- The text of a method is nested lines. -/
structure MethodDraft.Laid (step : Nat) (m : MethodDraft) : Prop where
  width : m.out.step = step
  lines : ∃ lines, m.out.Holds lines 0 ∧ Nested 0 lines 0

/-- A method whose pieces are nested is laid out with no block closed too much. -/
theorem MethodDraft.laid_of_tracks {step : Nat} {m : MethodDraft} {body : Option Code}
    (tracks : Tracks 0 (methodPieces m.signature body) 0)
    (out : m.out = (methodPieces m.signature body).foldl layPiece (.ofStep step)) :
    m.Laid step ∧ (methodPieces m.signature body).foldlM layPiece? (.ofStep step) = some m.out := by
  obtain ⟨lines, nested, laid⟩ := tracks
  obtain ⟨checked, holds⟩ := laid _ _ (.empty step)
  rw [← out] at checked holds
  refine ⟨⟨?_, lines, holds, nested⟩, checked⟩
  rw [out, Text.Buffer.foldl_keeps Text.Buffer.step step_layPiece]
  rfl

/-- Words that do not break the line. -/
def Word.Whole (word : Word) : Prop := '\n' ∉ word.text.toList

theorem startsPlain_signature (s : Signature) : Line.startsPlain s.source.toList = true := by
  obtain ⟨rest, eq⟩ := s.source_eq
  rw [eq, String.toList_append]
  exact startsPlain_append (by decide) _

theorem MethodDecl.Finished.laid {decl : MethodDecl} {c : ClassDraft} {m : MethodDraft}
    {body : Option Code} {uses : List FieldUse} (finished : decl.Finished c m body uses)
    (tidy : decl.Over Word.Tidy) (owner : Unbroken c.simpleName) :
    (m.Laid c.style.indent ∧
      (methodPieces m.signature body).foldlM layPiece? (.ofStep c.style.indent) = some m.out) ∧
      ∀ use ∈ uses, IsName use.name ∧ use.type.Tidy := by
  have heading : '\n' ∉ m.signature.source.toList := by
    have same : m.signature = decl.signature c := by cases finished <;> assumption
    have whole : decl.Over Word.Whole := tidy.mono fun word tidy => tidy.break_not_mem
    rw [same, ← see_breakReading, breakReading.see_signature, List.flatMap_eq_nil_iff]
    intro word mem
    exact see_breakReading.mpr
      (over_signature whole owner.break_not_mem (by decide : '\n' ∉ "void".toList) word mem)
  have starts := startsPlain_signature m.signature
  cases finished with
  | sealed _ out =>
    refine ⟨MethodDraft.laid_of_tracks (.line ?_ ?_ ?_) out, List.forall_mem_nil _⟩
    · simpa using heading
    · rw [String.toList_append]
      exact startsPlain_append starts _
    · rw [getLast?_back _ (show ";".toList.getLast? = some ';' by decide)]
      decide
  | @closed code p' _ ends out =>
    have around : OverAll Word.Tidy (Context.words
        ⟨c.simpleName, m.signature.isStatic, m.signature.returns, []⟩) :=
      OverAll.cons_iff.mpr ⟨owner, .nil⟩
    have made := made Word.closed_tidy ends around tidy (List.forall_mem_nil _)
    have inside := tracks_codePieces 1 code made.code (setsMembers ends)
    exact ⟨MethodDraft.laid_of_tracks (.block (.opening heading (.inr starts)) inside) out,
      made.fields⟩

/-! ## Classes -/

/-- The superclass is spelled by names. -/
def Shape.Tidy : Shape → Prop
  | .classType superclass _ => superclass.Tidy
  | .interface => True

namespace ClassDraft

/-- What the header of a class shows keeps to its lines. -/
structure TidyHeader (c : ClassDraft) : Prop where
  sourceName : '\n' ∉ c.sourceName.toList ∧ c.sourceName.toList.getLast? ≠ some '\x7b'
  package : ∀ package ∈ c.package, Unbroken package
  simpleName : Unbroken c.simpleName
  shape : c.shape.Tidy
  interfaces : ∀ type ∈ c.interfaces, type.Tidy
  annotations : ∀ use ∈ c.annotations, use.Tidy

/-- The level of the lines to come: members stand inside the class. -/
def level (c : ClassDraft) : Nat := if c.isSealed then 1 else 0

/-- What is written of a class is nested lines, with levels of `step` spaces. -/
structure Laid (step : Nat) (c : ClassDraft) : Prop extends TidyHeader c where
  indent : c.style.indent = step
  width : c.out.step = step
  lines : ∃ lines, c.out.Holds lines c.level ∧ Nested 0 lines c.level
  methods : ∀ m ∈ c.methods, m.Laid step

theorem break_not_mem_sources {types : List JavaType} (tidy : ∀ type ∈ types, type.Tidy) :
    '\n' ∉ (", ".intercalate (types.map JavaType.source)).toList :=
  break_not_mem_intercalate (List.forall_mem_map.mpr fun type mem =>
    (JavaType.isName_source (tidy type mem)).unbroken.break_not_mem)

namespace TidyHeader

variable {c : ClassDraft}

/-- Members do not change the header. -/
theorem members (tidy : c.TidyHeader) {out : Text.Buffer} {fields : List String}
    {methods : List MethodDraft} {isSealed : Bool} : TidyHeader
      { c with out := out, fields := fields, methods := methods, isSealed := isSealed } :=
  ⟨tidy.sourceName, tidy.package, tidy.simpleName, tidy.shape, tidy.interfaces, tidy.annotations⟩

theorem plain_sourceName (tidy : c.TidyHeader) : PlainLine ("// Generated from " ++ c.sourceName) := by
  obtain ⟨whole, last⟩ := tidy.sourceName
  refine ⟨by simpa using whole, .inr ⟨by simp [Line.startsPlain], ?_⟩⟩
  rw [String.toList_append, List.getLast?_append]
  cases found : c.sourceName.toList.getLast? with
  | none => decide
  | some c => simpa [found] using last

/-- The lines in front of the one that opens the class. -/
theorem plain_front (tidy : c.TidyHeader) :
    ∃ front, c.headerLines = front ++ [c.heading] ∧ ∀ text ∈ front, PlainLine text := by
  refine ⟨_, rfl, ?_⟩
  simp only [List.forall_mem_append]
  refine ⟨⟨?_, ?_⟩, List.forall_mem_map.mpr fun use mem => AnnotationUse.plainLine (tidy.annotations use mem)⟩
  · split
    · exact List.forall_mem_singleton.mpr tidy.plain_sourceName
    · exact List.forall_mem_nil _
  · cases named : c.package with
    | none => exact List.forall_mem_nil _
    | some package =>
      have whole := (tidy.package package named).break_not_mem
      refine List.forall_mem_cons.mpr ⟨?_, List.forall_mem_singleton.mpr ⟨by decide, .inl rfl⟩⟩
      rw [String.append_assoc]
      exact .of_ends whole (by decide) (by decide)

theorem break_not_mem_list (tidy : c.TidyHeader) {keyword : String} (whole : '\n' ∉ keyword.toList) :
    '\n' ∉ (match c.interfaces with
      | [] => ""
      | _ :: _ => keyword ++ ", ".intercalate (c.interfaces.map JavaType.source)).toList := by
  have sources := break_not_mem_sources tidy.interfaces
  split
  · decide
  · rw [String.toList_append, List.mem_append, not_or]
    exact ⟨whole, sources⟩

theorem break_not_mem_heading (tidy : c.TidyHeader) : '\n' ∉ c.heading.toList := by
  have named := tidy.simpleName.break_not_mem
  have shaped := tidy.shape
  cases shape : c.shape with
  | interface =>
    simp only [heading, shape, String.toList_append, List.mem_append, not_or]
    exact ⟨⟨⟨by decide, named⟩, tidy.break_not_mem_list (by decide)⟩, by decide⟩
  | classType superclass isAbstract =>
    rw [shape] at shaped
    have based := (JavaType.isName_source shaped).unbroken.break_not_mem
    have marked : '\n' ∉ (if isAbstract then "abstract " else "").toList := by
      cases isAbstract <;> decide
    simp only [heading, shape, String.toList_append, List.mem_append, not_or]
    exact ⟨⟨⟨⟨⟨⟨⟨by decide, marked⟩, by decide⟩, named⟩, by decide⟩, based⟩,
      tidy.break_not_mem_list (by decide)⟩, by decide⟩

end TidyHeader

theorem startsPlain_heading (c : ClassDraft) : Line.startsPlain c.heading.toList = true := by
  cases shape : c.shape <;> simp [heading, shape, Line.startsPlain]

theorem getLast?_heading (c : ClassDraft) : c.heading.toList.getLast? = some '\x7b' := by
  cases shape : c.shape <;>
  · simp only [heading, shape]
    exact Tracks.getLast?_brace _

/-! ### Steps -/

namespace Laid

variable {step : Nat} {c : ClassDraft}

/-- The header is nested lines, at the end of which one block is open. -/
theorem sealHeader (laid : c.Laid step) : c.sealHeader.Laid step ∧ c.sealHeader.isSealed = true := by
  unfold ClassDraft.sealHeader
  split
  · next isSealed => exact ⟨laid, isSealed⟩
  · next unsealed =>
    obtain ⟨front, lines, plain⟩ := laid.plain_front
    have whole : ∀ text ∈ c.headerLines, '\n' ∉ text.toList := by
      rw [lines]
      exact List.forall_mem_append.mpr ⟨fun text mem => (plain text mem).whole,
        List.forall_mem_singleton.mpr laid.break_not_mem_heading⟩
    have none : c.level = 0 := if_neg unsealed
    obtain ⟨before, holds, nested⟩ := laid.lines
    rw [none] at holds nested
    have opened : Nested 0 (plainLines 0 c.headerLines) 1 := by
      rw [lines, plainLines, List.map_append]
      exact (nested_plainLines plain 0).append
        (.opening c.startsPlain_heading c.getLast?_heading .nil)
    refine ⟨⟨laid.members, laid.indent, ?_, ⟨_, (holds.putLines whole).indent, nested.append opened⟩,
      laid.methods⟩, rfl⟩
    exact (c.out.step_putLines _).trans laid.width

/-- The lines of a field stand inside the class. -/
theorem addField (laid : c.Laid step) {name : String} {type : JavaType} (isStatic : Bool)
    {annotations : List AnnotationUse} (named : IsName name) (typed : type.Tidy)
    (marked : ∀ use ∈ annotations, use.Tidy) :
    (c.addField name type isStatic annotations).2.Laid step := by
  unfold ClassDraft.addField
  split
  · exact laid
  · obtain ⟨laid, isSealed⟩ := laid.sealHeader
    have plain : ∀ text ∈ annotations.map AnnotationUse.source ++ ["private " ++
        (if isStatic then "static " else "") ++ type.source ++ " " ++ name ++ ";"],
        PlainLine text := by
      refine List.forall_mem_append.mpr ⟨List.forall_mem_map.mpr fun use mem =>
        AnnotationUse.plainLine (marked use mem), List.forall_mem_singleton.mpr ?_⟩
      have shown := (JavaType.isName_source typed).unbroken.break_not_mem
      have whole : '\n' ∉ ((if isStatic then "static " else "") ++
          (type.source ++ (" " ++ name))).toList := by
        simp only [String.toList_append, List.mem_append, not_or]
        exact ⟨by cases isStatic <;> decide, shown, by decide, named.unbroken.break_not_mem⟩
      have line : PlainLine ("private " ++ (_ ++ ";")) :=
        PlainLine.of_ends whole (by decide) (by decide)
      simpa only [String.append_assoc] using line
    have one : c.sealHeader.level = 1 := if_pos isSealed
    obtain ⟨before, holds, nested⟩ := laid.lines
    rw [one] at holds nested
    have written := holds.putLines fun text mem => (plain text mem).whole
    have nests := nested.append (nested_plainLines plain 1)
    rw [← one] at written nests
    refine ⟨laid.members, laid.indent, ?_, ⟨_, written, nests⟩, laid.methods⟩
    exact (c.sealHeader.out.step_putLines _).trans laid.width

theorem withMethod (laid : c.Laid step) {m : MethodDraft} (method : m.Laid step) :
    (c.withMethod m).Laid step := by
  obtain ⟨opened, -⟩ := laid.sealHeader
  exact ⟨opened.members, opened.indent, opened.width, opened.lines,
    List.forall_mem_append.mpr ⟨laid.methods, List.forall_mem_singleton.mpr method⟩⟩

theorem useFields (laid : c.Laid step) {uses : List FieldUse}
    (tidy : ∀ use ∈ uses, IsName use.name ∧ use.type.Tidy) : (c.useFields uses).Laid step :=
  List.foldlRecOn uses _ laid fun _ laid use mem =>
    laid.addField use.isStatic (tidy use mem).1 (tidy use mem).2 (List.forall_mem_nil _)

end Laid

/-! ### The whole text -/

/-- Methods are spliced in at the level of the buffer. -/
theorem holds_appendMethods {step : Nat} {methods : List MethodDraft} {out : Text.Buffer}
    {lines : List Line} (separate : Bool) (holds : out.Holds lines 1) (nested : Nested 0 lines 1)
    (width : out.step = step) (laid : ∀ m ∈ methods, m.Laid step) :
    ∃ lines, (appendMethods out separate methods).Holds lines 1 ∧ Nested 0 lines 1 ∧
      (appendMethods out separate methods).step = step := by
  induction methods generalizing out lines separate with
  | nil => exact ⟨lines, holds, nested, width⟩
  | cons m rest ih =>
    obtain ⟨first, others⟩ := List.forall_mem_cons.mp laid
    obtain ⟨inside, text, nests⟩ := first.lines
    -- An empty line parts the method from what stands in front of it.
    obtain ⟨before, parted, nested, width⟩ : ∃ lines,
        (if separate then out.putLine "" else out).Holds lines 1 ∧ Nested 0 lines 1 ∧
          (if separate then out.putLine "" else out).step = step := by
      split
      · exact ⟨_, holds.putLine (by decide), nested.append (.blank .nil),
          (out.step_putLine "").trans width⟩
      · exact ⟨lines, holds, nested, width⟩
    exact ih true (parted.append text (first.width.trans width.symm))
      (nested.append (nests.deeper 1)) ((Text.Buffer.step_append _ _).trans width) others

/-- The text of a class up to the brace that ends it. -/
def members (c : ClassDraft) : Text.Buffer :=
  appendMethods c.sealHeader.out (!c.sealHeader.fields.isEmpty) c.sealHeader.methods

theorem text_eq (c : ClassDraft) : c.text = (c.members.dedent.putLine "\x7d").text := rfl

/-- The depth that is read off the text of a class is zero at its end, and the last block is closed
    where there is a step to take back. -/
theorem Laid.trackDepth_text {step : Nat} {c : ClassDraft} (laid : c.Laid step) :
    trackDepth step 0 (textLines c.text.toList) = some 0 ∧
      c.members.step ≤ c.members.depth := by
  obtain ⟨opened, isSealed⟩ := laid.sealHeader
  obtain ⟨before, holds, nested⟩ := opened.lines
  have one : c.sealHeader.level = 1 := if_pos isSealed
  rw [one] at holds nested
  obtain ⟨lines, all, nests, width⟩ :=
    holds_appendMethods (!c.sealHeader.fields.isEmpty) holds nested opened.width opened.methods
  have ended := all.dedent.putLine (show '\n' ∉ "\x7d".toList by decide)
  have tracked := ended.trackDepth (nests.append (.closing (by decide) .nil))
  rw [Text.Buffer.step_putLine] at tracked
  rw [text_eq, ← width]
  exact ⟨tracked, Tracks.deep_enough all⟩

end ClassDraft

/-! ## Units -/

/-- The names in a declared type can stand as names. -/
structure TypeDecl.Tidy (decl : TypeDecl) : Prop where
  name : IsName decl.name
  superclass : ∀ superclass isAbstract, decl.kind = .classType (some superclass) isAbstract →
    superclass.Tidy
  interfaces : ∀ type ∈ decl.interfaces, type.Tidy
  annotations : ∀ use ∈ decl.annotations, use.Tidy
  fields : ∀ field ∈ decl.fields,
    IsName field.name ∧ field.type.Tidy ∧ ∀ use ∈ field.annotations, use.Tidy
  methods : ∀ method ∈ decl.methods, method.Over Word.Tidy

/-- The names in a unit can stand as names, and the name of its source keeps to its line. -/
structure CompilationUnit.Tidy (unit : CompilationUnit) : Prop where
  sourceName : '\n' ∉ unit.sourceName.toList ∧ unit.sourceName.toList.getLast? ≠ some '\x7b'
  package : ∀ package ∈ unit.package, IsName package
  types : ∀ type ∈ unit.types, type.Tidy

/-- The parts of a qualified name are made of its characters. -/
theorem unbroken_splitName {name : String} (unbroken : Unbroken name) :
    (∀ package ∈ (splitName name).1, Unbroken package) ∧ Unbroken (splitName name).2 := by
  have chars : ∀ c ∈ (dotted name).toList.reverse, c ∉ [' ', '\n', '\x7b', '\x7d'] := by
    have shown : Unbroken (dotted name) := unbroken.mapChars fun c => by split <;> simp
    exact fun c mem => shown c (List.mem_reverse.mp mem)
  unfold splitName
  generalize (dotted name).toList.reverse = reversed at chars
  have simple : Unbroken (String.ofList (reversed.takeWhile (· != '.')).reverse) := by
    intro c mem
    rw [String.toList_ofList, List.mem_reverse] at mem
    exact chars c ((List.takeWhile_prefix _).subset mem)
  have behind : ∀ c ∈ reversed.dropWhile (· != '.'), c ∉ [' ', '\n', '\x7b', '\x7d'] :=
    fun c mem => chars c ((List.dropWhile_suffix _).subset mem)
  dsimp only
  cases rest : reversed.dropWhile (· != '.') with
  | nil => exact ⟨nofun, simple⟩
  | cons first package =>
    rw [rest] at behind
    refine ⟨?_, simple⟩
    rintro _ ⟨⟩ c mem
    rw [String.toList_ofList, List.mem_reverse] at mem
    exact behind c (List.mem_cons_of_mem first mem)

theorem TypeDecl.Tidy.shape {decl : TypeDecl} (tidy : decl.Tidy) : decl.shape.Tidy := by
  unfold TypeDecl.shape
  cases kind : decl.kind with
  | interface => trivial
  | classType superclass isAbstract =>
    cases superclass with
    | none => exact (by decide : IsName JavaType.objectName)
    | some superclass => exact tidy.superclass superclass isAbstract kind

/-- The draft of a compiled type is nested lines. -/
theorem TypeDecl.Tidy.laid {decl : TypeDecl} (tidy : decl.Tidy) {u : UnitDraft}
    (sourceName : '\n' ∉ u.sourceName.toList ∧ u.sourceName.toList.getLast? ≠ some '\x7b')
    (package : ∀ package ∈ u.package, Unbroken package) {c : ClassDraft}
    (ok : decl.draft u = .ok c) : c.Laid u.style.indent := by
  have keeps : decl.Keeps (ClassDraft.Laid u.style.indent) :=
    { annotate := fun use mem c laid =>
        { laid with
          annotations := List.forall_mem_append.mpr ⟨laid.annotations,
            List.forall_mem_singleton.mpr (tidy.annotations use mem)⟩ }
      addField := fun field mem c laid =>
        have ⟨named, typed, marked⟩ := tidy.fields field mem
        laid.addField field.isStatic named typed marked
      addMethod := fun method mem c m body uses laid finished =>
        have ⟨⟨text, _⟩, fields⟩ := finished.laid (tidy.methods method mem) laid.simpleName
        (laid.withMethod (laid.indent ▸ text)).useFields fields }
  obtain ⟨qualified, simple⟩ := unbroken_splitName tidy.name.unbroken
  refine draft_keeps keeps ?_ ok
  have packaged : ∀ package ∈ ((splitName decl.name).1 <|> u.package), Unbroken package := by
    cases named : (splitName decl.name).1 with
    | none => simpa [named] using package
    | some own => simpa [named] using qualified
  simp only [UnitDraft.newType, ClassDraft.new]
  generalize splitName decl.name = split at *
  exact ⟨⟨sourceName, packaged, simple, tidy.shape, tidy.interfaces, List.forall_mem_nil _⟩, rfl, rfl,
    ⟨[], .empty _, .nil⟩, List.forall_mem_nil _⟩

/-- In every source of a compiled unit the indentation of the lines is the depth of the blocks around
    them: the depth that is followed by the braces at the ends of lines is never negative, is what
    each line is indented by, and is zero at the end. No block is closed where less than a step of
    indentation is left. Constants may hold any text. -/
theorem indentation_tracks_blocks {unit : CompilationUnit} {style : Style}
    {artifacts : List Artifact} (ok : unit.compile style = .ok artifacts) (tidy : unit.Tidy) :
    (∀ artifact ∈ artifacts,
      trackDepth style.indent 0 (textLines artifact.text.toList) = some 0) ∧
    ∃ u, unit.draft style = .ok u ∧ artifacts = u.artifacts ∧ ∀ c ∈ u.classes,
      (∃ type ∈ unit.types, type.Bodies (unit.begun style) c fun _ m body =>
        (methodPieces m.signature body).foldlM layPiece? (.ofStep style.indent) = some m.out) ∧
      c.members.step ≤ c.members.depth := by
  obtain ⟨u, drafted, rfl⟩ := CompilationUnit.compile_ok ok
  have laid : ∀ c ∈ u.classes, c.Laid style.indent := by
    intro c mem
    obtain ⟨decl, declared, start, ⟨source, package, rfl⟩, done⟩ :=
      CompilationUnit.draft_ok drafted c mem
    refine (tidy.types decl declared).laid (source ▸ tidy.sourceName) ?_ done
    rw [package]
    exact fun package mem => (tidy.package package mem).unbroken
  refine ⟨List.forall_mem_map.mpr fun c mem => (laid c mem).trackDepth_text.1, u, drafted, rfl,
    fun c mem => ⟨?_, (laid c mem).trackDepth_text.2⟩⟩
  obtain ⟨type, declared, start, ⟨source, package, styled⟩, done⟩ :=
    CompilationUnit.draft_ok drafted c mem
  have same : type.draft start = type.draft (unit.begun style) :=
    CompilationUnit.draft_congr type source package styled
  refine ⟨type, declared, type.bodies_of_draft (same ▸ done) fun method mine m body uses finished => ?_⟩
  have names := tidy.types type declared
  obtain ⟨⟨-, checked⟩, -⟩ := finished.laid (names.methods method mine)
    (by simpa using (unbroken_splitName names.name.unbroken).2)
  rwa [UnitDraft.newType_style] at checked

/-- An annotated class with a field, a constructor that calls another one, and a loop that is run
    again. Its texts hold braces and line breaks. -/
def bracedUnit : CompilationUnit :=
  let text : Tree := .node (.literal (.str "\x7d\n\x7b")) .string
  let log : Tree := .node (.call .implicit "log" [text] .void) .void
  let more : Tree := .node (.var "more") .boolean
  let branch : Tree := .node (.cond more (some log) (some (.node (.jump .redo) .void))) .void
  let loop : Tree := .node (.loop ⟨more, true, false, some branch, true, none, none, none⟩) .void
  let run : MethodDecl :=
    ⟨"run", .member, [⟨"more", .boolean⟩], .void, [], [], some (.node (.ensure loop log) .void)⟩
  let init : MethodDecl :=
    ⟨"A", .constructor (some ⟨true, [text]⟩), [], .void, [.reference "java.io.IOException"], [], none⟩
  let mark : AnnotationUse := .mk "org/test/Mark" [("value", .array [.str "\n\x7b", .int 3])]
  ⟨"a.mirah", none, [⟨"org.test.A", .classType none true, [.reference "org.test.B"], [mark],
    [⟨"count", .int, true, [mark]⟩], [init, run]⟩]⟩

theorem bracedUnit_indented :
    bracedUnit.Tidy ∧ ∃ artifacts, bracedUnit.compile ⟨3, true, "java"⟩ = .ok artifacts ∧
      artifacts.length = 1 ∧ ∀ artifact ∈ artifacts,
        trackDepth 3 0 (textLines artifact.text.toList) = some 0 := by
  have marked : (AnnotationUse.mk "org/test/Mark"
      [("value", .array [.str "\n\x7b", .int 3])]).Tidy := by
    simp only [AnnotationUse.Tidy, ElementValue.BindingsTidy, ElementValue.Tidy, ElementValue.ItemsTidy]
    decide
  have string : JavaType.string.Tidy := (by decide : IsName "java.lang.String")
  have tidy : bracedUnit.Tidy := by
    refine ⟨by decide, nofun, List.forall_mem_singleton.mpr ⟨by decide, nofun, ?_, ?_, ?_, ?_⟩⟩
    · exact List.forall_mem_singleton.mpr (by decide : IsName "org.test.B")
    · exact List.forall_mem_singleton.mpr marked
    · exact List.forall_mem_singleton.mpr
        ⟨by decide, trivial, List.forall_mem_singleton.mpr marked⟩
    · refine List.forall_mem_cons.mpr ⟨⟨?_, nofun, trivial, ?_, nofun, ?_, nofun⟩,
        List.forall_mem_singleton.mpr ⟨?_, ?_, trivial, nofun, nofun, nofun, ?_⟩⟩
      · exact (by decide : IsName "A")
      · exact List.forall_mem_singleton.mpr (by decide : IsName "java.io.IOException")
      · refine List.forall_mem_singleton.mpr (Tree.over_node.mpr ⟨string, ?_, nofun⟩)
        exact OverAll.cons_iff.mpr ⟨trivial, .nil⟩
      · exact (by decide : IsName "run")
      · exact List.forall_mem_singleton.mpr ⟨(by decide : IsName "more"), trivial⟩
      · rintro _ ⟨⟩
        have log : IsName "log" := by decide
        have more : IsName "more" := by decide
        simp [Tree.over_node, Kind.children, Kind.words, Receiver.toList, Word.Tidy, Literal.Tidy,
          JavaType.Tidy, log, more, show JavaType.string.Tidy from string]
  have one : (bracedUnit.compile ⟨3, true, "java"⟩).toOption.map List.length = some 1 := by
    decide +kernel
  refine ⟨tidy, ?_⟩
  cases ok : bracedUnit.compile ⟨3, true, "java"⟩ with
  | error fault =>
    rw [ok] at one
    cases one
  | ok artifacts =>
    rw [ok] at one
    exact ⟨artifacts, rfl, Option.some.inj one, (indentation_tracks_blocks ok tidy).1⟩

end JavaBackend
