import JavaBackend.Proofs.Decimal.Casts
import JavaBackend.Proofs.Draft.Lifecycle

/-!
# Constant directives

There are fourteen directives (`Directive.table`). Each stands for a small whole number of one of four
types, and the text for it is what Java reads as that number in that type. Any other text is refused
with a fault that names it, and the draft that it was meant for stays as it is.
-/

namespace JavaBackend.Decimal

/-! ## Numbers of a format -/

/-- A number of the format is rounded to itself. -/
theorem Format.nearest_value {f : Format} {k : Nat} (range : k ≤ f.infinity) : f.Nearest (f.value k) k := by
  refine ⟨range, fun j _ => ?_⟩
  rw [sub_self, abs_zero]
  refine ⟨abs_nonneg _, fun same => .inl ?_⟩
  exact f.value_strictMono.injective (sub_eq_zero.mp (abs_eq_zero.mp same.symm)).symm

/-- Small whole numbers are numbers of both formats. -/
theorem exists_whole {n : Nat} (small : n ≤ 2 ^ 24) :
    (∃ k < Format.single.infinity, Format.single.value k = n) ∧
      ∃ k < Format.double.infinity, Format.double.value k = n := by
  constructor
  · have binade : Format.single.binade = 2 ^ 23 := rfl
    have least : Format.single.least = -149 := rfl
    have infinity : Format.single.infinity = 255 * 2 ^ 23 := rfl
    obtain ⟨k, le, eq⟩ := Format.exists_value (f := .single) (n := n) (by omega) 149
    refine ⟨k, by omega, ?_⟩
    rw [eq, least]
    norm_num
  · obtain ⟨k, finite, eq⟩ := exists_double (n := n) (e := 0) (by omega) (by omega) (by omega)
    refine ⟨k, finite, ?_⟩
    rw [eq, zpow_zero, mul_one]

end JavaBackend.Decimal

namespace JavaBackend

open Decimal (Format exists_whole)
open Java (Alphabet Ast ParsesAs literalAst floatingAst shortestValue denotes_double_iff denotes_cast_iff
  spells_int spells_long spells_literal)

namespace Directive

/-- The directives, each with the type and the number of the constant that it pushes. -/
def table : List (String × Family × Int) :=
  [("iconst_m1", .int, -1), ("iconst_0", .int, 0), ("iconst_1", .int, 1), ("iconst_2", .int, 2),
    ("iconst_3", .int, 3), ("iconst_4", .int, 4), ("iconst_5", .int, 5), ("lconst_0", .long, 0),
    ("lconst_1", .long, 1), ("fconst_0", .float, 0), ("fconst_1", .float, 1), ("fconst_2", .float, 2),
    ("dconst_0", .double, 0), ("dconst_1", .double, 1)]

/-! ## Numbers in Java -/

/-- A whole number as a constant of the type. -/
def Family.text : Family → Int → String
  | .int, n => toString n
  | .long, n => toString n ++ "L"
  | .float, n => "(float)" ++ toString n ++ ".0"
  | .double, n => toString n ++ ".0"

/-- The tree is a constant of the type, with the number as its only value. -/
def Family.Means : Family → Int → Ast → Prop
  | .int, n, tree => tree = Java.signed .int n
  | .long, n, tree => tree = Java.signed .long n
  | .float, n, tree =>
    ∃ bits, Format.single.value bits = n ∧ ∀ result, tree.Denotes .single result ↔ result = bits
  | .double, n, tree =>
    ∃ bits, Format.double.value bits = n ∧ ∀ result, tree.Denotes .double result ↔ result = bits

theorem means_double {n : Nat} (small : n ≤ 2 ^ 24) : Family.double.Means n (.double n) := by
  obtain ⟨-, k, finite, value⟩ := exists_whole small
  have nearest : Format.double.Nearest n k := value ▸ Format.nearest_value finite.le
  refine ⟨k, by rw [value, Int.cast_natCast], denotes_double_iff nearest finite ?_⟩
  rintro rfl
  rw [← value, Format.value_zero]

/-- The cast does not change the number. -/
theorem means_float {n : Nat} (small : n ≤ 2 ^ 24) :
    Family.float.Means n (.cast (.primitive .float) (.double n)) := by
  obtain ⟨⟨k, finite, value⟩, wide, bounded, same⟩ := exists_whole small
  have nearest : Format.double.Nearest n wide := same ▸ Format.nearest_value bounded.le
  have again : Format.single.Nearest (Format.double.value wide) k := by
    rw [same, ← value]
    exact Format.nearest_value finite.le
  have operand : ∀ bits, (Ast.double n).Denotes .double bits ↔ bits = Format.double.signed false wide := by
    refine denotes_double_iff nearest bounded ?_
    rintro rfl
    rw [← same, Format.value_zero]
  exact ⟨k, by rw [value, Int.cast_natCast], denotes_cast_iff bounded operand again⟩

variable {alphabet : Alphabet}

theorem parsesAs_float {bits : UInt32} {x : Decimal.Binary} {n : Nat}
    (finite : Decimal.decode .single bits.toNat = .finite false x) (value : shortestValue x = n) :
    ParsesAs alphabet (Literal.float bits).source (.cast (.primitive .float) (.double n)) := by
  have tree : literalAst (.float bits) = .cast (.primitive .float) (.double n) := by
    rw [literalAst, floatingAst, finite, ← value]
    rfl
  rw [← tree]
  exact (spells_literal fun _ type => by cases type).1.toExpression.parsesAs

theorem parsesAs_double {bits : UInt64} {x : Decimal.Binary} {n : Nat}
    (finite : Decimal.decode .double bits.toNat = .finite false x) (value : shortestValue x = n) :
    ParsesAs alphabet (Literal.double bits).source (.double n) := by
  have tree : literalAst (.double bits) = .double n := by
    rw [literalAst, floatingAst, finite, ← value]
    rfl
  rw [← tree]
  exact (spells_literal fun _ type => by cases type).1.toExpression.parsesAs

/-- The texts of the numbers are constants of their types. -/
theorem exists_tree {directive : String} {family : Family} {n : Int}
    (listed : (directive, family, n) ∈ table) (alphabet : Alphabet) :
    ∃ tree, ParsesAs alphabet (family.text n) tree ∧ family.Means n tree := by
  have numbers : ∀ entry ∈ table, (-1 ≤ entry.2.2 ∧ entry.2.2 ≤ 5) ∧
      (entry.2.1 = .float → entry.2.2 ∈ [0, 1, 2]) ∧ (entry.2.1 = .double → entry.2.2 ∈ [0, 1]) := by
    decide
  obtain ⟨small, single, wide⟩ := numbers _ listed
  dsimp only at small single wide
  cases family with
  | int => exact ⟨_, (spells_int n (by omega)).toExpression.parsesAs, rfl⟩
  | long => exact ⟨_, (spells_long n (by omega)).toExpression.parsesAs, rfl⟩
  | float =>
    have whole (bits : UInt32) (k : Nat) (text : Family.float.text k = (Literal.float bits).source)
        (le : k ≤ 2) {x : Decimal.Binary}
        (finite : Decimal.decode .single bits.toNat = .finite false x) (value : shortestValue x = k) :
        ∃ tree, ParsesAs alphabet (Family.float.text k) tree ∧ Family.float.Means k tree :=
      ⟨_, text ▸ parsesAs_float finite value, means_float (by omega)⟩
    simp only [List.mem_cons, List.not_mem_nil, or_false, forall_const] at single
    rcases single with rfl | rfl | rfl
    · exact whole 0 0 (by decide +kernel) (by omega) rfl (by decide +kernel)
    · exact whole 0x3f800000 1 (by decide +kernel) (by omega) rfl (by decide +kernel)
    · exact whole 0x40000000 2 (by decide +kernel) (by omega) rfl (by decide +kernel)
  | double =>
    have whole (bits : UInt64) (k : Nat) (text : Family.double.text k = (Literal.double bits).source)
        (le : k ≤ 1) {x : Decimal.Binary}
        (finite : Decimal.decode .double bits.toNat = .finite false x) (value : shortestValue x = k) :
        ∃ tree, ParsesAs alphabet (Family.double.text k) tree ∧ Family.double.Means k tree :=
      ⟨_, text ▸ parsesAs_double finite value, means_double (by omega)⟩
    simp only [List.mem_cons, List.not_mem_nil, or_false, forall_const] at wide
    rcases wide with rfl | rfl
    · exact whole 0 0 (by decide +kernel) (by omega) rfl (by decide +kernel)
    · exact whole 0x3ff0000000000000 1 (by decide +kernel) (by omega) rfl (by decide +kernel)

/-! ## Spellings -/

/-- The letters of the types. -/
def letters : List (Char × Family) := [('i', .int), ('l', .long), ('f', .float), ('d', .double)]

/-- The spellings of the numbers behind the underscore. -/
def operands : List (List Char × Int) :=
  (['m', '1'], -1) :: "0123456789".toList.map fun c => ([c], (c.toNat - '0'.toNat : Nat))

theorem mem_letters {letter : Char} {family : Family} (found : family? letter = some family) :
    (letter, family) ∈ letters := by
  unfold family? at found
  split at found <;> cases found <;> decide

theorem mem_operands {chars : List Char} {n : Int} (found : operand? chars = some n) :
    (chars, n) ∈ operands := by
  unfold operand? at found
  split at found
  · split at found
    · next digit =>
      cases found
      exact List.mem_cons_of_mem _ (List.mem_map_of_mem (mem_digits digit))
    · cases found
  · split at found
    · next minus =>
      cases found
      exact minus ▸ List.mem_cons_self
    · cases found

/-- Of all the letters and numbers, those that make a constant are in the table. -/
theorem mem_table_of_constant? : ∀ letter ∈ letters, ∀ operand ∈ operands,
    (constant? letter.2 operand.2).isSome = true →
      (String.ofList (letter.1 :: "const_".toList ++ operand.1), letter.2, operand.2) ∈ table := by
  decide +kernel

/-- A directive is in the table. -/
theorem mem_table_of_literal? {directive : String} {value : Literal}
    (found : literal? directive = some value) : ∃ family n, (directive, family, n) ∈ table := by
  unfold literal? at found
  split at found
  · next letter operand chars =>
    obtain ⟨family, lettered, rest⟩ := Option.bind_eq_some_iff.mp found
    obtain ⟨n, numbered, constant⟩ := Option.bind_eq_some_iff.mp rest
    have listed := mem_table_of_constant? _ (mem_letters lettered) _ (mem_operands numbered)
      (Option.isSome_iff_exists.mpr ⟨value, constant⟩)
    refine ⟨family, n, ?_⟩
    rw [← String.ofList_toList (s := directive), chars]
    exact listed
  · cases found

/-- The directives of the table are written as their numbers. -/
theorem source_of_mem_table : ∀ entry ∈ table,
    (literal? entry.1).map Literal.source = some (entry.2.1.text entry.2.2) := by
  decide +kernel

theorem literal?_eq_none {directive : String} (unlisted : ∀ entry ∈ table, entry.1 ≠ directive) :
    literal? directive = none := by
  rw [Option.eq_none_iff_forall_ne_some]
  intro value found
  obtain ⟨family, n, listed⟩ := mem_table_of_literal? found
  exact unlisted _ listed rfl

theorem source_eq_some_iff {directive text : String} :
    (literal? directive).map Literal.source = some text ↔
      ∃ family n, (directive, family, n) ∈ table ∧ text = family.text n := by
  constructor
  · intro found
    obtain ⟨value, known, -⟩ := Option.map_eq_some_iff.mp found
    obtain ⟨family, n, listed⟩ := mem_table_of_literal? known
    rw [source_of_mem_table _ listed] at found
    exact ⟨family, n, listed, (Option.some.inj found).symm⟩
  · rintro ⟨family, n, listed, rfl⟩
    exact source_of_mem_table _ listed

end Directive

namespace MethodDraft

/-- A directive is one of the fourteen of the table or it is refused. One of the table is written as a
    constant that Java reads as its number in its type. Any other text is named by the fault, and
    leaves the draft as it is, whatever its stage. -/
theorem directives_are_those_listed (m : MethodDraft) (directive : String) :
    (∀ text, (Directive.literal? directive).map Literal.source = some text ↔
      ∃ family n, (directive, family, n) ∈ Directive.table ∧ text = family.text n) ∧
    (∀ family n, (directive, family, n) ∈ Directive.table →
      m.printDirective directive = .ok (m.print (family.text n)) ∧
        ∀ alphabet, ∃ tree, ParsesAs alphabet (family.text n) tree ∧ family.Means n tree) ∧
    ((∀ entry ∈ Directive.table, entry.1 ≠ directive) →
      m.printDirective directive = .error (.unknownDirective directive) ∧
        m.answer (.printDirective directive) = .refused (.unknownDirective directive) ∧
        m.step (.printDirective directive) = m) := by
  refine ⟨fun text => Directive.source_eq_some_iff, fun family n listed => ⟨?_, fun alphabet => ?_⟩,
    fun unlisted => ?_⟩
  · obtain ⟨value, known, text⟩ := Option.map_eq_some_iff.mp (Directive.source_of_mem_table _ listed)
    rw [printDirective, known, ← text]
    rfl
  · exact Directive.exists_tree listed alphabet
  · have refused : m.printDirective directive = .error (.unknownDirective directive) := by
      rw [printDirective, Directive.literal?_eq_none unlisted]
    exact ⟨refused, by rw [answer, refused], by rw [step, refused]⟩

/-- The sign, a second separator, a digit too many and a digit of another script are refused. -/
theorem odd_directives_refused :
    let m := (MethodDraft.ofSignature ⟨"run", .member, .void, [], []⟩ 2).start
    ("fconst_2", .float, 2) ∈ Directive.table ∧
      m.printDirective "fconst_2" = .ok (m.print "(float)2.0") ∧
      ∀ directive ∈ ["iconst_+1", "iconst_const_1", "iconst_01", "iconst_٣", "lconst_m1", "const_1"],
        (∀ entry ∈ Directive.table, entry.1 ≠ directive) ∧
          m.printDirective directive = .error (.unknownDirective directive) ∧
          m.step (.printDirective directive) = m := by
  intro m
  have listed : ("fconst_2", .float, 2) ∈ Directive.table := by decide
  have others : ∀ directive ∈ ["iconst_+1", "iconst_const_1", "iconst_01", "iconst_٣", "lconst_m1",
      "const_1"], ∀ entry ∈ Directive.table, entry.1 ≠ directive := by decide
  refine ⟨listed, ((directives_are_those_listed m "fconst_2").2.1 _ _ listed).1, fun directive mem => ?_⟩
  obtain ⟨refused, -, unchanged⟩ :=
    (directives_are_those_listed m directive).2.2 (others directive mem)
  exact ⟨others directive mem, refused, unchanged⟩

end MethodDraft

end JavaBackend
