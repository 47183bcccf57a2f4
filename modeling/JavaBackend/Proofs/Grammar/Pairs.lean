import JavaBackend.Proofs.Grammar.Balance
import JavaBackend.Proofs.Lowering.Appended
import JavaBackend.Proofs.Words.Lowering

/-!
# Balanced texts

`Balanced` is the grammar of the texts whose parentheses come in pairs and whose literals are closed. The
scan of `Parens` passes over exactly these (`balanced_iff_neutral`). In a balanced text the parenthesis at
the start has one partner, and `unwrap` takes the two away exactly if the partner stands at the end.

The texts of expressions are balanced if the names and types in them have no parentheses and quotes of
their own.
-/

namespace JavaBackend.Text.Parens

/-! ## The grammar -/

/-- What can stand between two quotes: the quote itself and the backslash only behind a backslash. -/
inductive Quoted (quote : Char) : List Char → Prop
  | nil : Quoted quote []
  | char {c : Char} {rest : List Char} (noSlash : c ≠ '\\') (inner : c ≠ quote)
      (more : Quoted quote rest) : Quoted quote (c :: rest)
  | escape {c : Char} {rest : List Char} (more : Quoted quote rest) : Quoted quote ('\\' :: c :: rest)

/-- A text whose parentheses come in pairs, apart from those in literals, and whose literals are
    closed. -/
inductive Balanced : List Char → Prop
  | nil : Balanced []
  | char {c : Char} {rest : List Char} (plain : c ∉ marks) (more : Balanced rest) : Balanced (c :: rest)
  | literal {quote : Char} {content rest : List Char} (isQuote : IsQuote quote)
      (closed : Quoted quote content) (more : Balanced rest) : Balanced (quote :: (content ++ quote :: rest))
  | pair {inside rest : List Char} (inner : Balanced inside) (more : Balanced rest) :
    Balanced ('(' :: (inside ++ ')' :: rest))

variable {quote : Char} {text content inside rest : List Char}

/-! ## The scan of balanced texts -/

theorem Quoted.balanced_append (closed : Quoted quote content) (isQuote : IsQuote quote) (depth : Nat)
    (rest : List Char) :
    balanced (.literal quote) depth (content ++ quote :: rest) = balanced .code depth rest := by
  induction closed with
  | nil =>
    have noSlash : quote ≠ '\\' := by rcases isQuote with rfl | rfl <;> decide
    rw [List.nil_append, balanced, if_neg noSlash, if_pos rfl]
  | char noSlash inner _ ih => rwa [List.cons_append, balanced, if_neg noSlash, if_neg inner]
  | escape _ ih => rwa [List.cons_append, List.cons_append, balanced, if_pos rfl, balanced]

theorem Balanced.balanced_append (nested : Balanced text) (depth : Nat) (rest : List Char) :
    balanced .code depth (text ++ rest) = balanced .code depth rest := by
  induction nested generalizing depth rest with
  | nil => rfl
  | @char c behind plain _ ih =>
    have alone : ∀ d ∈ [c], d ∉ marks := List.forall_mem_singleton.mpr plain
    exact (balanced_plain alone).trans (ih depth rest)
  | @literal quote content behind isQuote closed _ ih =>
    have opened : balanced .code depth (quote :: (content ++ quote :: behind) ++ rest) =
        balanced (.literal quote) depth (content ++ quote :: (behind ++ rest)) := by
      rw [List.cons_append, balanced.eq_def]
      simp only [List.append_assoc, List.cons_append]
      exact if_pos isQuote
    rw [opened, closed.balanced_append isQuote, ih]
  | @pair inside behind _ _ inner ih =>
    have opened : balanced .code depth ('(' :: (inside ++ ')' :: behind) ++ rest) =
        balanced .code (depth + 1) (inside ++ ')' :: (behind ++ rest)) := by
      simp only [List.cons_append, List.append_assoc]
      rfl
    rw [opened, inner]
    exact ih depth rest

/-- A literal is closed, or the scan stays in it up to the end of the text and beyond. -/
theorem closed_or_open (isQuote : IsQuote quote) : (text : List Char) →
    (∃ content rest, text = content ++ quote :: rest ∧ Quoted quote content) ∨
      ∀ depth, balanced (.literal quote) depth text = (depth == 0) ∧
        balanced (.literal quote) depth (text ++ ['(']) = (depth == 0)
  | [] => by
    have other : '(' ≠ quote := by rcases isQuote with rfl | rfl <;> decide
    refine .inr fun depth => ⟨rfl, ?_⟩
    rw [List.nil_append, balanced, if_neg (by decide), if_neg other]
    rfl
  | c :: more => by
    by_cases slash : c = '\\'
    · subst slash
      cases more with
      | nil => exact .inr fun _ => ⟨rfl, rfl⟩
      | cons d more =>
        rcases closed_or_open isQuote more with ⟨content, rest, rfl, closed⟩ | unclosed
        · exact .inl ⟨'\\' :: d :: content, rest, rfl, closed.escape⟩
        · exact .inr unclosed
    by_cases last : c = quote
    · subst last
      exact .inl ⟨[], more, rfl, .nil⟩
    · rcases closed_or_open isQuote more with ⟨content, rest, rfl, closed⟩ | unclosed
      · exact .inl ⟨c :: content, rest, rfl, closed.char slash last⟩
      · refine .inr fun depth => ?_
        simp only [List.cons_append, balanced, if_neg slash, if_neg last]
        exact unclosed depth

/-- A balanced text with closing parentheses for so many that stand open before it. -/
inductive Closes : Nat → List Char → Prop
  | done {text : List Char} (nested : Balanced text) : Closes 0 text
  | next {inside rest : List Char} {count : Nat} (inner : Balanced inside) (more : Closes count rest) :
    Closes (count + 1) (inside ++ ')' :: rest)

theorem Closes.prepend {count : Nat} (closes : Closes count rest) (front : List Char)
    (keeps : ∀ {text}, Balanced text → Balanced (front ++ text)) : Closes count (front ++ rest) := by
  cases closes with
  | done nested => exact .done (keeps nested)
  | next inner more =>
    rw [← List.append_assoc]
    exact .next (keeps inner) more

/-- What the scan passes over, while it closes some parentheses. -/
theorem closes_of_balanced (text : List Char) (count : Nat)
    (passes : ∀ depth rest, balanced .code (depth + count) (text ++ rest) = balanced .code depth rest) :
    Closes count text := by
  induction size : text.length using Nat.strongRecOn generalizing text count with
  | _ size ih =>
  subst size
  -- the scan of a first part leaves the rest, with some parentheses to close
  have behind (front rest : List Char) (opened : Nat) (split : text = front ++ rest) (some? : front ≠ [])
      (step : ∀ depth more,
        balanced .code (depth + count) (text ++ more) = balanced .code (depth + opened) (rest ++ more)) :
      Closes opened rest := by
    refine ih rest.length ?_ rest opened (fun depth more => ?_) rfl
    · have := List.length_pos_iff.mpr some?
      rw [split, List.length_append]
      omega
    · rw [← step, passes]
  cases text with
  | nil =>
    have zero : count = 0 := by simpa [balanced] using passes 0 []
    subst zero
    exact .done .nil
  | cons c text =>
    by_cases isQuote : IsQuote c
    · have opened (depth : Nat) (rest : List Char) :
          balanced .code depth (c :: text ++ rest) = balanced (.literal c) depth (text ++ rest) := by
        rw [List.cons_append, balanced.eq_def]
        exact if_pos isQuote
      rcases closed_or_open isQuote text with ⟨content, rest, rfl, closed⟩ | unclosed
      · have after : Closes count rest := by
          refine behind (c :: (content ++ [c])) rest count (by simp) (by simp) fun depth more => ?_
          rw [opened, List.append_assoc, List.cons_append, closed.balanced_append isQuote]
        have whole := after.prepend (c :: (content ++ [c])) fun nested => by
          simpa using Balanced.literal isQuote closed nested
        simpa using whole
      · -- an open literal hides what comes after it
        have first := passes 0 []
        have second := passes 0 ['(']
        rw [opened, (unclosed _).2] at second
        rw [opened, List.append_nil, (unclosed _).1, second] at first
        exact absurd first (by decide)
    by_cases opens : c = '('
    · subst opens
      have after : Closes (count + 1) text :=
        behind ['('] text (count + 1) rfl (by simp) fun _ _ => rfl
      cases after with
      | @next inside rest _ inner more =>
        have whole := more.prepend ('(' :: (inside ++ [')'])) fun nested => by
          simpa using Balanced.pair inner nested
        simpa using whole
    by_cases shuts : c = ')'
    · subst shuts
      cases count with
      | zero =>
        have refused : false = true := passes 0 []
        cases refused
      | succ count =>
        exact .next .nil (behind [')'] text count rfl (by simp) fun _ _ => rfl)
    · have plain : c ∉ marks := by
        simp only [marks, List.mem_cons, List.not_mem_nil, or_false, not_or]
        exact ⟨opens, shuts, not_or.mp isQuote⟩
      have after : Closes count text := by
        refine behind [c] text count rfl (by simp) fun depth more => ?_
        have alone : ∀ d ∈ [c], d ∉ marks := List.forall_mem_singleton.mpr plain
        exact balanced_plain alone
      exact after.prepend [c] (.char plain)

theorem balanced_iff_neutral {text : String} : Balanced text.toList ↔ Neutral text := by
  refine ⟨fun nested depth rest => nested.balanced_append depth rest, fun neutral => ?_⟩
  have closes : Closes 0 text.toList := closes_of_balanced text.toList 0 neutral
  cases closes with
  | done nested => exact nested

/-! ## The partner of the first parenthesis -/

/-- The parenthesis at the start of the text is closed at the position `last`. -/
def ClosedAt (text : List Char) (last : Nat) : Prop :=
  ∃ inside rest, text = '(' :: (inside ++ ')' :: rest) ∧ Balanced inside ∧ last = inside.length + 1

/-- A balanced text closes nothing that it does not open. -/
theorem Balanced.ne_closing (nested : Balanced text) (inner : Balanced inside) :
    text ≠ inside ++ ')' :: rest := by
  rintro rfl
  have whole := nested.balanced_append 0 []
  rw [List.append_nil, inner.balanced_append] at whole
  cases whole

/-- What follows the first parenthesis of a balanced text, up to its partner. -/
theorem Balanced.exists_closing (nested : Balanced ('(' :: text)) :
    ∃ inside rest, text = inside ++ ')' :: rest ∧ Balanced inside ∧ Balanced rest := by
  cases nested with
  | char plain _ => exact absurd List.mem_cons_self plain
  | literal isQuote _ _ => rcases isQuote with other | other <;> exact absurd other (by decide)
  | pair inner more => exact ⟨_, _, rfl, inner, more⟩

/-- Of two partners at different positions, the first would close more than is open. -/
theorem closing_unique {other behind : List Char} (inner : Balanced inside) (nested : Balanced other)
    (same : inside ++ ')' :: rest = other ++ ')' :: behind) : inside = other := by
  rcases List.append_eq_append_iff.mp same with ⟨gap, longer, between⟩ | ⟨gap, longer, between⟩
  · cases gap with
    | nil => simpa using longer.symm
    | cons c gap =>
      obtain ⟨rfl, -⟩ := List.cons.inj between
      exact absurd longer (nested.ne_closing inner)
  · cases gap with
    | nil => simpa using longer
    | cons c gap =>
      obtain ⟨rfl, -⟩ := List.cons.inj between
      exact absurd longer (inner.ne_closing nested)

/-- The first parenthesis of a balanced text is closed at exactly one position. -/
theorem Balanced.exists_closedAt (nested : Balanced ('(' :: text)) :
    ∃ last, ∀ i, ClosedAt ('(' :: text) i ↔ i = last := by
  obtain ⟨inside, rest, rfl, inner, -⟩ := nested.exists_closing
  refine ⟨inside.length + 1, fun i => ⟨?_, ?_⟩⟩
  · rintro ⟨other, behind, same, nested, rfl⟩
    rw [closing_unique inner nested (List.tail_eq_of_cons_eq same)]
  · rintro rfl
    exact ⟨inside, rest, rfl, inner, rfl⟩

/-- A text that ends with the partner of its first parenthesis. -/
theorem closedAt_last_iff {text : String} : ClosedAt text.toList (text.toList.length - 1) ↔
    ∃ inside : String, text = "(" ++ inside ++ ")" ∧ Neutral inside := by
  constructor
  · rintro ⟨inside, rest, chars, inner, last⟩
    have size : text.toList.length = inside.length + rest.length + 2 := by
      simp only [chars, List.length_cons, List.length_append]
      omega
    have none : rest = [] := List.length_eq_zero_iff.mp (by omega)
    refine ⟨String.ofList inside, ?_, balanced_iff_neutral.mp (by simpa using inner)⟩
    rw [← String.toList_inj, chars, none]
    simp
  · rintro ⟨inside, rfl, neutral⟩
    exact ⟨inside.toList, [], by simp, balanced_iff_neutral.mpr neutral, by simp⟩

/-- Without such an end the first parenthesis is closed before the end, if there is one. -/
theorem apart_of_not_closedAt {text : String} (nested : Balanced text.toList)
    (other : ¬ ClosedAt text.toList (text.toList.length - 1)) : Apart text := by
  by_cases opens : text.toList.head? = some '('
  · obtain ⟨behind, chars⟩ := List.head?_eq_some_iff.mp opens
    rw [chars] at nested
    obtain ⟨inside, rest, rfl, inner, -⟩ := nested.exists_closing
    have neutral : Neutral (String.ofList inside) := balanced_iff_neutral.mp (by simpa using inner)
    refine .inr ⟨String.ofList inside, String.ofList rest, ?_, neutral, fun none => other ?_⟩
    · rw [← String.toList_inj, chars]
      simp
    · refine closedAt_last_iff.mpr ⟨String.ofList inside, ?_, neutral⟩
      rw [← String.toList_inj, chars, String.ofList_eq_empty_iff.mp none]
      simp
  · exact .inl opens

end JavaBackend.Text.Parens

namespace JavaBackend

open Java (Expr Code)
open Text.Parens

/-! ## Expressions of trees -/

/-- The names and types of the word have no parentheses and quotes. -/
def Word.isPlain : Word → Bool
  | .literal (.type named) => Text.Parens.isPlain named.source
  | .literal _ => true
  | word => Text.Parens.isPlain word.text

theorem Word.harmless {word : Word} (plain : word.isPlain = true) : word.Harmless := by
  cases word with
  | literal value =>
    refine harmless_literal ?_
    rintro type rfl
    exact plain
  | _ => exact harmless_of_isPlain plain

theorem isPlain_numbered (n : Nat) {stem : String} (plain : Text.Parens.isPlain stem = true) :
    Text.Parens.isPlain (stem ++ toString n) = true :=
  isPlain_append plain (isPlain_toString n)

theorem Word.closed_isPlain : Word.Closed (·.isPlain = true) where
  object := by decide
  boolean := by decide
  exception := by decide
  component := by
    intro type plain
    simp_all [Word.isPlain, Text.Parens.isPlain, Word.text, JavaType.source]
  owner plain := plain
  null := rfl
  zero := rfl
  bool _ := rfl
  temp n := isPlain_numbered n (by decide)
  label n := isPlain_numbered n (by decide)

/-- The node writes the name of the class that it is in. -/
def Kind.namesOwner (inStatic : Bool) : Kind Tree → Bool
  | .field _ isStatic => isStatic
  | .call .implicit _ _ _ => inStatic
  | _ => false

/-- The words that a node brings to an expression in a context. -/
def Kind.wordsIn (ctx : Context) (kind : Kind Tree) : List Word :=
  if kind.namesOwner ctx.isStatic then .owner ctx.owner :: kind.words else kind.words

/-- The names and types in the tree have no parentheses and quotes. -/
def Tree.IsPlain (ctx : Context) (tree : Tree) : Prop :=
  tree.Every fun kind _ => OverAll (·.isPlain = true) (kind.wordsIn ctx)

variable {ctx : Context} {p p' : Progress} {task : Task} {code : Code} {yield : Yield}

theorem Kind.isPlain_build? {kind : Kind Tree} {type : JavaType} {exprs : List Expr} {expr : Expr}
    (built : kind.build? ctx type exprs = some expr)
    (own : OverAll (·.isPlain = true) (kind.wordsIn ctx))
    (operands : OverAll (·.isPlain = true) (Expr.wordsAll exprs)) :
    OverAll (·.isPlain = true) expr.words := by
  have words (owner : String) (known : Text.Parens.isPlain owner = true)
      (same : kind.build? ⟨owner, ctx.isStatic, ctx.returns, []⟩ type exprs = some expr)
      (own : OverAll (·.isPlain = true) kind.words) : OverAll (·.isPlain = true) expr.words :=
    over_build? Word.closed_isPlain.toStandard same (OverAll.cons_iff.mpr ⟨known, .nil⟩) own operands
  unfold wordsIn at own
  split at own
  · obtain ⟨owner, own⟩ := OverAll.cons_iff.mp own
    exact words ctx.owner owner built own
  · next unnamed =>
    -- a class that the node does not name may as well have no name
    refine words "" rfl ?_ own
    rw [← built]
    unfold build?
    split <;> simp_all [namesOwner, Context.field, Context.ownReceiver]

/-- The words of the values that a task about plain trees gives. -/
def Task.GivesPlain (ctx : Context) (yield : Yield) : Task → Prop
  | .own kind type => (Tree.node kind type).IsPlain ctx → OverAll (·.isPlain = true) yield.words
  | .operand _ tree | .temp tree | .freshTemp tree | .kept tree =>
    tree.IsPlain ctx → OverAll (·.isPlain = true) yield.words
  | .operands _ trees => (∀ tree ∈ trees, tree.IsPlain ctx) → OverAll (·.isPlain = true) yield.words
  | _ => True

/-- The value of a plain tree is made of the words of the tree or is a variable. -/
theorem Lowers.givesPlain (lowers : Lowers ctx p task code yield p') : task.GivesPlain ctx yield := by
  have temp (p : Progress) : OverAll (·.isPlain = true) (Expr.var p.nextTemp).words :=
    over_var (Word.closed_isPlain.temp _)
  induction lowers with
  | own _ built ih =>
    intro plain
    obtain ⟨own, children⟩ := Tree.every_node.mp plain
    exact Kind.isPlain_build? built own (ih children)
  | inlineOwn _ _ ih | inlineTemp _ ih | valueInline _ _ ih | valueTemp _ _ ih | fixedInline _ _ ih
  | fixedTemp _ ih | keptInline _ _ ih | keptTemp _ ih | freshTemp _ ih => exact ih
  | operandsNil => exact fun _ => .nil
  | operandsCons _ _ ih₁ ih₂ =>
    intro plain
    obtain ⟨first, rest⟩ := List.forall_mem_cons.mp plain
    exact OverAll.append_iff.mpr ⟨ih₁ first, ih₂ rest⟩
  | freshInline | tempLoop | tempStore => exact fun _ => temp _
  | tempAssign =>
    intro plain
    exact (Tree.every_node.mp plain).1
  | _ => trivial

/-- A pair of parentheses is taken away from a balanced text exactly if the first character opens it and
    the last one closes it, and what is left is balanced. The texts of expressions are balanced, whatever
    the literals in them, if their names and types have no parentheses and quotes. -/
theorem unwrap_strips_matching_pair :
    (∀ text : String, Balanced text.toList →
      (text.toList.head? = some '(' → ∃ last, ∀ i, ClosedAt text.toList i ↔ i = last) ∧
      (ClosedAt text.toList (text.toList.length - 1) →
        (unwrap text).toList = text.toList.tail.dropLast) ∧
      (¬ ClosedAt text.toList (text.toList.length - 1) → unwrap text = text) ∧
      Balanced (unwrap text).toList) ∧
    ∀ (c : ClassDraft) (index : Nat) (m : MethodDraft) (loops : List EnclosingLoop) (tree : Tree)
      (expr : Expr), c.methods[index]? = some m → tree.IsPlain (c.context m loops) →
      (c.lower index loops tree.toExpr).1 = .ok expr → Balanced expr.text.toList := by
  constructor
  · intro text nested
    refine ⟨fun opens => ?_, fun enclosed => ?_, fun other => ?_, ?_⟩
    · obtain ⟨behind, chars⟩ := List.head?_eq_some_iff.mp opens
      rw [chars] at nested ⊢
      exact nested.exists_closedAt
    · obtain ⟨inside, rfl, neutral⟩ := closedAt_last_iff.mp enclosed
      rw [unwrap_parens neutral]
      simp
    · exact unwrap_of_apart (apart_of_not_closedAt nested other)
    · by_cases enclosed : ClosedAt text.toList (text.toList.length - 1)
      · obtain ⟨inside, rfl, neutral⟩ := closedAt_last_iff.mp enclosed
        rw [unwrap_parens neutral]
        exact balanced_iff_neutral.mpr neutral
      · rwa [unwrap_of_apart (apart_of_not_closedAt nested enclosed)]
  · intro c index m loops tree expr found plain ok
    obtain ⟨code, p', ends⟩ := ClassDraft.ends_of_lower found ok
    have words : OverAll (·.isPlain = true) expr.words := (tree.derives.toExpr ends).givesPlain plain
    exact balanced_iff_neutral.mpr (expr.parted fun word mem => Word.harmless (words word mem)).text

/-- The literals in the text have parentheses, quotes and a backslash. Without the pair around all of it
    the text still starts and ends with a parenthesis, but with one of each of two pairs. -/
theorem sum_of_casts_unwrapped_once :
    let first : Tree := .node (.cast .string (.node (.literal (.str ")(\"\\'")) .string)) .string
    let second : Tree := .node (.cast .int (.node (.literal (.char '(')) .char)) .int
    let tree : Tree := .node (.binary .add first second) .string
    let m : MethodDraft := (MethodDraft.ofSignature ⟨"run", .member, .void, [], []⟩ 2).start
    let c : ClassDraft := ⟨"a.mirah", none, "A", .classType .object false, [], [], .ofStep 2, [], [m],
      true, {}⟩
    let inside := "((java.lang.String)(\")(\\\"\\\\'\")) + ((int)('('))"
    c.methods[0]? = some m ∧ tree.IsPlain (c.context m []) ∧
      ∃ expr, (c.lower 0 [] tree.toExpr).1 = .ok expr ∧ expr.text = "(" ++ inside ++ ")" ∧
        Balanced expr.text.toList ∧ ClosedAt expr.text.toList (expr.text.toList.length - 1) ∧
        (unwrap expr.text).toList = expr.text.toList.tail.dropLast ∧ unwrap expr.text = inside ∧
        Balanced inside.toList ∧ ¬ ClosedAt inside.toList (inside.toList.length - 1) ∧
        unwrap inside = inside := by
  intro first second tree m c inside
  have plain : tree.IsPlain (c.context m []) := by
    simp only [Tree.IsPlain, tree, first, second, Tree.every_node, Kind.children, List.mem_cons,
      List.not_mem_nil, or_false, forall_eq, forall_eq_or_imp, false_implies, implies_true, and_true]
    unfold OverAll
    decide
  have ok : (c.lower 0 [] tree.toExpr).1 = .ok (tree.expr (c.context m [])) := rfl
  have text : (tree.expr (c.context m [])).text = "(" ++ inside ++ ")" := by decide +kernel
  have nested := unwrap_strips_matching_pair.2 c 0 m [] tree _ rfl plain ok
  obtain ⟨-, strips, -, inner⟩ := unwrap_strips_matching_pair.1 _ nested
  have bare : unwrap (tree.expr (c.context m [])).text = inside := by decide +kernel
  rw [bare] at inner
  have closed := closedAt_last_iff.mpr ⟨inside, text, balanced_iff_neutral.mp inner⟩
  obtain ⟨-, wrong, same, -⟩ := unwrap_strips_matching_pair.1 _ inner
  have apart : ¬ ClosedAt inside.toList (inside.toList.length - 1) := by
    intro enclosed
    exact absurd (wrong enclosed) (by decide +kernel)
  exact ⟨rfl, plain, _, ok, text, nested, closed, strips closed, bare, inner, apart, same apart⟩

end JavaBackend
