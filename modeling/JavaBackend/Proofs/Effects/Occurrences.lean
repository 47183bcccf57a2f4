import JavaBackend.Proofs.Effects.Calls
import JavaBackend.Proofs.Lowering.Appended
import JavaBackend.Proofs.Words.Characters

/-!
# No call is lost or repeated

A character that stands in the names of methods only, and nowhere in fixed syntax, marks the calls
of a tree in the text of its code. How often it occurs in the text that lowering the tree appends to
a method is what the paths to the tree's calls say: nothing that has an effect is dropped, and
nothing is written twice but the conditions and clauses that have to be.
-/

namespace JavaBackend

open Java (Stmt Code Piece Expr Sink)
open Lower

/-- How often a character occurs in a text. -/
def occurs (c : Char) (text : String) : Nat := text.toList.count c

theorem occurs_append (c : Char) (first second : String) :
    occurs c (first ++ second) = occurs c first + occurs c second := by
  rw [occurs, String.toList_append, List.count_append]
  rfl

/-- What the layout of code puts around its pieces, and the names that lowering makes up. -/
def layoutTexts : List String := ["\x7b", " \x7b", "\x7d ", "\x7d", " ", "\n", "temp$", "label"]

/-- A character that occurs nowhere in the fixed syntax of generated code. -/
def Foreign (c : Char) : Prop :=
  ∀ text ∈ Java.fixedTexts ++ wordTexts ++ layoutTexts, c ∉ text.toList

instance (c : Char) : Decidable (Foreign c) := inferInstanceAs (Decidable (∀ _ ∈ _, _))

namespace Foreign

variable {c : Char} (foreign : Foreign c)

include foreign

theorem odd : Odd c := fun text mem =>
  foreign text (List.mem_append_left _ (List.mem_append_right _ mem))

theorem not_mem_fixed {text : String} (mem : text ∈ Java.fixedTexts) : c ∉ text.toList :=
  foreign text (List.mem_append_left _ (List.mem_append_left _ mem))

theorem not_mem_layout {text : String} (mem : text ∈ layoutTexts) : c ∉ text.toList :=
  foreign text (List.mem_append_right _ mem)

theorem closed : Word.Closed (Word.Avoids c) :=
  Word.closed_avoids foreign.odd (foreign.not_mem_layout (by decide))
    (foreign.not_mem_layout (by decide))

omit foreign in
/-- The search for the occurrences of the character. -/
def reading (foreign : Foreign c) : Reading Char := .ofChar c fun _ => foreign.not_mem_fixed

theorem length_see (text : String) : (foreign.reading.see text).length = occurs c text :=
  List.count_eq_length_filter.symm

theorem splits (text : String) : foreign.reading.Splits text := by
  intro behind
  unfold Reading.see
  rw [String.toList_append]
  exact List.filter_append _ _

theorem length_word {word : Word} (avoids : word.Avoids c) :
    (foreign.reading.word word).length = word.weight (occurs c) := by
  rw [Reading.word, foreign.length_see]
  have free (other : ∀ name, word ≠ .method name) : occurs c word.text = 0 :=
    List.count_eq_zero.mpr (Word.not_mem_text foreign.odd avoids other)
  cases word with
  | method name => rfl
  | _ => exact free fun _ => Word.noConfusion

/-- In words that avoid the character it occurs in the names of methods only. -/
theorem length_words {words : List Word} (avoids : OverAll (Word.Avoids c) words) :
    (words.flatMap foreign.reading.word).length = weigh (occurs c) words := by
  induction words with
  | nil => rfl
  | cons word rest ih =>
    obtain ⟨first, others⟩ := OverAll.cons_iff.mp avoids
    rw [List.flatMap_cons, List.length_append, foreign.length_word first, ih others, weigh_cons]

/-! ## Text -/

theorem occurs_text {expr : Expr} (avoids : OverAll (Word.Avoids c) expr.words) :
    occurs c expr.text = weigh (occurs c) expr.words := by
  rw [← foreign.length_see, Reading.see_text, foreign.length_words avoids]

end Foreign

/-- The text of a buffer has grown by `n` occurrences of a character. -/
def Grows (c : Char) (n : Nat) (before after : Text.Buffer) : Prop :=
  ∃ appended, after.text = before.text ++ appended ∧ occurs c appended = n

namespace Grows

variable {c : Char} {m n : Nat} {b b₁ b₂ : Text.Buffer}

theorem refl : Grows c 0 b b := ⟨"", by simp, rfl⟩

theorem trans (first : Grows c m b b₁) (second : Grows c n b₁ b₂) : Grows c (m + n) b b₂ := by
  obtain ⟨front, grown, rfl⟩ := first
  obtain ⟨behind, text, rfl⟩ := second
  exact ⟨front ++ behind, by rw [text, grown, String.append_assoc], occurs_append c front behind⟩

/-- One more character is written, after spaces if it starts a line. -/
theorem push (space : c ≠ ' ') (d : Char) : Grows c (List.count c [d]) b (b.push d) := by
  have plain : Grows c (List.count c [d]) b { b with text := b.text.push d } :=
    ⟨String.ofList [d], String.toList_injective (by simp), by simp [occurs]⟩
  unfold Text.Buffer.push
  split
  · exact plain
  split
  · refine ⟨String.ofList (List.replicate b.depth ' ' ++ [d]), ?_, ?_⟩
    · apply String.toList_injective
      simp
    · have spaces : List.count c (List.replicate b.depth ' ') = 0 := by
        simp [List.count_replicate, space.symm]
      rw [occurs, String.toList_ofList, List.count_append, spaces, Nat.zero_add]
  · exact plain

theorem print (space : c ≠ ' ') (text : String) : Grows c (occurs c text) b (b.print text) := by
  unfold Text.Buffer.print occurs
  induction text.toList generalizing b with
  | nil => exact refl
  | cons d rest ih =>
    rw [← List.singleton_append, List.count_append]
    exact (push space d).trans ih

end Grows

namespace Foreign

variable {c : Char} (foreign : Foreign c) {b : Text.Buffer}

include foreign

theorem occurs_layout {text : String} (mem : text ∈ layoutTexts) : occurs c text = 0 :=
  List.count_eq_zero.mpr (foreign.not_mem_layout mem)

theorem grows_putLine (line : String) : Grows c (occurs c line) b (b.putLine line) := by
  have space : c ≠ ' ' := by
    rintro rfl
    exact foreign.not_mem_layout (show " " ∈ layoutTexts by decide) (by decide)
  have newline : List.count c ['\n'] = 0 := foreign.occurs_layout (show "\n" ∈ _ by decide)
  have grows := (Grows.print space line).trans (Grows.push (b := b.print line) space '\n')
  rwa [newline] at grows

/-- A piece is laid out with the occurrences in its own text. -/
theorem grows_layPiece (piece : Piece) :
    Grows c (foreign.reading.piece piece).length b (layPiece b piece) := by
  have line (text : String) : Grows c (occurs c text) b (b.putLine text) := foreign.grows_putLine text
  have dedented (text : String) : Grows c (occurs c text) b (b.dedent.putLine text) :=
    foreign.grows_putLine text
  cases piece with
  | line text =>
    rw [Reading.piece, foreign.length_see]
    exact line text
  | opening heading =>
    rw [Reading.piece, foreign.length_see]
    have grows : Grows c _ b (layPiece b (.opening heading)) := line _
    split at grows
    · next empty =>
      obtain rfl := String.isEmpty_iff.mp empty
      rwa [foreign.occurs_layout (by decide)] at grows
    · simpa (disch := decide) only [occurs_append, foreign.occurs_layout, Nat.add_zero] using grows
  | next heading =>
    rw [Reading.piece, foreign.length_see]
    have grows : Grows c _ b (layPiece b (.next heading)) := dedented _
    simpa (disch := decide) only [occurs_append, foreign.occurs_layout, Nat.zero_add,
      Nat.add_zero] using grows
  | closing tail =>
    rw [Reading.piece, foreign.length_see]
    have grows : Grows c _ b (layPiece b (.closing tail)) := dedented _
    simpa (disch := decide) only [occurs_append, foreign.occurs_layout, Nat.zero_add] using grows

theorem grows_lay (pieces : List Piece) :
    Grows c (pieces.flatMap foreign.reading.piece).length b (pieces.foldl layPiece b) := by
  induction pieces generalizing b with
  | nil => exact Grows.refl
  | cons piece rest ih =>
    rw [List.flatMap_cons, List.length_append]
    exact (foreign.grows_layPiece piece).trans ih

/-- Code is laid out with the occurrences in the methods that it calls. -/
theorem grows_code {code : Code} (avoids : OverAll (Word.Avoids c) (Stmt.codeWords code)) :
    Grows c (weigh (occurs c) (Stmt.codeWords code)) b ((Stmt.codePieces code).foldl layPiece b) := by
  have ends : OverAll foreign.reading.Ends (Stmt.codeWords code) :=
    fun _ _ text _ => foreign.splits text
  rw [← foreign.length_words avoids, ← Reading.codePieces_eq _ _ ends]
  exact foreign.grows_lay _

end Foreign

/-! ## Trees -/

/-- The character occurs in the names of methods only: nowhere in fixed syntax, in any other name, a
    type or quoted text of the tree, or around the code. -/
structure Marks (c : Char) (ctx : Context) (tree : Tree) : Prop where
  foreign : Foreign c
  around : OverAll (Word.Avoids c) ctx.words
  tree : tree.Over (Word.Avoids c)

variable {c : ClassDraft} {index : Nat} {m : MethodDraft} {loops : List EnclosingLoop} {tree : Tree}
  {mark : Char}

/-- What a task leaves behind in a method is marked as often as its trees say. -/
theorem Lowers.grows {ctx : Context} {p p' : Progress} {task : Task} {code : Code} {yield : Yield}
    {known : String → Bool} (lowers : Lowers ctx p task code yield p') (foreign : Foreign mark)
    (around : OverAll (Word.Avoids mark) ctx.words) (ofWords : task.Over (Word.Avoids mark))
    (unused : p.fields = []) (knows : p.Knows known) (assigns : task.AssignsTo known)
    (b : Text.Buffer) :
    ∃ n, Grows mark n b ((Stmt.codePieces code).foldl layPiece b) ∧
      OverAll (Word.Avoids mark) yield.words ∧ n + weigh (occurs mark) yield.words =
        Tree.writtenAll (occurs mark) known (task.edges (·.isExpression known)) := by
  have made := lowers.ofWords foreign.closed around ofWords
    (by simp [Progress.Over, unused])
  exact ⟨_, foreign.grows_code made.code, made.yield, lowers.written knows assigns⟩

/-- A call of the tree is written once for each path to it, and as often as the path says: twice for
    a condition that takes statements and is tested first, and once for each type of a clause. -/
theorem calls_written_along_paths (found : c.methods[index]? = some m) (opened : m.stage = .opened)
    (marks : Marks mark (c.context m loops) tree) (assigns : tree.AssignsTo m.scope.isLocal) :
    (∀ dest, OverAll (Word.Avoids mark) dest.words →
      (c.lower index loops (tree.toStatement dest)).1 = .ok () →
      ∃ after appended,
        (c.lower index loops (tree.toStatement dest)).2.methods[index]? = some after ∧
        after.out.text = m.out.text ++ appended ∧
        occurs mark appended = ((tree.callPaths m.scope.isLocal).map fun path =>
          path.copies * occurs mark path.method).sum) ∧
    ∀ expr, (c.lower index loops tree.toExpr).1 = .ok expr →
      ∃ after appended, (c.lower index loops tree.toExpr).2.methods[index]? = some after ∧
        after.out.text = m.out.text ++ appended ∧
        occurs mark appended + occurs mark expr.text =
          ((tree.callPaths m.scope.isLocal).map fun path =>
            path.copies * occurs mark path.method).sum := by
  have knows : Progress.Knows ⟨m.scope, []⟩ m.scope.isLocal := fun _ => id
  constructor
  · intro dest avoids accepted
    obtain ⟨code, p', ends⟩ := ClassDraft.ends_of_lower found accepted
    obtain ⟨n, ⟨appended, text, count⟩, -, total⟩ := (tree.derives.statement dest ends).grows
      marks.foreign marks.around ⟨marks.tree, avoids⟩ rfl knows (Task.assignsTo_one assigns) m.out
    refine ⟨_, appended, (ClassDraft.lower_of_ends found opened ends).2, text, ?_⟩
    have total : n = tree.written (occurs mark) m.scope.isLocal := by
      simpa [Task.edges] using total
    exact count.trans total
  · intro expr accepted
    obtain ⟨code, p', ends⟩ := ClassDraft.ends_of_lower found accepted
    obtain ⟨n, ⟨appended, text, count⟩, avoids, total⟩ := (tree.derives.toExpr ends).grows
      marks.foreign marks.around marks.tree rfl knows (Task.assignsTo_one assigns) m.out
    refine ⟨_, appended, (ClassDraft.lower_of_ends found opened ends).2, text, ?_⟩
    rw [marks.foreign.occurs_text avoids, count]
    have total : n + weigh (occurs mark) expr.words = tree.written (occurs mark) m.scope.isLocal := by
      simpa [Task.edges] using total
    exact total

/-- A condition in front of which a call runs is written twice, and the body of a clause once for
    each of its types: two and two copies of the calls of `Q`. -/
theorem marked_condition_and_clause :
    let call : Tree := .node (.call .implicit "Q" [] .void) .void
    let cond : Tree := .node (.seq [call, .node (.var "more") .boolean]) .boolean
    let clause : RescueClause Tree :=
      ⟨[.reference "java.io.IOException", .reference "java.lang.Error"], some "e", some call⟩
    let body : Tree := .node (.rescue (some call) [clause] none) .void
    let loop : Tree := .node (.loop ⟨cond, true, false, some body, false, none, none, none⟩) .void
    let m : MethodDraft := (MethodDraft.ofSignature ⟨"run", .member, .void, [⟨"more", .boolean⟩], []⟩ 2).start
    let c : ClassDraft := ⟨"a.mirah", none, "A", .classType .object false, [], [], .ofStep 2, [], [m],
      true, {}⟩
    Marks 'Q' (c.context m []) loop ∧ loop.AssignsTo m.scope.isLocal ∧
      ∃ after appended,
        (c.lower 0 [] (loop.toStatement .discard)).2.methods[0]? = some after ∧
        after.out.text = m.out.text ++ appended ∧ occurs 'Q' appended = 5 := by
  intro call cond clause body loop m c
  have marks : Marks 'Q' (c.context m []) loop := by
    refine ⟨by decide +kernel, ?_, ?_⟩
    · exact OverAll.cons_iff.mpr ⟨(by decide : 'Q' ∉ "A".toList), .nil⟩
    · simp [loop, body, clause, cond, call, Tree.over_node, Kind.children, Kind.words, Receiver.toList,
        Word.Avoids, JavaType.Avoids]
  have assigns : loop.AssignsTo m.scope.isLocal := by
    simp [loop, body, clause, cond, call, Tree.AssignsTo, Tree.every_node, Kind.children,
      Receiver.toList, Kind.assigned?]
  have found : c.methods[0]? = some m := rfl
  have opened : m.stage = .opened := rfl
  have placed : loop.wellPlaced none = true := rfl
  have accepted := ClassDraft.lower_of_wellPlaced found opened placed .discard
  have total : ((loop.callPaths m.scope.isLocal).map fun path =>
      path.copies * occurs 'Q' path.method).sum = 5 := by decide +kernel
  obtain ⟨after, appended, left, text, count⟩ :=
    (calls_written_along_paths found opened marks assigns).1 .discard .nil accepted
  exact ⟨marks, assigns, after, appended, left, text, count.trans total⟩

end JavaBackend
