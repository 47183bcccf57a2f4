import JavaBackend.Proofs.Words.Characters

/-!
# The temporaries in a text

`tempsIn` lists the names of temporaries in a Java text. It is a reading: in generated code it finds
what it finds in the words, which is nothing in all words that do not hold the mark of temporaries
themselves.
-/

namespace JavaBackend

/-- What the names of temporaries start with. -/
def tempMark : List Char := "temp$".toList

/-- The name of a temporary at the start of the text, if there is one. -/
def tempAt (text : List Char) : List String :=
  if tempMark <+: text then
    [String.ofList (tempMark ++ (text.drop tempMark.length).takeWhile Char.isDigit)]
  else []

/-- The names of temporaries in the text, given whether its first character belongs to an escape: the
    letter behind a backslash is no part of a name. -/
def tempsFrom : Bool → List Char → List String
  | _, [] => []
  | true, _ :: rest => tempsFrom false rest
  | false, c :: rest => tempAt (c :: rest) ++ tempsFrom (c == '\\') rest

/-- The names of temporaries in a text, in order. -/
def tempsIn (text : String) : List String := tempsFrom false text.toList

/-! ## Texts without temporaries -/

theorem tempAt_eq_nil {text : List Char} (free : ¬tempMark <+: text) : tempAt text = [] :=
  if_neg free

theorem tempsFrom_eq_nil {text : List Char} (free : ¬tempMark <:+: text) (skip : Bool) :
    tempsFrom skip text = [] := by
  induction text generalizing skip with
  | nil => cases skip <;> rfl
  | cons c rest ih =>
    have behind : ¬tempMark <:+: rest := fun found => free (found.trans (List.suffix_cons c rest).isInfix)
    cases skip with
    | true => exact ih behind false
    | false =>
      rw [tempsFrom, tempAt_eq_nil fun found => free found.isInfix, ih behind]
      rfl

/-- A text that lacks a character of the mark has no temporaries. -/
theorem tempsFrom_eq_nil_of_not_mem {text : List Char} {c : Char} (marked : c ∈ tempMark)
    (free : c ∉ text) (skip : Bool) : tempsFrom skip text = [] :=
  tempsFrom_eq_nil (fun found => free (found.subset marked)) skip

theorem not_infix_singleton (c : Char) : ¬tempMark <:+: [c] :=
  fun found => absurd found.length_le (show ¬5 ≤ 1 by decide)

/-! ## Fixed syntax -/

/-- The texts differ where both go on. -/
def apart (first second : List Char) : Bool :=
  !first.isPrefixOf second && !second.isPrefixOf first

theorem not_prefix_of_apart {first second text : List Char} (differ : apart first second = true)
    (starts : first <+: text) : ¬second <+: text := by
  intro other
  simp only [apart, Bool.and_eq_true, Bool.not_eq_true', Bool.eq_false_iff, ne_eq,
    List.isPrefixOf_iff_prefix] at differ
  exact (List.prefix_or_prefix_of_prefix starts other).elim differ.1 differ.2

/-- No name of a temporary starts in the text, nor an escape, whatever follows. -/
def isBlind : List Char → Bool
  | [] => true
  | c :: rest => apart (c :: rest) tempMark && c != '\\' && isBlind rest

/-- No name of a temporary starts or goes on in the text, whatever stands around it. -/
def separates (fixed : List Char) : Bool :=
  fixed.head?.any (fun c => !c.isDigit) && isBlind fixed &&
    [1, 2, 3, 4].all fun k => apart fixed (tempMark.drop k)

theorem tempsFrom_blind {fixed : List Char} (blind : isBlind fixed = true) (behind : List Char) :
    tempsFrom false (fixed ++ behind) = tempsFrom false behind := by
  induction fixed with
  | nil => rfl
  | cons c rest ih =>
    simp only [isBlind, Bool.and_eq_true, bne_iff_ne] at blind
    have unmarked : ¬tempMark <+: c :: (rest ++ behind) :=
      not_prefix_of_apart blind.1.1 (List.prefix_append (c :: rest) behind)
    rw [List.cons_append, tempsFrom, tempAt_eq_nil unmarked, beq_false_of_ne blind.1.2, ih blind.2]
    rfl

/-- The digits of a name end in front of fixed syntax. -/
theorem takeWhile_digits {fixed : List Char} (head : fixed.head?.any (fun c => !c.isDigit) = true)
    (front behind : List Char) :
    (front ++ (fixed ++ behind)).takeWhile Char.isDigit = front.takeWhile Char.isDigit := by
  induction front with
  | nil =>
    cases fixed with
    | nil => cases head
    | cons c rest => simp_all
  | cons c rest ih => rw [List.cons_append, List.takeWhile_cons, List.takeWhile_cons, ih]

/-- A name that starts in front of fixed syntax is complete there. -/
theorem tempAt_append {fixed : List Char} (cut : separates fixed = true) {front : List Char}
    (some : front ≠ []) (behind : List Char) :
    tempAt (front ++ (fixed ++ behind)) = tempAt front := by
  simp only [separates, Bool.and_eq_true, List.all_eq_true] at cut
  obtain ⟨⟨head, -⟩, differ⟩ := cut
  by_cases long : tempMark.length ≤ front.length
  · have marked : tempMark <+: front ++ (fixed ++ behind) ↔ tempMark <+: front :=
      ⟨fun found => List.prefix_of_prefix_length_le found (List.prefix_append _ _) long,
        fun found => found.trans (List.prefix_append _ _)⟩
    unfold tempAt
    simp only [marked]
    rw [List.drop_append_of_le_length long, takeWhile_digits head]
  · -- the rest of the mark would stand in front of, or inside, the fixed syntax
    have short : front.length < 5 := Nat.lt_of_not_le long
    rw [tempAt_eq_nil, tempAt_eq_nil]
    · exact fun found => long found.length_le
    · intro found
      have begun : front <+: tempMark :=
        List.prefix_of_prefix_length_le (List.prefix_append _ _) found (Nat.le_of_not_le long)
      obtain ⟨rest, whole⟩ := begun
      have left : rest = tempMark.drop front.length := by rw [← whole, List.drop_left]
      rw [← whole, List.prefix_append_right_inj, left] at found
      have listed : front.length ∈ [1, 2, 3, 4] := by
        have positive := List.length_pos_iff.mpr some
        simp only [List.mem_cons, List.not_mem_nil, or_false]
        omega
      exact not_prefix_of_apart (differ _ listed) (List.prefix_append _ _) found

theorem tempsFrom_cut {fixed : List Char} (cut : separates fixed = true) (skip : Bool)
    (front behind : List Char) :
    tempsFrom skip (front ++ (fixed ++ behind)) = tempsFrom skip front ++ tempsFrom false behind := by
  induction front generalizing skip with
  | nil =>
    simp only [separates, Bool.and_eq_true] at cut
    obtain ⟨⟨head, blind⟩, -⟩ := cut
    cases skip with
    | false => exact tempsFrom_blind blind behind
    | true =>
      cases fixed with
      | nil => cases head
      | cons c rest =>
        simp only [isBlind, Bool.and_eq_true] at blind
        exact tempsFrom_blind blind.2 behind
  | cons c rest ih =>
    cases skip with
    | true => exact ih false
    | false =>
      have name := tempAt_append cut (List.cons_ne_nil c rest) behind
      rw [List.cons_append] at name ⊢
      rw [tempsFrom, tempsFrom, ih, name, List.append_assoc]

theorem separates_fixedTexts : ∀ fixed ∈ Java.fixedTexts, separates fixed.toList = true := by
  decide

/-- The search for temporaries. -/
def tempReading : Reading String where
  read := tempsFrom false
  read_nil := rfl
  read_cut fixed mem := tempsFrom_cut (separates_fixedTexts fixed mem) false

theorem see_tempReading (text : String) : tempReading.see text = tempsIn text := rfl

/-! ## Words -/

theorem toList_tempName (n : Nat) : (tempName n).toList = tempMark ++ (toString n).toList :=
  String.toList_append

theorem tempAt_tempName (n : Nat) : tempAt (tempName n).toList = [tempName n] := by
  have whole : ((toString n).toList ++ []).takeWhile Char.isDigit = _ :=
    List.takeWhile_append_of_pos fun c => isDigit_of_mem_toString
  rw [List.takeWhile_nil, List.append_nil] at whole
  rw [tempAt, toList_tempName, if_pos (List.prefix_append _ _), List.drop_left, whole,
    ← toList_tempName, String.ofList_toList]

theorem tempsIn_tempName (n : Nat) : tempsIn (tempName n) = [tempName n] := by
  have behind : 't' ∉ "emp$".toList ++ (toString n).toList := by
    rw [List.mem_append, not_or]
    exact ⟨by decide, fun mem => absurd (isDigit_of_mem_toString mem) (by decide)⟩
  calc tempsFrom false (tempName n).toList
    _ = tempAt (tempName n).toList ++
        tempsFrom false ("emp$".toList ++ (toString n).toList) := by rw [toList_tempName]; rfl
    _ = [tempName n] := by
      rw [tempAt_tempName, tempsFrom_eq_nil_of_not_mem (by decide) behind, List.append_nil]

namespace Text

variable {quote : Char} {content behind : List Char}

/-- Quoted text starts with what needs no escape only if its content does. -/
theorem prefix_of_prefix_escape {mark : List Char} (slash : '\\' ∉ mark) (other : quote ∉ mark)
    (found : mark <+: content.flatMap (escape quote) ++ quote :: behind) : mark <+: content := by
  induction mark generalizing content with
  | nil => exact List.nil_prefix
  | cons c mark ih =>
    rw [List.mem_cons, not_or] at slash other
    cases content with
    | nil => exact absurd (List.cons_prefix_cons.mp found).1 (Ne.symm other.1)
    | cons d content =>
      rw [List.flatMap_cons] at found
      rcases escape_cases quote d with ⟨same, -⟩ | ⟨rest, same, -⟩
      · rw [same, List.append_assoc] at found
        obtain ⟨rfl, more⟩ := List.cons_prefix_cons.mp found
        exact List.cons_prefix_cons.mpr ⟨rfl, ih slash.2 other.2 more⟩
      · rw [same] at found
        exact absurd (List.cons_prefix_cons.mp found).1 (Ne.symm slash.1)

theorem tempsFrom_slash (c : Char) (after : List Char) :
    tempsFrom false ('\\' :: c :: after) = tempsFrom false after := by
  have unmarked : ¬tempMark <+: '\\' :: c :: after :=
    fun found => absurd (List.cons_prefix_cons.mp found).1 (by decide)
  rw [tempsFrom, tempAt_eq_nil unmarked]
  rfl

theorem tempsFrom_hexDigits (n : Nat) (after : List Char) :
    tempsFrom false (hexDigits n ++ after) = tempsFrom false after := by
  have digits : ∀ c ∈ hexDigits n, c ≠ 't' ∧ c ≠ '\\' := by
    have all : ∀ c ∈ "0123456789abcdef".toList, c ≠ 't' ∧ c ≠ '\\' := by simp
    exact fun c mem => all c (mem_hexDigits mem)
  generalize hexDigits n = front at digits ⊢
  induction front with
  | nil => rfl
  | cons c rest ih =>
    obtain ⟨⟨letter, slash⟩, others⟩ := List.forall_mem_cons.mp digits
    have unmarked : ¬tempMark <+: c :: (rest ++ after) :=
      fun found => letter (List.cons_prefix_cons.mp found).1.symm
    rw [List.cons_append, tempsFrom, tempAt_eq_nil unmarked, beq_false_of_ne slash, ih others]
    rfl

/-- What stands for a character is the character itself, or holds no temporary. -/
theorem escape_eq_or_blind (quote c : Char) : escape quote c = [c] ∧ c ≠ '\\' ∨
    ∀ after, tempsFrom false (escape quote c ++ after) = tempsFrom false after := by
  unfold escape
  split
  · exact .inr (tempsFrom_slash _)
  next slash =>
  split
  · exact .inr (tempsFrom_slash _)
  split
  · exact .inr (tempsFrom_slash _)
  split
  · exact .inr (tempsFrom_slash _)
  split
  · exact .inr (tempsFrom_slash _)
  split
  · exact .inr (tempsFrom_slash _)
  split
  · exact .inr (tempsFrom_slash _)
  split
  · refine .inr fun after => ?_
    rw [List.cons_append, List.cons_append, tempsFrom_slash, tempsFrom_hexDigits]
  · exact .inl ⟨rfl, slash⟩

/-- There is no temporary in quoted text whose content does not hold the mark. -/
theorem tempsFrom_quoted (other : quote ∉ tempMark) (slash : quote ≠ '\\')
    (free : ¬tempMark <:+: content) : tempsFrom false (quoted quote content) = [] := by
  have inside : tempsFrom false (content.flatMap (escape quote) ++ [quote]) = [] := by
    induction content with
    | nil => exact tempsFrom_eq_nil (not_infix_singleton quote) false
    | cons c rest ih =>
      have behind : ¬tempMark <:+: rest :=
        fun found => free (found.trans (List.suffix_cons c rest).isInfix)
      have unmarked : ¬tempMark <+: (c :: rest).flatMap (escape quote) ++ [quote] :=
        fun found => free (prefix_of_prefix_escape (by decide) other found).isInfix
      rw [List.flatMap_cons, List.append_assoc] at unmarked ⊢
      rcases escape_eq_or_blind quote c with ⟨same, plain⟩ | blind
      · rw [same, List.singleton_append] at unmarked ⊢
        rw [tempsFrom, tempAt_eq_nil unmarked, beq_false_of_ne plain, ih behind]
        rfl
      · rw [blind, ih behind]
  have unmarked : ¬tempMark <+: quoted quote content := by
    intro found
    have same := (List.cons_prefix_cons.mp found).1
    exact other (same ▸ List.mem_cons_self)
  rw [quoted] at unmarked ⊢
  rw [tempsFrom, tempAt_eq_nil unmarked, beq_false_of_ne slash, inside]
  rfl

end Text

theorem JavaType.dollar_not_mem_source (type : JavaType) : '$' ∉ type.source.toList := by
  induction type with
  | reference name =>
    unfold source
    split
    · decide
    · intro mem
      simp only [mapChars, String.toList_ofList, List.mem_map] at mem
      obtain ⟨old, -, same⟩ := mem
      split at same
      · exact absurd same (by decide)
      · contradiction
  | array component ih =>
    rw [source, String.toList_append, List.mem_append, not_or]
    exact ⟨ih, by decide⟩
  | _ => decide

/-- The constant holds no mark of temporaries, unless in the name of a type. -/
def Literal.Unmarked : Literal → Prop
  | .str value => ¬tempMark <:+: value.toList
  | _ => True

theorem Literal.tempsIn_source {value : Literal} (free : value.Unmarked) :
    tempsIn value.source = [] := by
  have odd : Odd '$' := by decide
  cases value with
  | str value =>
    rw [source, ofString, tempsIn, String.toList_ofList]
    exact Text.tempsFrom_quoted (by decide) (by decide) free
  | char value =>
    by_cases mem : '$' ∈ (source (.char value)).toList
    · obtain ⟨rfl, -⟩ := shows_of_mem_source odd mem
      decide
    · exact tempsFrom_eq_nil_of_not_mem (by decide) mem false
  | type value =>
    refine tempsFrom_eq_nil_of_not_mem (c := '$') (by decide) ?_ false
    rw [source, ofType, String.toList_append, List.mem_append, not_or]
    exact ⟨value.dollar_not_mem_source, by decide⟩
  | _ =>
    exact tempsFrom_eq_nil_of_not_mem (c := '$') (by decide) (shows_of_mem_source odd) false

/-- The word holds no mark of temporaries, unless in the name of a type. -/
def Word.Unmarked : Word → Prop
  | .var name | .field name | .method name | .owner name | .label name => ¬tempMark <:+: name.toList
  | .type _ => True
  | .literal value => value.Unmarked
  | .lead _ => False

/-- The temporaries in a word. -/
def Word.temps (word : Word) : List String := tempReading.word word

theorem Word.Unmarked.temps_eq {word : Word} (free : word.Unmarked) : word.temps = [] := by
  cases word with
  | var _ | field _ | method _ | owner _ | label _ => exact tempsFrom_eq_nil free false
  | type named => exact tempsFrom_eq_nil_of_not_mem (by decide) named.dollar_not_mem_source false
  | literal value => exact Literal.tempsIn_source free
  | lead _ => exact free.elim

theorem Word.temps_tempName (n : Nat) : (Word.var (tempName n)).temps = [tempName n] :=
  tempsIn_tempName n

/-- A word without the mark of temporaries, or the name of one. -/
def Word.MarkedOnce (word : Word) : Prop := word.Unmarked ∨ ∃ n, word = .var (tempName n)

/-- The types and constants that lowering brings in have no mark. -/
theorem Word.standard_unmarked : Standard Unmarked where
  object := trivial
  boolean := trivial
  exception := trivial
  component := id
  owner _ found := JavaType.dollar_not_mem_source _ (found.subset (by decide))
  null := trivial
  zero := trivial
  bool _ := trivial

theorem Word.unmarked_labelName (n : Nat) : (Word.label (labelName n)).Unmarked :=
  fun found => not_mem_numbered (c := '$') (by decide) (by decide) n (found.subset (by decide))

theorem Word.closed_markedOnce : Closed MarkedOnce where
  object := .inl trivial
  boolean := .inl trivial
  exception := .inl trivial
  component _ := .inl trivial
  owner _ := .inl fun found => JavaType.dollar_not_mem_source _ (found.subset (by decide))
  null := .inl trivial
  zero := .inl trivial
  bool _ := .inl trivial
  temp n := .inr ⟨n, rfl⟩
  label n := .inl (unmarked_labelName n)

end JavaBackend
