import JavaBackend.Proofs.Temps.Reading

/-!
# The temporary that a line declares

A declaration starts with its type, which is one word, and the name of its variable
(`declaredBy_temp`). No line of another statement looks like that: what it starts with is given a value
at once, or is an expression, and these are `Calm`.
-/

namespace JavaBackend

open Java (Expr Sink)

/-- The temporary at the start of the text, if it is given a value there. -/
def assignedAt (text : List Char) : List String :=
  (tempAt text).filter fun name => " = ".toList.isPrefixOf (text.drop name.length)

/-- The temporary that is given a value behind the first blank, unless a parenthesis stands in front of
    that. -/
def declaredFrom : List Char → List String
  | [] => []
  | c :: rest =>
    if c = '(' then [] else if c = ' ' then assignedAt rest else declaredFrom rest

/-- The temporary that a line declares, if any. -/
def declaredBy (line : String) : List String := declaredFrom line.toList

theorem tempAt_named {fixed : List Char} (cut : separates fixed = true) (n : Nat)
    (behind : List Char) : tempAt ((tempName n).toList ++ (fixed ++ behind)) = [tempName n] := by
  have named : (tempName n).toList ≠ [] := by simp [toList_tempName, tempMark]
  exact (tempAt_append cut named behind).trans (tempAt_tempName n)

/-- A temporary behind its type is found. -/
theorem declaredBy_temp {type : String} (word : ∀ c ∈ type.toList, c ≠ '(' ∧ c ≠ ' ') (n : Nat)
    (init : String) : declaredBy (type ++ " " ++ tempName n ++ " = " ++ init ++ ";") = [tempName n] := by
  simp only [declaredBy, String.toList_append, List.append_assoc]
  generalize type.toList = text at word
  induction text with
  | nil =>
    show assignedAt ((tempName n).toList ++ (" = ".toList ++ _)) = _
    rw [assignedAt, tempAt_named (by decide)]
    simp [← String.length_toList]
  | cons c rest ih =>
    obtain ⟨⟨bracket, blank⟩, others⟩ := List.forall_mem_cons.mp word
    rw [List.cons_append, declaredFrom, if_neg bracket, if_neg blank, ih others]

section

variable {c : Char} {text rest behind : List Char}

theorem assignedAt_of_unmarked (unmarked : tempAt text = []) : assignedAt text = [] := by
  rw [assignedAt, unmarked]
  rfl

theorem assignedAt_append (cut : separates [c] = true) (none : tempsFrom false text = []) :
    assignedAt (text ++ c :: behind) = [] := by
  apply assignedAt_of_unmarked
  cases text with
  | nil =>
    simp only [separates, isBlind, Bool.and_eq_true] at cut
    exact tempAt_eq_nil (not_prefix_of_apart cut.1.2.1.1 (List.prefix_append [c] behind))
  | cons d rest =>
    exact (tempAt_append cut (List.cons_ne_nil d rest) _).trans (List.append_eq_nil_iff.mp none).1

theorem declaredFrom_cons (here : c = ' ' → assignedAt rest = []) (others : declaredFrom rest = []) :
    declaredFrom (c :: rest) = [] := by
  unfold declaredFrom
  split
  · rfl
  split
  · next blank => exact here blank
  · exact others

theorem declaredFrom_unmarked (cut : separates [c] = true) {skip : Bool}
    (none : tempsFrom skip text = []) (others : declaredFrom (c :: behind) = []) :
    declaredFrom (text ++ c :: behind) = [] := by
  -- Along `tempsFrom`: a blank is no backslash, so what stands behind it is looked at as a name.
  induction text generalizing skip with
  | nil => exact others
  | cons d rest ih =>
    cases skip with
    | true =>
      have none : tempsFrom false rest = [] := none
      exact declaredFrom_cons (fun _ => assignedAt_append cut none) (ih none)
    | false =>
      have none := (List.append_eq_nil_iff.mp none).2
      refine declaredFrom_cons (fun blank => assignedAt_append cut ?_) (ih none)
      rwa [blank] at none

theorem declaredFrom_tempName (n : Nat) (others : declaredFrom behind = []) :
    declaredFrom ((tempName n).toList ++ behind) = [] := by
  -- The name itself does not count, since only what is behind a blank does.
  have free : ' ' ∉ (tempName n).toList := not_mem_numbered (by decide) (by decide) n
  generalize (tempName n).toList = text at free
  induction text with
  | nil => exact others
  | cons c rest ih =>
    rw [List.mem_cons, not_or] at free
    exact declaredFrom_cons (fun blank => absurd blank.symm free.1) (ih free.2)

end

theorem tempsIn_type (type : JavaType) : tempsIn type.source = [] :=
  tempsFrom_eq_nil_of_not_mem (by decide) type.dollar_not_mem_source false

/-! ## Expressions -/

theorem separates_end : ∀ c ∈ ".;:".toList, separates [c] = true ∧ c ≠ ' ' := by
  intro c mem
  simp only [String.reduceToList, List.mem_cons, List.not_mem_nil, or_false] at mem
  rcases mem with rfl | rfl | rfl <;> decide

/-- Nothing is declared by a line that starts with the text, nor by one that has the text behind its
    first blank. -/
structure Calm (text : String) : Prop where
  value : ∀ c ∈ ".;:".toList, ∀ behind, assignedAt (text.toList ++ c :: behind) = []
  line : ∀ c ∈ ".;:".toList, ∀ behind, declaredFrom behind = [] →
    declaredFrom (text.toList ++ c :: behind) = []

theorem Calm.ofUnmarked {text : String} (none : tempsIn text = []) : Calm text where
  value c mem _ := assignedAt_append (separates_end c mem).1 none
  line c mem _ others :=
    declaredFrom_unmarked (separates_end c mem).1 none
      (declaredFrom_cons (absurd · (separates_end c mem).2) others)

theorem Calm.tempName (n : Nat) : Calm (tempName n) where
  value c mem behind := by
    obtain ⟨cut, other⟩ := separates_end c mem
    rw [assignedAt, show c :: behind = [c] ++ behind from rfl, tempAt_named cut]
    simp [← String.length_toList, Ne.symm other]
  line c mem _ others :=
    declaredFrom_tempName n (declaredFrom_cons (absurd · (separates_end c mem).2) others)

theorem Calm.ofWord {word : Word} (once : word.MarkedOnce) : Calm word.text := by
  rcases once with unmarked | ⟨n, rfl⟩
  · exact .ofUnmarked unmarked.temps_eq
  · exact .tempName n

theorem Calm.paren (text : String) : Calm ("(" ++ text) where
  value _ _ _ := assignedAt_of_unmarked (by simp [tempAt, tempMark])
  line _ _ _ _ := by
    rw [String.toList_append]
    exact if_pos rfl

theorem Calm.called {front : String} (none : tempsIn front = []) (text : String) :
    Calm (front ++ ("(" ++ text)) where
  value _ _ _ := by
    simp only [String.toList_append, List.append_assoc]
    exact assignedAt_append (by decide) none
  line _ _ _ _ := by
    simp only [String.toList_append, List.append_assoc]
    exact declaredFrom_unmarked (by decide) none (if_pos rfl)

theorem Calm.member {target name : String} (calm : Calm target) (others : Calm name) :
    Calm (target ++ ("." ++ name)) where
  value _ _ _ := by
    simp only [String.toList_append, List.append_assoc]
    exact calm.value '.' (by decide) _
  line c mem behind rest := by
    simp only [String.toList_append, List.append_assoc]
    exact calm.line '.' (by decide) _ (others.line c mem behind rest)

theorem Calm.new (type : JavaType) {bracket : Char} (cut : separates [bracket] = true)
    (text : String) : Calm ("new " ++ (type.source ++ (String.singleton bracket ++ text))) where
  value _ _ _ := assignedAt_of_unmarked (by simp [tempAt, tempMark])
  line _ _ _ _ := by
    simp only [String.toList_append, List.append_assoc, String.toList_singleton]
    exact assignedAt_append cut (tempsIn_type type)

namespace Java.Expr

/-- Nothing is declared by an expression. -/
theorem calm_text : (expr : Expr) → OverAll Word.MarkedOnce expr.words → Calm expr.text
  | .literal _, once => .ofWord (once _ List.mem_cons_self)
  | .var _, once => .ofWord (once _ List.mem_cons_self)
  | .owner _, once => .ofWord (once _ List.mem_cons_self)
  | .this, _ => .ofUnmarked (by decide)
  | .concat [], _ => .ofUnmarked (by decide)
  | .field target name, once => by
    obtain ⟨inner, own⟩ := OverAll.append_iff.mp once
    simp only [text, String.append_assoc]
    exact (calm_text target inner).member (.ofWord (own _ List.mem_cons_self))
  | .call target method args, once => by
    obtain ⟨inner, own, -⟩ := (OverAll.append_iff.mp once).imp_right OverAll.cons_iff.mp
    simp only [text, String.append_assoc]
    have named := (own.resolve_right (by simp)).temps_eq
    exact (calm_text target inner).member (.called named _)
  | .unary op operand, _ => by
    simp only [text, String.append_assoc]
    exact .called (by cases op <;> decide) _
  | .new type args, _ => by
    simp only [text, String.append_assoc]
    exact .new type (by decide : separates ['('] = true) _
  | .newArray component size, _ => by
    simp only [text, String.append_assoc]
    exact .new component.dimensions.1 (by decide : separates ['['] = true) _
  | .concat (first :: _), _ => by
    rw [text, String.append_assoc]
    split
    · exact .paren _
    · exact .paren ("\"\" + " ++ _)
  | .cast _ _, _ => by
    simp only [text, String.append_assoc]
    exact .paren ("(" ++ _)
  | .assign _ _, _ | .binary _ _ _, _ | .isNull _, _ | .instanceOf _ _, _
  | .cond _ _ _, _ => by
    simp only [text, String.append_assoc]
    exact .paren _

end Java.Expr

/-! ## Lines -/

theorem Calm.declaredBy_eq {text : String} (calm : Calm text) : declaredBy (text ++ ";") = [] := by
  rw [declaredBy, String.toList_append]
  exact calm.line ';' (by decide) [] rfl

/-- What is given a value at the start of a line is not declared there. -/
theorem declaredFrom_set {word : Word} (once : word.MarkedOnce) (behind : List Char) :
    declaredFrom (word.text.toList ++ (" = ".toList ++ behind)) = [] := by
  have others : declaredFrom (" = ".toList ++ behind) = [] := by
    show assignedAt ('=' :: ' ' :: behind) = []
    exact assignedAt_of_unmarked (by simp [tempAt, tempMark])
  rcases once with unmarked | ⟨n, rfl⟩
  · exact declaredFrom_unmarked (by decide) unmarked.temps_eq others
  · exact declaredFrom_tempName n others

namespace Java.Stmt

/-- The declaration of a variable that is no temporary. -/
theorem declaredBy_declaration (type : JavaType) {name : String} (unmarked : (Word.var name).Unmarked)
    (init : String) : declaredBy (declaration type name init) = [] := by
  simp only [declaredBy, declaration, String.toList_append, List.append_assoc]
  refine declaredFrom_unmarked (by decide) (tempsIn_type type) ?_
  exact assignedAt_append (by decide) unmarked.temps_eq

theorem declaredBy_store {sink : Sink} {value : Expr}
    (once : OverAll Word.MarkedOnce (store sink value).words) :
    declaredBy (sink.text ++ value.text ++ ";") = [] := by
  obtain ⟨own, inner⟩ := OverAll.append_iff.mp once
  have calm := value.calm_text inner
  simp only [declaredBy, String.toList_append, List.append_assoc]
  cases sink with
  | into name =>
    rw [Sink.text, String.toList_append, List.append_assoc]
    exact declaredFrom_set (own _ List.mem_cons_self) _
  | result | thrown => exact calm.value ';' (by decide) []
  | lead text => simpa [Word.MarkedOnce, Word.Unmarked] using own _ List.mem_cons_self

theorem declaredBy_setField {target value : Expr} {name : String}
    (once : OverAll Word.MarkedOnce (setField (.field target name) value).words) :
    declaredBy ((Expr.field target name).text ++ " = " ++ value.text ++ ";") = [] := by
  obtain ⟨inner, own⟩ := OverAll.append_iff.mp (OverAll.append_iff.mp once).1
  simp only [declaredBy, Expr.text, String.toList_append, List.append_assoc]
  exact (target.calm_text inner).line '.' (by decide) _
    (declaredFrom_set (own _ List.mem_cons_self) _)

theorem declaredBy_called {front : String} (none : tempsIn front = []) (args last : String) :
    declaredBy (front ++ "(" ++ args ++ last) = [] := by
  simp only [declaredBy, String.toList_append, List.append_assoc]
  exact declaredFrom_unmarked (by decide) none (if_pos rfl)

theorem declaredBy_jump {keyword : String} (none : tempsIn keyword = []) {label : Option String}
    (once : OverAll Word.MarkedOnce (label.elim [] fun name => [Word.label name])) :
    declaredBy (jump keyword label) = [] := by
  cases label with
  | none => exact (Calm.ofUnmarked none).declaredBy_eq
  | some name =>
    have calm := Calm.ofWord (once _ List.mem_cons_self)
    simp only [declaredBy, jump, String.toList_append, List.append_assoc]
    exact declaredFrom_unmarked (by decide) none (calm.value ';' (by decide) [])

end Java.Stmt

end JavaBackend
