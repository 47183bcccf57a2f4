import JavaBackend.Proofs.Grammar.Phrases

/-!
# Reading expressions

A reader by recursive descent for the grammar of expressions. Every phrase is read as its tree
(`Derives.isRead`), so that no phrase has two
(`Derives.unique`).

The reader looks ahead in one place: a parenthesis can open a cast. It does if a type and a closing
parenthesis follow and, unless the type is primitive, something that an operand without a sign can
start with.
-/

namespace JavaBackend.Java

/-! ## The reader -/

/-- The identifiers behind the first one of a qualified name. -/
def qualified (first : String) (more : List String) : List Token → WrittenType × List Token
  | .dot :: .name part :: rest => qualified first (more ++ [part]) rest
  | rest => (.named first more, rest)

/-- The dimensions behind a type. -/
def arrays (type : WrittenType) : List Token → WrittenType × List Token
  | .openBracket :: .closeBracket :: rest => arrays (.array type) rest
  | rest => (type, rest)

def type? : List Token → Option (WrittenType × List Token)
  | .primitive type :: rest => some (arrays (.primitive type) rest)
  | .name first :: rest =>
    let (type, rest) := qualified first [] rest
    some (arrays type rest)
  | _ => none

/-- What an operand without a sign can start with. -/
def startsUnsigned : Token → Bool
  | .opening | .new | .not | .complement | .primitive _ => true
  | token => (leaf? token).isSome

/-- The type of a cast behind its opening parenthesis. -/
def castType? (tokens : List Token) : Option (WrittenType × List Token) :=
  match type? tokens with
  | some (type, .closing :: rest) =>
    if type.isPrimitive || rest.head?.any startsUnsigned then some (type, rest) else none
  | _ => none

/-- The dimensions behind a type and the word `class`. -/
def classTail? (type : WrittenType) : List Token → Option (WrittenType × List Token)
  | .openBracket :: .closeBracket :: rest => classTail? (.array type) rest
  | .dot :: .classWord :: rest => some (type, rest)
  | _ => none

/-- The type that a name can be. -/
def Ast.typeName? : Ast → Option WrittenType
  | .name text => some (.named text [])
  | .select target part =>
    match target.typeName? with
    | some (.named first more) => some (.named first (more ++ [part]))
    | _ => none
  | _ => none

def unaryOp? : Token → Option UnaryOp
  | .op .sub => some .neg
  | .op .add => some .plus
  | .not => some .not
  | .complement => some .bitNot
  | _ => none

mutual

def expression (tokens : List Token) : Option (Ast × List Token) :=
  match conditional tokens with
  | some (target, .assign :: rest) =>
    if _ : rest.length < tokens.length then
      (expression rest).map fun (value, rest) => (.assign target value, rest)
    else none
  | other => other
termination_by (tokens.length, 4)

def conditional (tokens : List Token) : Option (Ast × List Token) :=
  match operation 0 tokens with
  | some (test, .question :: rest) =>
    if _ : rest.length < tokens.length then
      match expression rest with
      | some (yes, .colon :: rest) =>
        if _ : rest.length < tokens.length then
          (conditional rest).map fun (no, rest) => (.cond test yes no, rest)
        else none
      | _ => none
    else none
  | other => other
termination_by (tokens.length, 3)

/-- An operand and the operators behind it that are at least as tight as the level. -/
def operation (least : Nat) (tokens : List Token) : Option (Ast × List Token) :=
  match unary tokens with
  | some (first, rest) => if _ : rest.length < tokens.length then climb least first rest else none
  | none => none
termination_by (tokens.length, 2)

def climb (least : Nat) (left : Ast) (tokens : List Token) : Option (Ast × List Token) :=
  match tokens with
  | .op op :: rest =>
    if least ≤ level op then
      match operation (level op + 1) rest with
      | some (right, later) =>
        if _ : later.length < rest.length then climb least (.binary op left right) later else none
      | none => none
    else some (left, .op op :: rest)
  | .instanceOf :: rest =>
    if least ≤ relational then
      match type? rest with
      | some (type, later) =>
        if _ : later.length < rest.length then climb least (.instanceOf left type) later else none
      | none => none
    else some (left, .instanceOf :: rest)
  | _ => some (left, tokens)
termination_by (tokens.length, 0)

def unary (tokens : List Token) : Option (Ast × List Token) :=
  match tokens with
  | .opening :: rest =>
    match castType? rest with
    | some (type, later) =>
      if _ : later.length < rest.length then
        (unary later).map fun (value, rest) => (.cast type value, rest)
      else none
    | none =>
      match expression rest with
      | some (inner, .closing :: later) =>
        if _ : later.length < rest.length then suffixes inner later else none
      | _ => none
  | .new :: rest =>
    match type? rest with
    | some (type, .opening :: later) =>
      if _ : later.length < rest.length then
        match arguments later with
        | some (args, later) =>
          if _ : later.length < rest.length then suffixes (.create type args) later else none
        | none => none
      else none
    | some (type, .openBracket :: later) =>
      if _ : later.length < rest.length then
        match expression later with
        | some (size, .closeBracket :: later) =>
          if _ : (arrays type later).2.length < rest.length then
            suffixes (.createArray (arrays type later).1 size) (arrays type later).2
          else none
        | _ => none
      else none
    | _ => none
  | .primitive type :: rest =>
    match classTail? (.primitive type) rest with
    | some (type, later) =>
      if _ : later.length < rest.length then suffixes (.classOf type) later else none
    | none => none
  | token :: rest =>
    match unaryOp? token with
    | some op => (unary rest).map fun (operand, rest) => (.unary op operand, rest)
    | none => (leaf? token).bind (suffixes · rest)
  | [] => none
termination_by (tokens.length, 1)

/-- The members behind a value. -/
def suffixes (target : Ast) (tokens : List Token) : Option (Ast × List Token) :=
  match target.typeName?.bind (classTail? · tokens) with
  | some (type, later) =>
    if _ : later.length < tokens.length then suffixes (.classOf type) later else none
  | none =>
    match tokens with
    | .dot :: .name name :: .opening :: rest =>
      match arguments rest with
      | some (args, later) =>
        if _ : later.length < rest.length then suffixes (.invoke target name args) later else none
      | none => none
    | .dot :: .name name :: rest => suffixes (.select target name) rest
    | _ => some (target, tokens)
termination_by (tokens.length, 0)

/-- Arguments and the parenthesis that closes them. -/
def arguments : List Token → Option (List Ast × List Token)
  | .closing :: rest => some ([], rest)
  | tokens => someArguments tokens
termination_by tokens => (tokens.length, 6)

def someArguments (tokens : List Token) : Option (List Ast × List Token) :=
  match expression tokens with
  | some (arg, .comma :: rest) =>
    if _ : rest.length < tokens.length then
      (someArguments rest).map fun (args, rest) => (arg :: args, rest)
    else none
  | some (arg, .closing :: rest) => some ([arg], rest)
  | _ => none
termination_by (tokens.length, 5)

end

/-! ## Types -/

variable {tokens rest : List Token} {tree : Ast} {category : Category}

theorem qualified_members (first : String) (more parts : List String) (rest : List Token) :
    qualified first more (members parts ++ rest) = qualified first (more ++ parts) rest := by
  induction parts generalizing more with
  | nil => rw [List.append_nil]; rfl
  | cons part parts ih =>
    show qualified first (more ++ [part]) (members parts ++ rest) = _
    rw [ih, List.append_assoc]
    rfl

theorem arrays_brackets (type : WrittenType) (rest : List Token) :
    arrays type.element (type.brackets ++ rest) = arrays type rest := by
  induction type generalizing rest with
  | primitive | named => rfl
  | array component ih =>
    show arrays component.element (component.brackets ++ [.openBracket, .closeBracket] ++ rest) = _
    rw [List.append_assoc, ih]
    rfl

theorem arrays_stop (type : WrittenType) (stop : rest.head? ≠ some .openBracket) :
    arrays type rest = (type, rest) := by
  rw [arrays]
  rintro later rfl
  exact stop rfl

theorem element_tokens (type : WrittenType) : type.tokens = type.element.tokens ++ type.brackets := by
  induction type with
  | primitive | named => exact (List.append_nil _).symm
  | array component ih =>
    show component.tokens ++ _ = component.element.tokens ++ (component.brackets ++ _)
    rw [ih, List.append_assoc]

theorem element_cases (type : WrittenType) :
    (∃ primitive, type.element = .primitive primitive) ∨
      ∃ first more, type.element = .named first more := by
  induction type with
  | primitive type => exact .inl ⟨type, rfl⟩
  | named first more => exact .inr ⟨first, more, rfl⟩
  | array component ih => exact ih

/-- A type is read as itself, with the dimensions that follow it. -/
theorem type?_tokens (type : WrittenType)
    (stop : ∀ part later, rest ≠ .dot :: .name part :: later) :
    type? (type.tokens ++ rest) = some (arrays type rest) := by
  induction type generalizing rest with
  | primitive => rfl
  | named first more =>
    have name : qualified first [] (members more ++ rest) = (.named first more, rest) := by
      rw [qualified_members, qualified]
      · rfl
      · exact stop
    show some (arrays (qualified first [] (members more ++ rest)).1
      (qualified first [] (members more ++ rest)).2) = _
    rw [name]
  | array component ih =>
    show type? (component.tokens ++ [.openBracket, .closeBracket] ++ rest) = _
    rw [List.append_assoc, ih (by simp)]
    rfl

theorem classTail?_brackets (type : WrittenType) (rest : List Token) :
    classTail? type.element (type.brackets ++ rest) = classTail? type rest := by
  induction type generalizing rest with
  | primitive | named => rfl
  | array component ih =>
    show classTail? component.element (component.brackets ++ [.openBracket, .closeBracket] ++ rest) = _
    rw [List.append_assoc, ih]
    rfl

/-! ## How phrases start -/

theorem Derives.ne_nil (derives : Derives category tokens tree) : tokens ≠ [] := by
  induction derives with
  | classOf type => simp
  | _ => simp_all

theorem startsUnsigned_of_leaf? {token : Token} (found : leaf? token = some tree) :
    startsUnsigned token = true := by
  cases token with
  | name _ | int _ | long _ | double _ | char _ | str _ | bool _ | null | this => rfl
  | _ => cases found

theorem head?_any_append {p : Token → Bool} (front : tokens.head?.any p = true) (rest : List Token) :
    (tokens ++ rest).head?.any p = true := by
  cases tokens with
  | nil => cases front
  | cons => exact front

/-- An operand without a sign starts with one of the tokens that are looked for behind a cast. -/
theorem Derives.starts (derives : Derives category tokens tree)
    (unsigned : category = .primary ∨ category = .unsigned) :
    tokens.head?.any startsUnsigned = true := by
  induction derives with
  | leaf found => exact startsUnsigned_of_leaf? found
  | select _ _ ih => exact head?_any_append (ih unsigned) _
  | invoke _ _ _ ih =>
    rw [List.append_assoc, List.append_assoc]
    exact head?_any_append (ih unsigned) _
  | parens | create | createArray | cast => rfl
  | classOf type =>
    rw [element_tokens, List.append_assoc]
    refine head?_any_append ?_ _
    induction type with
    | primitive | named => rfl
    | array component ih => exact ih
  | @negation op negation =>
    cases op with
    | not | bitNot => rfl
    | neg | plus => cases negation
  | unsigned _ ih => exact ih (.inl rfl)
  | _ => simp at unsigned

/-! ## Casts -/

/-- Wherever a type is read off the start of the tokens, no parenthesis closes right behind it. -/
def NoCast (tokens : List Token) : Prop :=
  ∀ rest type later, type? (tokens ++ rest) = some (type, later) → later.head? ≠ some .closing

theorem NoCast.append (noCast : NoCast tokens) (more : List Token) : NoCast (tokens ++ more) := by
  intro rest type later read
  rw [List.append_assoc] at read
  exact noCast _ type later read

theorem noCast_cons {token : Token} (name : ∀ text, token ≠ .name text)
    (primitive : ∀ type, token ≠ .primitive type) : NoCast (token :: tokens) := by
  intro rest type later read
  rw [List.cons_append, type?] at read
  · cases read
  · rintro type _ ⟨rfl, rfl⟩
    exact primitive type rfl
  · rintro text _ ⟨rfl, rfl⟩
    exact name text rfl

/-- A type ends in front of what does not go on with it. -/
theorem noCast_type (type : WrittenType) {token : Token}
    (member : ∀ rest part later, token :: tokens ++ rest ≠ .dot :: .name part :: later)
    (apart : token ≠ .openBracket ∧ token ≠ .closing) : NoCast (type.tokens ++ token :: tokens) := by
  intro rest found later read
  rw [List.append_assoc, type?_tokens type (member rest),
    arrays_stop type (by simpa using apart.1)] at read
  cases read
  simpa using apart.2

/-- The tokens are a name, or they are not read as a type in parentheses. -/
def NameOrNoCast (tokens : List Token) : Prop :=
  (∃ first more, tokens = (WrittenType.named first more).tokens) ∨ NoCast tokens

namespace NameOrNoCast

/-- An operator behind a name does not go on with it. -/
theorem operator (first : NameOrNoCast tokens) (token : Token)
    (apart : token ∉ [.dot, .openBracket, .closing]) (second : List Token) :
    NoCast (tokens ++ token :: second) := by
  rcases first with ⟨name, more, rfl⟩ | noCast
  · refine noCast_type (.named name more) ?_ ?_
    · intro rest part later same
      exact apart (by simp [(List.cons.inj same).1])
    · exact ⟨fun same => apart (by simp [same]), fun same => apart (by simp [same])⟩
  · exact noCast.append _

theorem select (target : NameOrNoCast tokens) (name : String) :
    NameOrNoCast (tokens ++ [.dot, .name name]) := by
  rcases target with ⟨first, more, rfl⟩ | noCast
  · exact .inl ⟨first, more ++ [name], by simp [WrittenType.tokens, members]⟩
  · exact .inr (noCast.append _)

end NameOrNoCast

theorem noCast_unary (op : UnaryOp) : NoCast (unaryToken op :: tokens) := by
  cases op <;> exact noCast_cons (fun _ => Token.noConfusion) (fun _ => Token.noConfusion)

theorem Derives.nameOrNoCast (derives : Derives category tokens tree) : NameOrNoCast tokens := by
  induction derives with
  | @leaf token _ found =>
    cases token with
    | name text => exact .inl ⟨text, [], rfl⟩
    | primitive => cases found
    | _ => exact .inr (noCast_cons (by simp) (by simp))
  | select _ name ih => exact ih.select name
  | invoke _ method _ ih =>
    have call := (ih.select method).operator .opening (by simp) []
    rw [List.append_assoc] at call
    exact .inr ((call.append _).append _)
  | classOf type => exact .inr (noCast_type type (by simp) (by simp))
  | parens | create | createArray | cast => exact .inr (noCast_cons (by simp) (by simp))
  | unsigned _ ih | unary _ ih | operand _ ih | tighter _ ih | conditional _ ih | expression _ ih =>
    exact ih
  | negation | sign => exact .inr (noCast_unary _)
  | least => exact .inr (noCast_unary .neg)
  | binary _ _ _ first | instanceOf _ _ first => exact .inr (first.operator _ (by simp) _)
  | cond _ _ _ first => exact .inr ((first.operator _ (by simp) _).append _)
  | assign name => exact .inr (NameOrNoCast.operator (.inl ⟨name, [], rfl⟩) _ (by simp) _)
  | assignField _ name _ target => exact .inr ((target.select name).operator _ (by simp) _)

/-! ## How phrases end -/

/-- Whether an operator of the level ends a phrase of the category. -/
def Category.endsAt (operator : Nat) : Category → Bool
  | .operation least => operator ≤ least
  | .conditional | .expression => false
  | .primary | .unsigned | .unary => true

/-- What can follow a phrase of the category without being a part of it. -/
def ends (category : Category) : Token → Bool
  | .colon | .comma | .closing | .closeBracket => true
  | .assign => category ≠ .expression
  | .question => category.endsAt 0
  | .op op => category.endsAt (level op)
  | .instanceOf => category.endsAt relational
  | .dot => category = .primary
  | _ => false

/-- What follows is not a part of a phrase of the category. -/
def Ends (category : Category) (rest : List Token) : Prop :=
  ∀ token ∈ rest.head?, ends category token = true

/-- What ends a phrase of one category ends one of the other, too. -/
theorem Ends.mono {looser tighter : Category} (stop : Ends looser rest)
    (expression : tighter ≠ .expression ∨ looser = .expression)
    (primary : looser = .primary → tighter = .primary)
    (operators : ∀ operator, looser.endsAt operator = true → tighter.endsAt operator = true) :
    Ends tighter rest := by
  intro token mem
  have ended := stop token mem
  cases token <;> simp_all [ends]

theorem Ends.nil : Ends category [] := fun _ mem => by cases mem

theorem Ends.cons {token : Token} (ended : ends category token = true) :
    Ends category (token :: rest) :=
  fun _ mem => Option.some.inj mem ▸ ended

/-- What ends the operations of a level ends the tighter ones. -/
theorem Ends.succ {most : Nat} (stop : Ends (.operation most) rest) :
    Ends (.operation (most + 1)) rest :=
  stop.mono (by simp) (by simp) fun _ ended =>
    decide_eq_true (Nat.le_succ_of_le (of_decide_eq_true ended))

/-- The tokens that end no phrase of the category do not follow. -/
theorem Ends.head?_ne (stop : Ends category rest)
    {token : Token} (goesOn : ends category token = false) :
    rest.head? ≠ some token := fun head =>
  Bool.false_ne_true (goesOn.symm.trans (stop token head))

theorem classTail?_stop (type : WrittenType) (stop : Ends .unary rest) :
    classTail? type rest = none := by
  have noArray : rest.head? ≠ some .openBracket := stop.head?_ne rfl
  have noMember : rest.head? ≠ some .dot := stop.head?_ne rfl
  rw [classTail?] <;> rintro later rfl
  · exact noArray rfl
  · exact noMember rfl

theorem suffixes_stop (stop : Ends .unary rest) : suffixes tree rest = some (tree, rest) := by
  have noClass : tree.typeName?.bind (classTail? · rest) = none := by
    cases tree.typeName? with
    | none => rfl
    | some type => exact classTail?_stop type stop
  have noMember : rest.head? ≠ some .dot := stop.head?_ne rfl
  rw [suffixes, noClass] <;> rintro _ _ rfl <;> exact noMember rfl

/-- Operators that are looser than the level are left alone. -/
theorem climb_stop {least : Nat} (stop : Ends category rest)
    (looser : ∀ operator, category.endsAt operator = true → operator < least) :
    climb least tree rest = some (tree, rest) := by
  cases rest with
  | nil => rw [climb] <;> simp
  | cons token rest =>
    have ended := stop token rfl
    cases token with
    | op op => rw [climb, if_neg (Nat.not_le_of_lt (looser _ ended))]
    | instanceOf => rw [climb, if_neg (Nat.not_le_of_lt (looser _ ended))]
    | _ => rw [climb] <;> simp

/-! ## Phrases are read -/

/-- The reader of the category reads the tokens as the tree, whatever ends the phrase. -/
def IsRead (category : Category) (tokens : List Token) (tree : Ast) : Prop :=
  ∀ rest, Ends category rest →
    match category with
    | .primary => unary (tokens ++ rest) = suffixes tree rest
    | .unsigned | .unary => unary (tokens ++ rest) = some (tree, rest)
    | .operation most => ∀ least ≤ most, operation least (tokens ++ rest) = climb least tree rest
    | .conditional => conditional (tokens ++ rest) = some (tree, rest)
    | .expression => expression (tokens ++ rest) = some (tree, rest)

theorem length_lt_append (some? : tokens ≠ []) (rest : List Token) :
    rest.length < (tokens ++ rest).length := by
  rw [List.length_append]
  exact Nat.lt_add_of_pos_left (List.length_pos_iff.mpr some?)

theorem length_lt_append_cons (front : List Token) (token : Token) (later : List Token) :
    later.length < (front ++ token :: later).length := by
  rw [List.length_append, List.length_cons]
  omega

/-! ### Values and their members -/

/-- No operand starts with another token. -/
theorem unary_eq_none {token : Token} (noStart : startsUnsigned token = false)
    (noOperator : unaryOp? token = none) (rest : List Token) : unary (token :: rest) = none := by
  have noLeaf : leaf? token = none := by
    refine Option.eq_none_iff_forall_ne_some.mpr fun tree found => ?_
    exact Bool.false_ne_true (noStart.symm.trans (startsUnsigned_of_leaf? found))
  rw [unary, noOperator, noLeaf]
  · rfl
  · rintro rfl
    cases noStart
  · rintro rfl
    cases noStart
  · rintro type rfl
    cases noStart

theorem unary_leaf {token : Token} (found : leaf? token = some tree) (rest : List Token) :
    unary (token :: rest) = suffixes tree rest := by
  have noOperator : unaryOp? token = none := by
    cases token with
    | op _ | not | complement => cases found
    | _ => rfl
  rw [unary, noOperator, found]
  · rfl
  · rintro rfl
    cases found
  · rintro rfl
    cases found
  · rintro type rfl
    cases found

theorem suffixes_classOf {target : Ast} {type : WrittenType} {later : List Token}
    (found : target.typeName?.bind (classTail? · rest) = some (type, later))
    (shorter : later.length < rest.length) : suffixes target rest = suffixes (.classOf type) later := by
  rw [suffixes.eq_def, found]
  exact dif_pos shorter

theorem suffixes_select {target : Ast} {name : String} (noCall : rest.head? ≠ some .opening) :
    suffixes target (.dot :: .name name :: rest) = suffixes (.select target name) rest := by
  have noClass : target.typeName?.bind (classTail? · (.dot :: .name name :: rest)) = none := by
    cases target.typeName? <;> rfl
  rw [suffixes, noClass]
  rintro later rfl
  exact noCall rfl

theorem suffixes_invoke {target : Ast} {name : String} {args : List Ast} {later : List Token}
    (read : arguments rest = some (args, later)) (shorter : later.length < rest.length) :
    suffixes target (.dot :: .name name :: .opening :: rest) =
      suffixes (.invoke target name args) later := by
  have noClass :
      target.typeName?.bind (classTail? · (.dot :: .name name :: .opening :: rest)) = none := by
    cases target.typeName? <;> rfl
  rw [suffixes, noClass]
  simp only [read, dif_pos shorter]

theorem suffixes_members (target : Ast) (parts : List String) (noCall : rest.head? ≠ some .opening) :
    suffixes target (members parts ++ rest) = suffixes (parts.foldl .select target) rest := by
  induction parts generalizing target with
  | nil => rfl
  | cons part parts ih =>
    have next : (members parts ++ rest).head? ≠ some .opening := by
      cases parts with
      | nil => exact noCall
      | cons => simp [members]
    exact (suffixes_select next).trans (ih _)

theorem typeName?_members (first : String) (more parts : List String) {target : Ast}
    (name : target.typeName? = some (.named first more)) :
    (parts.foldl .select target).typeName? = some (.named first (more ++ parts)) := by
  induction parts generalizing target more with
  | nil => rw [List.append_nil, ← name]; rfl
  | cons part parts ih =>
    have next : (Ast.select target part).typeName? = some (.named first (more ++ [part])) := by
      rw [Ast.typeName?, name]
    rw [List.foldl_cons, ih _ next, List.append_assoc]
    rfl

namespace IsRead

theorem leaf {token : Token} (found : leaf? token = some tree) : IsRead .primary [token] tree :=
  fun rest _ => unary_leaf found rest

theorem select (target : IsRead .primary tokens tree) (name : String) :
    IsRead .primary (tokens ++ [.dot, .name name]) (.select tree name) := by
  intro rest stop
  show unary (tokens ++ [.dot, .name name] ++ rest) = _
  rw [List.append_assoc]
  exact (target _ (Ends.cons rfl)).trans (suffixes_select (stop.head?_ne rfl))

/-- A phrase starts with a token that the reader accepts. -/
theorem exists_cons (read : IsRead .expression tokens tree) :
    ∃ first more, tokens = first :: more ∧ first ≠ .closing ∧ first ≠ .closeBracket := by
  have found : expression tokens = some (tree, []) := by simpa using read [] Ends.nil
  have accepted : unary tokens ≠ none := by
    intro refused
    rw [expression, conditional, operation, refused] at found
    simp at found
  cases tokens with
  | nil => exact absurd (by rw [unary]) accepted
  | cons first more =>
    refine ⟨first, more, rfl, ?_, ?_⟩ <;> rintro rfl
    · exact accepted (unary_eq_none rfl rfl more)
    · exact accepted (unary_eq_none rfl rfl more)

theorem someArguments {args : List (List Token × Ast)} (some? : args ≠ [])
    (each : ∀ arg ∈ args, IsRead .expression arg.1 arg.2) (rest : List Token) :
    Java.someArguments (separated (args.map Prod.fst) ++ .closing :: rest) =
      some (args.map Prod.snd, rest) := by
  induction args with
  | nil => exact absurd rfl some?
  | cons arg args ih =>
    have first := each arg List.mem_cons_self
    cases args with
    | nil =>
      have read : expression (arg.1 ++ .closing :: rest) = some (arg.2, .closing :: rest) :=
        first _ (Ends.cons rfl)
      show Java.someArguments (arg.1 ++ .closing :: rest) = _
      rw [Java.someArguments, read]
      rfl
    | cons next more =>
      have others := ih (List.cons_ne_nil next more)
        (fun arg mem => each arg (List.mem_cons_of_mem _ mem))
      generalize behind : separated ((next :: more).map Prod.fst) ++ .closing :: rest = later at others
      have text : separated ((arg :: next :: more).map Prod.fst) ++ .closing :: rest =
          arg.1 ++ .comma :: later := by
        simp [separated, ← behind]
      have read : expression (arg.1 ++ .comma :: later) = some (arg.2, .comma :: later) :=
        first _ (Ends.cons rfl)
      rw [text, Java.someArguments, read]
      simp only
      rw [dif_pos (length_lt_append_cons _ _ _), others]
      rfl

theorem arguments {args : List (List Token × Ast)}
    (each : ∀ arg ∈ args, IsRead .expression arg.1 arg.2) (rest : List Token) :
    Java.arguments (separated (args.map Prod.fst) ++ .closing :: rest) =
      some (args.map Prod.snd, rest) := by
  cases args with
  | nil => exact Java.arguments.eq_1 rest
  | cons arg args =>
    have some? : arg :: args ≠ [] := List.cons_ne_nil arg args
    obtain ⟨first, more, start, opens, -⟩ := (each arg List.mem_cons_self).exists_cons
    rw [Java.arguments, someArguments some? each]
    rintro later same
    cases args <;> rw [List.map_cons, start] at same <;> exact opens (List.cons.inj same).1

theorem invoke (target : IsRead .primary tokens tree) (method : String)
    {args : List (List Token × Ast)} (each : ∀ arg ∈ args, IsRead .expression arg.1 arg.2) :
    IsRead .primary
      (tokens ++ [.dot, .name method, .opening] ++ separated (args.map Prod.fst) ++ [.closing])
      (.invoke tree method (args.map Prod.snd)) := by
  intro rest _
  have members := target
    (.dot :: .name method :: .opening :: (separated (args.map Prod.fst) ++ .closing :: rest))
    (Ends.cons rfl)
  rw [suffixes_invoke (arguments each rest) (length_lt_append_cons _ _ _)] at members
  simpa using members

/-- A parenthesis that opens no cast. -/
theorem castType?_eq_none (safe : NameOrNoCast tokens) (stop : Ends .primary rest) :
    castType? (tokens ++ .closing :: rest) = none := by
  have noOperand : rest.head?.any startsUnsigned = false := by
    cases rest with
    | nil => rfl
    | cons token rest =>
      have ended := stop token rfl
      cases token with
      | colon | comma | closing | closeBracket | assign | question | op _ | instanceOf | dot => rfl
      | _ => cases ended
  unfold castType?
  split
  case h_2 => rfl
  case h_1 type later found =>
    rcases safe with ⟨first, more, rfl⟩ | noCast
    · rw [type?_tokens _ (by simp), arrays_stop _ (by simp)] at found
      cases found
      exact if_neg (by simp [noOperand, WrittenType.isPrimitive])
    · exact absurd rfl (noCast _ type _ found)

theorem parens (inner : IsRead .expression tokens tree) (safe : NameOrNoCast tokens) :
    IsRead .primary (.opening :: tokens ++ [.closing]) tree := by
  intro rest stop
  have read : expression (tokens ++ .closing :: rest) = some (tree, .closing :: rest) :=
    inner _ (Ends.cons rfl)
  show unary (.opening :: (tokens ++ [.closing] ++ rest)) = _
  rw [List.append_assoc]
  show unary (.opening :: (tokens ++ .closing :: rest)) = _
  rw [unary, castType?_eq_none safe stop, read]
  exact dif_pos (length_lt_append_cons _ _ _)

theorem classOf (type : WrittenType) :
    IsRead .primary (type.tokens ++ [.dot, .classWord]) (.classOf type) := by
  intro rest _
  have tail :
      classTail? type.element (type.brackets ++ .dot :: .classWord :: rest) = some (type, rest) :=
    classTail?_brackets type _
  have shorter : rest.length < (type.brackets ++ .dot :: .classWord :: rest).length := by
    rw [List.length_append, List.length_cons, List.length_cons]
    omega
  show unary (type.tokens ++ [.dot, .classWord] ++ rest) = _
  rw [element_tokens, List.append_assoc, List.append_assoc]
  show unary (type.element.tokens ++ (type.brackets ++ .dot :: .classWord :: rest)) = _
  generalize type.brackets ++ .dot :: .classWord :: rest = later at tail shorter
  rcases element_cases type with ⟨primitive, element⟩ | ⟨first, more, element⟩
  · rw [element] at tail ⊢
    show unary (.primitive primitive :: later) = _
    rw [unary, tail]
    exact dif_pos shorter
  · rw [element] at tail ⊢
    have noCall : later.head? ≠ some .opening := by
      intro head
      cases later <;> cases head
      cases tail
    have name : (more.foldl Ast.select (Ast.name first)).typeName? = some (.named first more) :=
      typeName?_members first [] more rfl
    show unary (.name first :: (members more ++ later)) = _
    rw [unary_leaf rfl, suffixes_members _ more noCall]
    refine suffixes_classOf ?_ shorter
    rw [name]
    exact tail

theorem create {type : WrittenType} {args : List (List Token × Ast)}
    (each : ∀ arg ∈ args, IsRead .expression arg.1 arg.2) :
    IsRead .primary (.new :: type.tokens ++ [.opening] ++ separated (args.map Prod.fst) ++ [.closing])
      (.create type (args.map Prod.snd)) := by
  intro rest _
  have named : type? (type.tokens ++ .opening :: (separated (args.map Prod.fst) ++ .closing :: rest)) =
      some (type, .opening :: (separated (args.map Prod.fst) ++ .closing :: rest)) := by
    rw [type?_tokens _ (by simp), arrays_stop _ (by simp)]
  have tokens :
      .new :: type.tokens ++ [.opening] ++ separated (args.map Prod.fst) ++ [.closing] ++ rest =
      .new :: (type.tokens ++ .opening :: (separated (args.map Prod.fst) ++ .closing :: rest)) := by
    simp
  have shorter := length_lt_append_cons (separated (args.map Prod.fst)) .closing rest
  have opened := length_lt_append_cons type.tokens .opening
    (separated (args.map Prod.fst) ++ .closing :: rest)
  show unary _ = _
  rw [tokens, unary, named]
  simp only
  rw [dif_pos opened, arguments each rest]
  exact dif_pos (Nat.lt_trans shorter opened)

theorem createArray (component : WrittenType) (size : IsRead .expression tokens tree) :
    IsRead .primary
      (.new :: component.element.tokens ++ [.openBracket] ++ tokens ++ [.closeBracket] ++
        component.brackets)
      (.createArray component tree) := by
  intro rest stop
  obtain ⟨first, more, start, -, opens⟩ := size.exists_cons
  have read : expression (tokens ++ .closeBracket :: (component.brackets ++ rest)) =
      some (tree, .closeBracket :: (component.brackets ++ rest)) := size _ (Ends.cons rfl)
  have dimensions : arrays component.element (component.brackets ++ rest) = (component, rest) := by
    rw [arrays_brackets, arrays_stop _ (stop.head?_ne rfl)]
  have text : .new :: component.element.tokens ++ [.openBracket] ++ tokens ++ [.closeBracket] ++
      component.brackets ++ rest = .new :: (component.element.tokens ++
        .openBracket :: (tokens ++ .closeBracket :: (component.brackets ++ rest))) := by
    simp
  have element : type? (component.element.tokens ++
      .openBracket :: (tokens ++ .closeBracket :: (component.brackets ++ rest))) =
      some (component.element,
        .openBracket :: (tokens ++ .closeBracket :: (component.brackets ++ rest))) := by
    rw [type?_tokens _ (by simp), arrays]
    rintro later same
    rw [start] at same
    exact opens (List.cons.inj (List.cons.inj same).2).1
  have opened := length_lt_append_cons component.element.tokens .openBracket
    (tokens ++ .closeBracket :: (component.brackets ++ rest))
  have shorter : rest.length < (component.element.tokens ++
      .openBracket :: (tokens ++ .closeBracket :: (component.brackets ++ rest))).length := by
    simp only [List.length_append, List.length_cons]
    omega
  show unary _ = _
  rw [text, unary, element]
  simp only
  rw [dif_pos opened, read]
  simp only [dimensions]
  exact dif_pos shorter

theorem unsigned (primary : IsRead .primary tokens tree) : IsRead .unsigned tokens tree := by
  intro rest stop
  have looser : Ends .primary rest := stop.mono (by simp) (by simp) (fun _ ended => ended)
  exact (primary rest looser).trans
    (suffixes_stop (stop.mono (by simp) (by simp) (fun _ ended => ended)))

theorem operator (op : UnaryOp) (operand : IsRead .unary tokens tree) :
    IsRead .unary (unaryToken op :: tokens) (.unary op tree) := by
  intro rest stop
  have found : unaryOp? (unaryToken op) = some op := by cases op <;> rfl
  have read : unary (tokens ++ rest) = some (tree, rest) := operand rest stop
  show unary (unaryToken op :: (tokens ++ rest)) = _
  rw [unary, found, read]
  · rfl
  all_goals cases op <;> simp [unaryToken]

theorem cast {type : WrittenType} (operand : IsRead .unary tokens tree)
    (starts : type.isPrimitive = true ∨ tokens.head?.any startsUnsigned = true) :
    IsRead .unary (.opening :: type.tokens ++ [.closing] ++ tokens) (.cast type tree) := by
  intro rest stop
  have read : unary (tokens ++ rest) = some (tree, rest) := operand rest stop
  have opens : (type.isPrimitive || (tokens ++ rest).head?.any startsUnsigned) = true := by
    rcases starts with primitive | starts
    · rw [primitive, Bool.true_or]
    · rw [head?_any_append starts, Bool.or_true]
  have found :
      castType? (type.tokens ++ .closing :: (tokens ++ rest)) = some (type, tokens ++ rest) := by
    rw [castType?, type?_tokens _ (by simp), arrays_stop _ (by simp)]
    exact if_pos opens
  have text : .opening :: type.tokens ++ [.closing] ++ tokens ++ rest =
      .opening :: (type.tokens ++ .closing :: (tokens ++ rest)) := by simp
  show unary _ = _
  rw [text, unary, found]
  simp only
  rw [dif_pos (length_lt_append_cons _ _ _), read]
  rfl

/-- The smallest numbers are read like other negative ones. -/
theorem least {token : Token} (found : leaf? token = some tree) :
    IsRead .unary [.op .sub, token] (.unary .neg tree) :=
  operator .neg (unsigned (leaf found))

theorem operation (operand : IsRead .unary tokens tree) (some? : tokens ≠ []) (most : Nat) :
    IsRead (.operation most) tokens tree := by
  intro rest stop least _
  have read : unary (tokens ++ rest) = some (tree, rest) :=
    operand rest (stop.mono (by simp) (by simp) (fun _ _ => rfl))
  rw [Java.operation, read]
  exact dif_pos (length_lt_append some? rest)

theorem tighter {most : Nat} (operand : IsRead (.operation (most + 1)) tokens tree) :
    IsRead (.operation most) tokens tree := by
  intro rest stop least bound
  exact operand rest stop.succ least (Nat.le_succ_of_le bound)

theorem binary (op : BinaryOp) {left right : List Token} {leftTree rightTree : Ast}
    (first : IsRead (.operation (level op)) left leftTree)
    (second : IsRead (.operation (level op + 1)) right rightTree) (some? : right ≠ []) :
    IsRead (.operation (level op)) (left ++ .op op :: right) (.binary op leftTree rightTree) := by
  intro rest stop least bound
  have leftRead :=
    first (.op op :: (right ++ rest)) (Ends.cons (decide_eq_true (Nat.le_refl _))) least bound
  have rightRead : Java.operation (level op + 1) (right ++ rest) = some (rightTree, rest) := by
    rw [second rest stop.succ _ (Nat.le_refl _)]
    exact climb_stop stop (fun operator ended => Nat.lt_succ_of_le (of_decide_eq_true ended))
  rw [List.append_assoc]
  show Java.operation least (left ++ .op op :: (right ++ rest)) = _
  rw [leftRead, climb, if_pos bound, rightRead]
  exact dif_pos (length_lt_append some? rest)

theorem instanceOf (value : IsRead (.operation relational) tokens tree) (type : WrittenType) :
    IsRead (.operation relational) (tokens ++ .instanceOf :: type.tokens) (.instanceOf tree type) := by
  intro rest stop least bound
  have noMember : rest.head? ≠ some .dot := stop.head?_ne rfl
  have valueRead := value (.instanceOf :: (type.tokens ++ rest)) (Ends.cons rfl) least bound
  have typeRead : type? (type.tokens ++ rest) = some (type, rest) := by
    rw [type?_tokens, arrays_stop _ (stop.head?_ne rfl)]
    rintro part later rfl
    exact noMember rfl
  have some? : type.tokens ≠ [] := by cases type <;> simp [WrittenType.tokens]
  rw [List.append_assoc]
  show Java.operation least (tokens ++ .instanceOf :: (type.tokens ++ rest)) = _
  rw [valueRead, climb, if_pos bound, typeRead]
  exact dif_pos (length_lt_append some? rest)

theorem conditional (operation : IsRead (.operation 0) tokens tree) :
    IsRead .conditional tokens tree := by
  intro rest stop
  have noTest : rest.head? ≠ some .question := stop.head?_ne rfl
  have read : Java.operation 0 (tokens ++ rest) = some (tree, rest) := by
    rw [operation rest (stop.mono (by simp) (by simp) (by simp [Category.endsAt])) 0 (Nat.le_refl 0)]
    exact climb_stop stop (by simp [Category.endsAt])
  show Java.conditional (tokens ++ rest) = _
  rw [Java.conditional, read]
  split
  case h_1 same =>
    cases same
    exact absurd rfl noTest
  case h_2 => rfl

theorem cond {test yes no : List Token} {testTree yesTree noTree : Ast}
    (first : IsRead (.operation 0) test testTree) (second : IsRead .expression yes yesTree)
    (third : IsRead .conditional no noTree) :
    IsRead .conditional (test ++ .question :: yes ++ .colon :: no) (.cond testTree yesTree noTree) := by
  intro rest stop
  have text : test ++ .question :: yes ++ .colon :: no ++ rest =
      test ++ .question :: (yes ++ .colon :: (no ++ rest)) := by simp
  have testRead : Java.operation 0 (test ++ .question :: (yes ++ .colon :: (no ++ rest))) =
      some (testTree, .question :: (yes ++ .colon :: (no ++ rest))) := by
    rw [first _ (Ends.cons rfl) 0 (Nat.le_refl 0), climb] <;> simp
  have yesRead : Java.expression (yes ++ .colon :: (no ++ rest)) =
      some (yesTree, .colon :: (no ++ rest)) := second _ (Ends.cons rfl)
  have noRead : Java.conditional (no ++ rest) = some (noTree, rest) := third rest stop
  have tested := length_lt_append_cons test .question (yes ++ .colon :: (no ++ rest))
  have decided := length_lt_append_cons yes .colon (no ++ rest)
  show Java.conditional _ = _
  rw [text, Java.conditional, testRead]
  simp only
  rw [dif_pos tested, yesRead]
  simp only
  rw [dif_pos (Nat.lt_trans decided tested), noRead]
  rfl

theorem expression (conditional : IsRead .conditional tokens tree) :
    IsRead .expression tokens tree := by
  intro rest stop
  have noAssign : rest.head? ≠ some .assign := stop.head?_ne rfl
  have read : Java.conditional (tokens ++ rest) = some (tree, rest) :=
    conditional rest (stop.mono (by simp) (by simp) (by simp [Category.endsAt]))
  show Java.expression (tokens ++ rest) = _
  rw [Java.expression, read]
  split
  case h_1 same =>
    cases same
    exact absurd rfl noAssign
  case h_2 => rfl

theorem assign {target : List Token} {targetTree : Ast} (primary : IsRead .primary target targetTree)
    (some? : target ≠ []) (value : IsRead .expression tokens tree) :
    IsRead .expression (target ++ .assign :: tokens) (.assign targetTree tree) := by
  intro rest stop
  have targetRead : Java.conditional (target ++ .assign :: (tokens ++ rest)) =
      some (targetTree, .assign :: (tokens ++ rest)) :=
    (conditional (operation (unsigned primary) some? 0)) _ (Ends.cons rfl)
  have valueRead : Java.expression (tokens ++ rest) = some (tree, rest) := value rest stop
  show Java.expression (target ++ .assign :: tokens ++ rest) = _
  rw [List.append_assoc]
  show Java.expression (target ++ .assign :: (tokens ++ rest)) = _
  rw [Java.expression, targetRead]
  simp only
  rw [dif_pos (length_lt_append_cons _ _ _), valueRead]
  rfl

end IsRead

/-- Every phrase is read as its tree. -/
theorem Derives.isRead (derives : Derives category tokens tree) : IsRead category tokens tree := by
  induction derives with
  | leaf found => exact .leaf found
  | parens inner ih => exact .parens ih inner.nameOrNoCast
  | select _ name ih => exact ih.select name
  | invoke _ method _ ih each => exact ih.invoke method each
  | classOf type => exact .classOf type
  | create _ _ each => exact .create each
  | createArray component _ ih => exact .createArray component ih
  | unsigned _ ih => exact ih.unsigned
  | negation _ _ ih => exact .operator _ ih
  | cast type operand ih =>
    by_cases primitive : type.isPrimitive = true
    · rw [castOperand, if_pos primitive] at ih
      exact .cast ih (.inl primitive)
    · rw [castOperand, if_neg primitive] at ih operand
      exact .cast ih (.inr (operand.starts (.inr rfl)))
  | unary _ ih => exact ih
  | sign _ _ ih => exact .operator _ ih
  | least _ found => exact .least found
  | operand operand ih => exact ih.operation operand.ne_nil tightest
  | tighter _ ih => exact ih.tighter
  | binary op _ second first ih => exact .binary op first ih second.ne_nil
  | instanceOf _ type ih => exact ih.instanceOf type
  | conditional _ ih => exact ih.conditional
  | cond _ _ _ first second third => exact .cond first second third
  | expression _ ih => exact ih.expression
  | assign name _ ih => exact .assign (.leaf (rfl : leaf? (.name name) = _)) (by simp) ih
  | assignField _ name _ target ih => exact .assign (target.select name) (by simp) ih

/-- The tokens of a phrase have no other tree. -/
theorem Derives.unique {other : Ast} (derives : Derives .expression tokens tree)
    (otherwise : Derives .expression tokens other) : other = tree := by
  have read : Java.expression (tokens ++ []) = some (tree, []) := derives.isRead [] Ends.nil
  have same : Java.expression (tokens ++ []) = some (other, []) := otherwise.isRead [] Ends.nil
  exact (Prod.mk.inj (Option.some.inj (same.symm.trans read))).1

end JavaBackend.Java
