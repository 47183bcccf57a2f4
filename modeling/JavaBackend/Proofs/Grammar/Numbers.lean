import JavaBackend.Proofs.Grammar.Tokens

/-!
# Reading numbers

A whole number is read as itself, and a decimal as the number that its digits and its power of ten
stand for, in whichever of the two notations it is laid out (`Reads.decimal`).
-/

namespace JavaBackend.Java

variable {alphabet : Alphabet} {digits places tail plain rest : List Char} {tokens : List Token}
  {token : Token}

/-! ## Digits -/

theorem numberOf_toString (n : Nat) : numberOf (toString n).toList = n := by
  rw [Nat.toString_eq_repr, Nat.toList_repr]
  exact Nat.ofDigitChars_ten_toDigits

theorem numberOf_append (digits places : List Char) :
    numberOf (digits ++ places) = numberOf digits * Nat.pow 10 places.length + numberOf places := by
  rw [numberOf, Nat.ofDigitChars_append, Nat.ofDigitChars_eq_ofDigitChars_zero, Nat.mul_comm]
  rfl

theorem numberOf_zeros (count : Nat) : numberOf (List.replicate count '0') = 0 := by
  induction count with
  | zero => rfl
  | succ count ih => exact ih

theorem all_digits (n : Nat) : ∀ c ∈ (toString n).toList, c.isDigit = true :=
  fun _ => isDigit_of_mem_toString

theorem toString_ne_nil (n : Nat) : (toString n).toList ≠ [] := by
  rw [Nat.toString_eq_repr, Nat.toList_repr]
  exact Nat.toDigits_ne_nil

/-- Only zero starts with a zero. -/
theorem eq_zero_of_head? {n : Nat} (zero : (toString n).toList.head? = some '0') : n = 0 := by
  rw [Nat.toString_eq_repr, Nat.toList_repr] at zero
  induction n using Nat.strongRecOn with
  | ind n ih =>
    by_cases small : n < 10
    · have single : ∀ n < 10, n.digitChar = '0' → n = 0 := by decide
      rw [Nat.toDigits_of_lt_base small] at zero
      exact single n small (Option.some.inj zero)
    · have front : (Nat.toDigits 10 (n / 10)).head? = some '0' := by
        obtain ⟨first, more, digits⟩ := List.exists_cons_of_ne_nil (Nat.toDigits_ne_nil (n := n / 10))
        rw [Nat.toDigits_of_base_le (by decide) (Nat.le_of_not_lt small), digits] at zero
        rwa [digits]
      have := ih (n / 10) (by omega) front
      omega

theorem whole?_toString (token : Nat → Token) (n : Nat) (rest : List Char) :
    whole? token (toString n).toList rest = some (token n, rest) := by
  have decimal : ¬ ((toString n).toList.head? = some '0' ∧ 1 < (toString n).toList.length) := by
    rintro ⟨zero, long⟩
    rw [eq_zero_of_head? zero] at long
    exact absurd long (by decide)
  rw [whole?, if_neg decimal, numberOf_toString]

/-! ## Numbers in a text -/

/-- What follows the first digits of a number decides what it is. -/
theorem Reads.number (tail : List Char) (token : Token) (some? : digits ≠ [])
    (all : ∀ c ∈ digits, c.isDigit = true)
    (slashFree : '\\' ∉ tail) (next : (tail ++ rest).head?.any Char.isDigit = false)
    (found : ∀ plain, plain.head? = rest.head? →
      numberFrom? digits (tail ++ plain) = some (token, plain))
    (stop : rest.head?.any (isWordChar alphabet) = false) (reads : Reads alphabet rest tokens) :
    Reads alphabet (digits ++ tail ++ rest) (token :: tokens) := by
  have wordChars : ∀ c ∈ digits, isWordChar alphabet c = true := fun c mem =>
    isWordChar_of_isDigit (all c mem)
  obtain ⟨first, more, rfl⟩ := List.exists_cons_of_ne_nil some?
  have apart : ∀ marks ⊆ punctuation, first ∉ marks := fun marks subset mem =>
    not_mem_punctuation (wordChars first List.mem_cons_self) (subset mem)
  have digit : first.isDigit = true := all first List.mem_cons_self
  refine Reads.plainToken ?_ ?_ (fun plain same => ?_) reads
  · simp only [List.mem_append, not_or]
    exact ⟨fun mem => not_mem_punctuation (wordChars _ mem) (by decide), slashFree⟩
  · simpa [isBlank] using apart blanks (by decide)
  · have next : (tail ++ plain).head?.any Char.isDigit = false := by
      rwa [List.head?_append, same, ← List.head?_append]
    obtain ⟨taken, left⟩ := takeWhile_append_stop all next
    have number : number? alphabet (first :: more ++ (tail ++ plain)) = some (token, plain) := by
      rw [number?, taken, left, found plain same]
      simp [same, stop]
    have noLetter : ¬ isLetter alphabet first = true := fun letter =>
      Bool.false_ne_true ((not_isDigit_of_isLetter letter).symm.trans digit)
    rw [List.append_assoc]
    rw [List.cons_append] at number ⊢
    rw [token?_unquoted (apart _ (by decide)), if_neg noLetter, if_pos digit, number]

/-- What ends a number: no letter, no digit and no point. -/
def endsNumber (alphabet : Alphabet) (rest : List Char) : Prop :=
  ∀ c ∈ rest.head?, isWordChar alphabet c = false ∧ c ≠ '.'

theorem head?_any_of_endsNumber (stop : endsNumber alphabet rest) :
    rest.head?.any (isWordChar alphabet) = false ∧ rest.head?.any Char.isDigit = false := by
  cases rest with
  | nil => simp
  | cons c rest =>
    have ended := (stop c rfl).1
    refine ⟨by simpa using ended, ?_⟩
    simp only [isWordChar, Bool.or_eq_false_iff] at ended
    simpa using ended.1.2

theorem endsNumber.congr (stop : endsNumber alphabet rest) (same : plain.head? = rest.head?) :
    endsNumber alphabet plain := fun c mem => stop c (same ▸ mem)

theorem endsNumber.head?_ne (stop : endsNumber alphabet rest) {letter : Char}
    (wordChar : isWordChar alphabet letter = true) : rest.head? ≠ some letter := fun head =>
  Bool.false_ne_true ((stop letter head).1.symm.trans wordChar)

theorem isWordChar_of_mem_letters {c : Char} (mem : c ∈ ['e', 'L']) : isWordChar alphabet c = true := by
  have letters : ['e', 'L'].all Char.isAlpha = true := by decide
  simp [isWordChar, isLetter, List.all_eq_true.mp letters c mem]

theorem numberFrom?_int (stop : endsNumber alphabet plain) :
    numberFrom? digits plain = whole? .int digits plain := by
  have noPoint : plain.head? ≠ some '.' := fun head => (stop '.' head).2 rfl
  have noPower := stop.head?_ne (isWordChar_of_mem_letters (by simp : 'e' ∈ _))
  have noSuffix := stop.head?_ne (isWordChar_of_mem_letters (by simp : 'L' ∈ _))
  rw [numberFrom?] <;> rintro rest rfl
  · exact noPoint rfl
  · exact noPower rfl
  · exact noSuffix rfl

theorem Reads.int (n : Nat) (stop : endsNumber alphabet rest) (reads : Reads alphabet rest tokens) :
    Reads alphabet ((toString n).toList ++ rest) (.int n :: tokens) := by
  obtain ⟨noWord, noDigit⟩ := head?_any_of_endsNumber stop
  have read := Reads.number [] (.int n) (toString_ne_nil n) (all_digits n) (by simp)
    noDigit (fun plain same => ?_) noWord reads
  · rwa [List.append_nil] at read
  · exact (numberFrom?_int (stop.congr same)).trans (whole?_toString .int n plain)

theorem Reads.long (n : Nat) (stop : rest.head?.any (isWordChar alphabet) = false)
    (reads : Reads alphabet rest tokens) :
    Reads alphabet ((toString n).toList ++ 'L' :: rest) (.long n :: tokens) := by
  have read := Reads.number ['L'] (.long n) (toString_ne_nil n) (all_digits n)
    (by decide) rfl (fun plain _ => ?_) stop reads
  · rwa [List.append_assoc] at read
  · exact whole?_toString .long n plain

/-! ## Decimals -/

theorem exponent?_none (stop : endsNumber alphabet plain) : exponent? plain = some (0, plain) := by
  have noPower := stop.head?_ne (isWordChar_of_mem_letters (by simp : 'e' ∈ _))
  rw [exponent?] <;> rintro rest rfl <;> exact noPower rfl

theorem exponent?_toString (power : Int) (stop : endsNumber alphabet plain) :
    exponent? ('e' :: ((toString power).toList ++ plain)) = some (power, plain) := by
  have starts (n : Nat) : ∃ first more, (toString n).toList = first :: more ∧ first.isDigit = true := by
    obtain ⟨first, more, digits⟩ := List.exists_cons_of_ne_nil (toString_ne_nil n)
    exact ⟨first, more, digits, all_digits n first (digits ▸ List.mem_cons_self)⟩
  have split (n : Nat) := takeWhile_append_stop (all_digits n) (head?_any_of_endsNumber stop).2
  cases power with
  | ofNat n =>
    obtain ⟨first, more, digits, digit⟩ := starts n
    have noSign : first ≠ '-' := by rintro rfl; exact absurd digit (by decide)
    show exponent? ('e' :: ((toString n).toList ++ plain)) = _
    rw [digits, List.cons_append, exponent?, ← List.cons_append, ← digits, (split n).1, (split n).2,
      numberOf_toString]
    · exact if_pos (by rw [digits]; simpa using digit)
    · rintro rest same
      exact absurd (List.cons.inj same).1 noSign
  | negSucc n =>
    obtain ⟨first, more, digits, digit⟩ := starts (n + 1)
    have spelled : (toString (Int.negSucc n)).toList = '-' :: (toString (n + 1)).toList := by
      show ("-" ++ toString (n + 1)).toList = _
      rw [String.toList_append]
      rfl
    rw [spelled, List.cons_append, exponent?, (split _).1, (split _).2, numberOf_toString]
    exact if_pos (by rw [digits]; simpa using digit)

theorem numberFrom?_point (all : ∀ c ∈ places, c.isDigit = true)
    (stop : rest.head?.any Char.isDigit = false) :
    numberFrom? digits ('.' :: (places ++ rest)) = real? (digits ++ places) places.length rest := by
  obtain ⟨taken, left⟩ := takeWhile_append_stop all stop
  rw [numberFrom?, taken, left]

/-- Digits around a point. -/
theorem Reads.fraction (digits places : List Char) (some? : digits ≠ [])
    (all : ∀ c ∈ digits, c.isDigit = true)
    (allPlaces : ∀ c ∈ places, c.isDigit = true) (stop : endsNumber alphabet rest)
    (reads : Reads alphabet rest tokens) :
    Reads alphabet (digits ++ '.' :: places ++ rest)
      (.double (decimalValue (numberOf (digits ++ places)) (-places.length)) :: tokens) := by
  refine Reads.number _ _ some? all ?_ rfl (fun plain same => ?_) (head?_any_of_endsNumber stop).1 reads
  · simp only [List.mem_cons, not_or]
    exact ⟨by decide, fun mem => absurd (allPlaces _ mem) (by decide)⟩
  · have stop := stop.congr same
    rw [List.cons_append, numberFrom?_point allPlaces (head?_any_of_endsNumber stop).2, real?,
      exponent?_none stop]
    simp

theorem slash_not_mem_toString (power : Int) : '\\' ∉ (toString power).toList := fun mem =>
  absurd (isNumeral_of_mem_toString mem) (by decide)

/-- Digits and a power of ten, with a point among the digits if there are several. -/
theorem Reads.scientific (some? : digits ≠ []) (all : ∀ c ∈ digits, c.isDigit = true) (power : Int)
    (stop : endsNumber alphabet rest) (reads : Reads alphabet rest tokens) :
    Reads alphabet (Decimal.scientific digits power ++ rest)
      (.double (decimalValue (numberOf digits) (power - (digits.length - 1 : Nat))) :: tokens) := by
  obtain ⟨noWord, -⟩ := head?_any_of_endsNumber stop
  obtain ⟨first, places, rfl⟩ := List.exists_cons_of_ne_nil some?
  have powerFree := slash_not_mem_toString power
  cases places with
  | nil =>
    have read := Reads.number ('e' :: (toString power).toList)
      (.double (decimalValue (numberOf [first]) (power - (0 : Nat)))) some? all
      (by simpa using powerFree) rfl (fun plain same => ?_) noWord reads
    · simpa [Decimal.scientific] using read
    · rw [List.cons_append, numberFrom?, real?, exponent?_toString power (stop.congr same)]
      rfl
  | cons second places =>
    have allPlaces : ∀ c ∈ second :: places, c.isDigit = true := fun c mem =>
      all c (List.mem_cons_of_mem first mem)
    have placesFree : '\\' ∉ second :: places := fun mem => absurd (allPlaces _ mem) (by decide)
    have read := Reads.number ('.' :: second :: places ++ 'e' :: (toString power).toList)
      (.double (decimalValue (numberOf (first :: second :: places))
        (power - (second :: places).length)))
      (List.cons_ne_nil first []) (by simpa using all first List.mem_cons_self)
      (by simp_all) rfl (fun plain same => ?_) noWord reads
    · simpa [Decimal.scientific] using read
    · have tail : '.' :: second :: places ++ 'e' :: (toString power).toList ++ plain =
          '.' :: (second :: places ++ 'e' :: ((toString power).toList ++ plain)) := by simp
      rw [tail, numberFrom?_point allPlaces rfl, real?, exponent?_toString power (stop.congr same)]
      rfl

/-- Zeros behind the digits raise the power of ten. -/
theorem decimalValue_zeros (digits zeros : Nat) :
    decimalValue (digits * Nat.pow 10 (zeros + 1)) (-1) = decimalValue digits zeros := by
  have ten : ((digits * Nat.pow 10 zeros : Nat) : Int) * (10 : Nat) =
      (digits * Nat.pow 10 (zeros + 1) : Nat) := by
    rw [← Int.natCast_mul, Nat.mul_assoc]
    rfl
  have reduced := Rat.mkRat_mul_right (n := (digits * Nat.pow 10 zeros : Nat)) (d := 1)
    (by decide : 10 ≠ 0)
  rw [ten] at reduced
  simpa [decimalValue] using reduced

/-- A decimal in positional notation. -/
theorem Reads.positional (some? : digits ≠ []) (all : ∀ c ∈ digits, c.isDigit = true) (whole : Int)
    (stop : endsNumber alphabet rest) (reads : Reads alphabet rest tokens) :
    Reads alphabet (Decimal.positional digits whole ++ rest)
      (.double (decimalValue (numberOf digits) (whole - digits.length)) :: tokens) := by
  have zeros (count : Nat) : ∀ c ∈ List.replicate count '0', c.isDigit = true := by
    intro c mem
    rw [(List.mem_replicate.mp mem).2]
    rfl
  have both {a b : List Char} (allA : ∀ c ∈ a, c.isDigit = true) (allB : ∀ c ∈ b, c.isDigit = true) :
      ∀ c ∈ a ++ b, c.isDigit = true := by
    intro c mem
    exact (List.mem_append.mp mem).elim (allA c) (allB c)
  unfold Decimal.positional
  split
  case isTrue front =>
    have read := reads.fraction ['0'] (List.replicate (-whole).toNat '0' ++ digits) (by decide)
      (zeros 1) (both (zeros _) all) stop
    have value : numberOf (['0'] ++ (List.replicate (-whole).toNat '0' ++ digits)) =
        numberOf digits := by
      rw [numberOf_append, numberOf_append, numberOf_zeros]
      show 0 * _ + (0 * _ + _) = _
      omega
    have exponent : -((List.replicate (-whole).toNat '0' ++ digits).length : Int) =
        whole - digits.length := by
      rw [List.length_append, List.length_replicate]
      omega
    rw [value, exponent] at read
    exact read
  case isFalse behind =>
    split
    case isTrue long =>
      have read := reads.fraction (digits ++ List.replicate (whole.toNat - digits.length) '0') ['0']
        (by simp [some?]) (both all (zeros _)) (zeros 1) stop
      have value : decimalValue
          (numberOf (digits ++ List.replicate (whole.toNat - digits.length) '0' ++ ['0']))
          (-(['0'].length : Nat)) = decimalValue (numberOf digits) (whole - digits.length) := by
        have exponent : whole - digits.length = (whole.toNat - digits.length : Nat) := by omega
        rw [exponent, ← decimalValue_zeros, List.append_assoc, ← List.replicate_succ', numberOf_append,
          numberOf_zeros, List.length_replicate]
        rfl
      rw [value] at read
      simpa using read
    case isFalse short =>
      have read := reads.fraction (digits.take whole.toNat) (digits.drop whole.toNat)
        (by simp only [ne_eq, List.take_eq_nil_iff, some?, or_false]; omega)
        (fun c mem => all c (List.mem_of_mem_take mem))
        (fun c mem => all c (List.mem_of_mem_drop mem)) stop
      have exponent : -((digits.drop whole.toNat).length : Int) = whole - digits.length := by
        rw [List.length_drop]
        omega
      rw [List.take_append_drop, exponent] at read
      exact read

/-- A decimal is read as the number that it stands for, whatever its layout. -/
theorem Reads.decimal (layout : Decimal.Layout) (x : Decimal.Numeral) (stop : endsNumber alphabet rest)
    (reads : Reads alphabet rest tokens) :
    Reads alphabet (layout.render x ++ rest)
      (.double (decimalValue x.digits x.exponent) :: tokens) := by
  have some? := toString_ne_nil x.digits
  have all := all_digits x.digits
  have value := numberOf_toString x.digits
  unfold Decimal.Layout.render
  generalize (toString x.digits).toList = digits at some? all value
  have long : 1 ≤ digits.length := List.length_pos_iff.mpr some?
  dsimp only
  split
  · have read := reads.positional some? all (x.exponent + digits.length - 1 + 1) stop
    have exponent : x.exponent + digits.length - 1 + 1 - digits.length = x.exponent := by omega
    rwa [value, exponent] at read
  · have read := reads.scientific some? all (x.exponent + digits.length - 1) stop
    have exponent : x.exponent + digits.length - 1 - (digits.length - 1 : Nat) = x.exponent := by omega
    rwa [value, exponent] at read

/-! ## Finite numbers -/

/-- The number that the text of a finite number stands for. -/
def shortestValue (x : Decimal.Binary) : Rat :=
  if x.m = 0 then 0 else decimalValue x.shortest.digits x.shortest.exponent

theorem render_head (layout : Decimal.Layout) (x : Decimal.Numeral) :
    ∃ first more, layout.render x = first :: more ∧ first.isDigit = true := by
  have some? := toString_ne_nil x.digits
  have all := all_digits x.digits
  unfold Decimal.Layout.render
  generalize (toString x.digits).toList = digits at some? all
  obtain ⟨first, more, rfl⟩ := List.exists_cons_of_ne_nil some?
  have digit := all first List.mem_cons_self
  dsimp only
  split
  · unfold Decimal.positional
    split
    · exact ⟨'0', _, rfl, rfl⟩
    · split
      · exact ⟨first, _, rfl, digit⟩
      · obtain ⟨count, positive⟩ : ∃ count,
            (x.exponent + (first :: more).length - 1 + 1).toNat = count + 1 :=
          Nat.exists_eq_add_one_of_ne_zero (by omega)
        rw [positive]
        exact ⟨first, _, rfl, digit⟩
  · cases more with
    | nil => exact ⟨first, _, rfl, digit⟩
    | cons second more => exact ⟨first, _, rfl, digit⟩

/-- The tokens of the sign in front of a number. -/
def signTokens (negative : Bool) : List Token := if negative then [.op .sub] else []

/-- A finite number is read as its sign and its value. -/
theorem Reads.magnitude (layout : Decimal.Layout) (negative : Bool) (x : Decimal.Binary)
    (stop : endsNumber alphabet rest) (reads : Reads alphabet rest tokens) :
    Reads alphabet (layout.renderBinary negative x ++ rest)
      (signTokens negative ++ .double (shortestValue x) :: tokens) := by
  have signed {text : List Char} {token : Token}
      (starts : ∃ first more, text = first :: more ∧ first.isDigit = true)
      (read : Reads alphabet (text ++ rest) (token :: tokens)) :
      Reads alphabet ((if negative then ['-'] else []) ++ text ++ rest)
        (signTokens negative ++ token :: tokens) := by
    obtain ⟨first, more, rfl, digit⟩ := starts
    cases negative with
    | false => exact read
    | true => exact Reads.minus digit read
  unfold Decimal.Layout.renderBinary shortestValue
  dsimp only
  by_cases zero : x.m = 0
  · rw [if_pos zero, if_pos zero]
    have zero : ∀ c ∈ ['0'], c.isDigit = true := List.forall_mem_singleton.mpr rfl
    exact signed ⟨'0', _, rfl, rfl⟩ (reads.fraction ['0'] ['0'] (by decide) zero zero stop)
  · rw [if_neg zero, if_neg zero]
    exact signed (render_head layout x.shortest) (reads.decimal layout x.shortest stop)

end JavaBackend.Java
