import BlockCalculus.Json.Reader
import BlockCalculus.Text.Blank
import BlockCalculus.Text.Integer

/-!
# Integers come back from their decimal texts

The decimal text of an integer is a sign, if it is negative, and digits that start with zero only
for zero itself. Both readers of integers give back the integer from it: that of JSON, which goes on
behind the text (`number_decimal`), and that of integers alone (`readInteger_decimal`).
-/

namespace BlockCalculus

namespace Text

/-- The decimal text of an integer. -/
def decimal (n : Int) : List Char :=
  (toString n).toList

theorem decimal_ofNat (m : Nat) : decimal (Int.ofNat m) = Nat.toDigits 10 m := by
  have h : toString (Int.ofNat m) = toString m := rfl
  rw [decimal, h, Nat.toString_eq_ofList_toDigits, String.toList_ofList]

theorem decimal_negSucc (m : Nat) : decimal (Int.negSucc m) = '-' :: Nat.toDigits 10 (m + 1) := by
  have h : toString (Int.negSucc m) = "-" ++ toString (m + 1) := rfl
  simp [decimal, h]

/-! ## Digits -/

theorem isDigit_of_mem_toDigits {m : Nat} {c : Char} (h : c ∈ Nat.toDigits 10 m) :
    48 ≤ c.toNat ∧ c.toNat ≤ 57 := by
  have hdigit := Nat.isDigit_of_mem_toDigits (by decide) (by decide) h
  simp only [Char.isDigit, Bool.and_eq_true, decide_eq_true_eq] at hdigit
  exact hdigit

theorem eq_sign_or_digit_of_mem_decimal {n : Int} {c : Char} (h : c ∈ decimal n) :
    c = '-' ∨ 48 ≤ c.toNat ∧ c.toNat ≤ 57 := by
  cases n with
  | ofNat m =>
    rw [decimal_ofNat] at h
    exact .inr (isDigit_of_mem_toDigits h)
  | negSucc m =>
    rw [decimal_negSucc, List.mem_cons] at h
    exact h.imp id isDigit_of_mem_toDigits

theorem length_toDigits_le {n : Int} (h : isWritable n = true) :
    (Nat.toDigits 10 n.natAbs).length ≤ digitLimit := by
  have hlimit : 0 < digitLimit := by decide
  rw [isWritable, decide_eq_true_eq] at h
  generalize digitLimit = k at h hlimit ⊢
  exact (Nat.length_toDigits_le_iff (by decide) hlimit).mpr h

/-- The first digit of a number is zero only if the number is. -/
theorem exists_toDigits_eq (m : Nat) :
    (m = 0 ∧ Nat.toDigits 10 m = ['0']) ∨
      ∃ c cs, Nat.toDigits 10 m = c :: cs ∧ c ≠ '0' := by
  induction m using Nat.strongRecOn with
  | ind m ih =>
    by_cases hm : m < 10
    · rw [Nat.toDigits_of_lt_base hm]
      by_cases hzero : m = 0
      · exact .inl ⟨hzero, by rw [hzero]; rfl⟩
      · refine .inr ⟨m.digitChar, [], rfl, fun h => hzero ?_⟩
        have hchar := Nat.toNat_digitChar_of_lt_ten hm
        rw [h] at hchar
        simp at hchar
        omega
    · rw [Nat.toDigits_of_base_le (by decide) (by omega)]
      rcases ih (m / 10) (by omega) with ⟨hzero, -⟩ | ⟨c, cs, hdigits, hc⟩
      · omega
      · exact .inr ⟨c, cs ++ [(m % 10).digitChar], by rw [hdigits, List.cons_append], hc⟩

/-! ## Integers alone -/

theorem digitValue?_of_digit {c : Char} (h : 48 ≤ c.toNat ∧ c.toNat ≤ 57) :
    digitValue? c = some (c.toNat - 48) := by
  have hzeros : zeros = 48 :: zeros.tail := rfl
  rw [digitValue?, hzeros, List.find?_cons_of_pos]
  · rfl
  · simp only [Bool.and_eq_true, decide_eq_true_eq]
    omega

theorem ne_underscore_of_digit {c : Char} (h : 48 ≤ c.toNat ∧ c.toNat ≤ 57) : c ≠ '_' := by
  rintro rfl
  simp at h

/-- Digits are read to the end, each by its value. -/
theorem spanNumeral_of_digits {cs : List Char} (h : ∀ c ∈ cs, 48 ≤ c.toNat ∧ c.toNat ≤ 57) :
    spanNumeral cs = (cs.map fun c => some (c.toNat - 48), []) := by
  induction cs with
  | nil => rfl
  | cons c rest ih =>
    rw [List.forall_mem_cons] at h
    rw [spanNumeral, ih h.2]
    simp [ne_underscore_of_digit h.1, digitValue?_of_digit h.1]

theorem spaced_digits (cs : List Char) : spaced (cs.map fun c => some (c.toNat - 48)) = true := by
  induction cs with
  | nil => rfl
  | cons c rest ih =>
    cases rest with
    | nil => rfl
    | cons d rest => simpa [spaced] using ih

theorem readNumeral_toDigits {m : Nat} (h : (Nat.toDigits 10 m).length ≤ digitLimit) :
    readNumeral (Nat.toDigits 10 m) = .ok m := by
  have hspan := spanNumeral_of_digits fun c hc => isDigit_of_mem_toDigits (m := m) hc
  have hspaced := spaced_digits (Nat.toDigits 10 m)
  have hvalue : (Nat.toDigits 10 m).foldl (fun n c => 10 * n + (c.toNat - 48)) 0 = m :=
    Nat.ofDigitChars_ten_toDigits
  unfold readNumeral
  rw [hspan]
  cases hds : Nat.toDigits 10 m with
  | nil => exact absurd hds Nat.toDigits_ne_nil
  | cons c cs =>
    rw [hds] at h hspaced hvalue
    rw [List.map_cons] at hspaced ⊢
    have hvalues : (some (c.toNat - 48) :: cs.map fun c => some (c.toNat - 48)).filterMap id =
        (c :: cs).map fun c => c.toNat - 48 := by
      simp [List.filterMap_map]
    simp only [hspaced, hvalues, List.length_map, List.foldl_map, hvalue]
    simpa using h

/-- **The decimal text of an integer reads as the integer.** -/
theorem readInteger_decimal {n : Int} (h : isWritable n = true) :
    readInteger (decimal n) = .ok n := by
  have hlength := length_toDigits_le h
  cases n with
  | ofNat m =>
    have hread : readNumeral (Nat.toDigits 10 m) = .ok m := readNumeral_toDigits hlength
    have hdigit (c : Char) (hc : c ∈ Nat.toDigits 10 m) := isDigit_of_mem_toDigits hc
    rw [decimal_ofNat]
    cases hds : Nat.toDigits 10 m with
    | nil => exact absurd hds Nat.toDigits_ne_nil
    | cons c cs =>
      rw [hds] at hread hdigit
      have hc := hdigit c List.mem_cons_self
      unfold readInteger
      split
      · rename_i heq
        obtain ⟨rfl, -⟩ := List.cons.inj heq
        simp at hc
      · rename_i heq
        obtain ⟨rfl, -⟩ := List.cons.inj heq
        simp at hc
      · rw [hread]
        rfl
  | negSucc m =>
    have hread : readNumeral (Nat.toDigits 10 (m + 1)) = .ok (m + 1) := readNumeral_toDigits hlength
    rw [decimal_negSucc, readInteger, hread]
    rfl

end Text

namespace Json.Reader

/-! ## Integers in JSON -/

/-- What follows a number does not go on with it. -/
def Ends (rest : List Char) : Prop :=
  ∀ c ∈ rest.head?, isDigit c = false ∧ c ≠ '.' ∧ c ≠ 'e' ∧ c ≠ 'E'

theorem isDigit_iff {c : Char} : isDigit c = true ↔ 48 ≤ c.toNat ∧ c.toNat ≤ 57 := by
  simp only [isDigit, Bool.and_eq_true, decide_eq_true_eq]
  exact Iff.rfl

theorem spanDigits_append {ds rest : List Char} (hds : ∀ c ∈ ds, isDigit c = true)
    (hrest : Ends rest) : spanDigits (ds ++ rest) = (ds, rest) := by
  have hstop : rest.takeWhile isDigit = [] ∧ rest.dropWhile isDigit = rest := by
    cases rest with
    | nil => exact ⟨rfl, rfl⟩
    | cons c rest => simp [(hrest c rfl).1]
  rw [spanDigits, List.takeWhile_append_of_pos hds, List.dropWhile_append_of_pos hds, hstop.1,
    hstop.2, List.append_nil]

theorem fraction_of_ends {rest : List Char} (h : Ends rest) : fraction rest = ([], rest) := by
  unfold fraction
  split
  · exact absurd rfl (h '.' rfl).2.1
  · rfl

theorem exponent?_of_ends {rest : List Char} (h : Ends rest) : exponent? rest = none := by
  unfold exponent?
  split
  · rfl
  · rename_i c rest
    obtain ⟨-, -, he, hE⟩ := h c rfl
    simp [he, hE]

theorem numberFrom_of_ends {negative : Bool} {whole rest : List Char} (h : Ends rest)
    (hlength : whole.length ≤ Text.digitLimit) :
    numberFrom negative whole rest =
      .ok (.int (if negative then -(ofDigits whole : Int) else ofDigits whole), rest) := by
  simp [numberFrom, fraction_of_ends h, exponent?_of_ends h, Nat.not_lt.mpr hlength]

/-- Digits are read to the end, with or without a sign. -/
theorem number_toDigits (m : Nat) {rest : List Char} (hrest : Ends rest) :
    number (Nat.toDigits 10 m ++ rest) = numberFrom false (Nat.toDigits 10 m) rest ∧
      number ('-' :: (Nat.toDigits 10 m ++ rest)) = numberFrom true (Nat.toDigits 10 m) rest := by
  have hdigits : ∀ c ∈ Nat.toDigits 10 m, isDigit c = true := fun c hc =>
    isDigit_iff.mpr (Text.isDigit_of_mem_toDigits hc)
  have hspan := spanDigits_append hdigits hrest
  rcases Text.exists_toDigits_eq m with ⟨-, hzero⟩ | ⟨c, cs, hcs, hc⟩
  · rw [hzero]
    exact ⟨rfl, rfl⟩
  · rw [hcs] at hdigits hspan ⊢
    have hdigit := hdigits c List.mem_cons_self
    have hsign : c ≠ '-' := by
      rintro rfl
      exact absurd hdigit (by decide)
    rw [List.cons_append] at hspan ⊢
    constructor
    · simp [number, hsign, hdigit, hspan]
    · simp [number, hdigit, hspan]

theorem ofDigits_toDigits (m : Nat) : ofDigits (Nat.toDigits 10 m) = m :=
  Nat.ofDigitChars_ten_toDigits

/-- **The decimal text of an integer reads as the integer**, whatever follows that does not go on
with it. -/
theorem number_decimal {n : Int} (h : Text.isWritable n = true) {rest : List Char}
    (hrest : Ends rest) : number (Text.decimal n ++ rest) = .ok (.int n, rest) := by
  cases n with
  | ofNat m =>
    have hlength : (Nat.toDigits 10 m).length ≤ Text.digitLimit := Text.length_toDigits_le h
    rw [Text.decimal_ofNat, (number_toDigits m hrest).1, numberFrom_of_ends hrest hlength,
      ofDigits_toDigits]
    rfl
  | negSucc m =>
    have hlength : (Nat.toDigits 10 (m + 1)).length ≤ Text.digitLimit := Text.length_toDigits_le h
    rw [Text.decimal_negSucc, List.cons_append, (number_toDigits (m + 1) hrest).2,
      numberFrom_of_ends hrest hlength, ofDigits_toDigits]
    rfl

/-- A decimal text starts with a digit, or with a sign and a digit. -/
theorem exists_decimal_eq (n : Int) :
    ∃ c cs, isDigit c = true ∧ (Text.decimal n = c :: cs ∨ Text.decimal n = '-' :: c :: cs) := by
  have hdigit {m : Nat} {c : Char} {cs : List Char} (h : Nat.toDigits 10 m = c :: cs) :
      isDigit c = true :=
    isDigit_iff.mpr (Text.isDigit_of_mem_toDigits (m := m) (by rw [h]; exact List.mem_cons_self))
  cases n with
  | ofNat m =>
    obtain ⟨c, cs, hcs⟩ := List.exists_cons_of_ne_nil (Nat.toDigits_ne_nil (n := m) (b := 10))
    exact ⟨c, cs, hdigit hcs, .inl (by rw [Text.decimal_ofNat, hcs])⟩
  | negSucc m =>
    obtain ⟨c, cs, hcs⟩ := List.exists_cons_of_ne_nil (Nat.toDigits_ne_nil (n := m + 1) (b := 10))
    exact ⟨c, cs, hdigit hcs, .inr (by rw [Text.decimal_negSucc, hcs])⟩

/-- A word that is a value starts with a letter, or with a sign and a letter. -/
theorem exists_word_eq : ∀ w ∈ words, ∃ c cs, isDigit c = false ∧
    (w.1.toList = c :: cs ∧ c ≠ '-' ∨ w.1.toList = '-' :: c :: cs) := by
  have hletter (w : String) (c : Char) (cs : List Char) (h : w.toList = c :: cs ∧ c ≠ '-')
      (hc : isDigit c = false) : ∃ c cs, isDigit c = false ∧
        (w.toList = c :: cs ∧ c ≠ '-' ∨ w.toList = '-' :: c :: cs) :=
    ⟨c, cs, hc, .inl h⟩
  simp only [words, List.forall_mem_cons]
  refine ⟨hletter _ 'n' _ ⟨rfl, by decide⟩ rfl, hletter _ 't' _ ⟨rfl, by decide⟩ rfl,
    hletter _ 'f' _ ⟨rfl, by decide⟩ rfl, hletter _ 'N' _ ⟨rfl, by decide⟩ rfl,
    hletter _ 'I' _ ⟨rfl, by decide⟩ rfl, ⟨'I', _, rfl, .inr rfl⟩, by simp⟩

/-- A number is read where a digit, or a sign and a digit, comes next. -/
theorem scalar_of_digit {c : Char} (hc : isDigit c = true) {cs start : List Char}
    (hstart : start = c :: cs ∨ start = '-' :: c :: cs) : scalar start = number start := by
  have hwords :
      (words.findSome? fun w => (after? w.1 start).map fun rest => (w.2, rest)) = none := by
    refine List.findSome?_eq_none_iff.mpr fun w hw => ?_
    obtain ⟨d, ds, hd, hw⟩ := exists_word_eq w hw
    have hdc : d ≠ c := by
      rintro rfl
      simp [hc] at hd
    have hsign : c ≠ '-' := by
      rintro rfl
      exact absurd hc (by decide)
    rcases hw with ⟨hw, hletter⟩ | hw
    · rcases hstart with rfl | rfl
      · simp [after?, hw, hdc]
      · simp [after?, hw, hletter]
    · rcases hstart with rfl | rfl
      · simp [after?, hw, hsign.symm]
      · simp [after?, hw, hdc]
  rw [scalar, hwords]

/-- A value that starts like a number is one. -/
theorem value_of_digit {c : Char} (hc : isDigit c = true) {cs start : List Char}
    (hstart : start = c :: cs ∨ start = '-' :: c :: cs) (fuel levels : Nat) :
    value fuel levels start = number start := by
  have hopen : c ≠ '[' ∧ c ≠ '\x7b' ∧ c ≠ '"' := by
    refine ⟨?_, ?_, ?_⟩ <;>
    · rintro rfl
      exact absurd hc (by decide)
  rw [← scalar_of_digit hc hstart]
  cases levels <;> rcases hstart with rfl | rfl <;> simp [value, leaf, hopen]

theorem value_decimal {n : Int} (h : Text.isWritable n = true) {rest : List Char}
    (hrest : Ends rest) (fuel levels : Nat) :
    value fuel levels (Text.decimal n ++ rest) = .ok (.int n, rest) := by
  obtain ⟨c, cs, hc, hn⟩ := exists_decimal_eq n
  have hstart : Text.decimal n ++ rest = c :: (cs ++ rest) ∨
      Text.decimal n ++ rest = '-' :: c :: (cs ++ rest) := by
    rcases hn with hn | hn <;> simp [hn]
  rw [value_of_digit hc hstart, number_decimal h hrest]

end Json.Reader

end BlockCalculus
