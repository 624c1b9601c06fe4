import BlockCalculus.Command.Inputs
import BlockCalculus.Proofs.Decimal

/-!
# Both ways to write inputs

Inputs are written in an array or between commas, with any number of spaces around integers,
brackets and commas (`arrayText`, `commaText`). A text is offered to the JSON reader first. What
stands between commas is either malformed there or a single number, never an array, and so the
pieces between the commas are read after that.

* `items_row`: the items of an array are read one by one.
* `readChars_arrayText`: integers in an array are read as an array.
* `exists_skip_eq_cons_of_read`: a text that is read as an array starts with a bracket.
* `readChars_commaText`: what the JSON reader makes of integers between commas.
* `pieces_commaText`: the pieces between the commas are the integers.
* `inputs_read_back`: the main result.
-/

namespace BlockCalculus.Command

open Json Json.Reader

/-! ## The two ways -/

/-- Some spaces. -/
def spaces (n : Nat) : String :=
  String.ofList (List.replicate n ' ')

/-- An integer with spaces around it. -/
structure Padded where
  before : Nat
  value : Int
  after : Nat

/-- An integer in text, with spaces around it. -/
def Padded.text (x : Padded) : String :=
  spaces x.before ++ toString x.value ++ spaces x.after

/-- Integers between commas. Without an integer there are `gap` spaces. -/
def commaText (gap : Nat) (xs : List Padded) : String :=
  if xs.isEmpty then spaces gap else String.intercalate "," (xs.map Padded.text)

/-- Integers in an array, with spaces around the brackets too. -/
def arrayText (before after gap : Nat) (xs : List Padded) : String :=
  spaces before ++ "[" ++ commaText gap xs ++ "]" ++ spaces after

/-! ## The texts by characters -/

/-- The characters of an integer with spaces around it. -/
def Padded.chars (x : Padded) : List Char :=
  List.replicate x.before ' ' ++ (Text.decimal x.value ++ List.replicate x.after ' ')

/-- The characters of integers between commas. -/
def row (xs : List Padded) : List Char :=
  [','].intercalate (xs.map Padded.chars)

theorem row_singleton (x : Padded) : row [x] = x.chars :=
  List.intercalate_singleton

theorem row_cons_cons (x y : Padded) (xs : List Padded) :
    row (x :: y :: xs) = x.chars ++ ',' :: row (y :: xs) := by
  simp [row, List.intercalate_cons_cons]

theorem toList_commaText_nil (gap : Nat) : (commaText gap []).toList = List.replicate gap ' ' := by
  simp [commaText, spaces]

theorem toList_commaText_cons (gap : Nat) (x : Padded) (xs : List Padded) :
    (commaText gap (x :: xs)).toList = row (x :: xs) := by
  have htext (y : Padded) : y.text.toList = y.chars := by
    simp [Padded.text, Padded.chars, spaces, Text.decimal]
  have hcomma : ",".toList = [','] := rfl
  simp [commaText, row, String.toList_intercalate, Function.comp_def, htext, hcomma]

theorem toList_arrayText (before after gap : Nat) (xs : List Padded) :
    (arrayText before after gap xs).toList = List.replicate before ' ' ++
      '[' :: ((commaText gap xs).toList ++ ']' :: List.replicate after ' ') := by
  simp [arrayText, spaces]

/-! ## Reading an array -/

theorem dropWhile_spaces {P : Char → Bool} (hP : P ' ' = true) (n : Nat) (cs : List Char) :
    (List.replicate n ' ' ++ cs).dropWhile P = cs.dropWhile P := by
  refine List.dropWhile_append_of_pos fun c hc => ?_
  rw [List.eq_of_mem_replicate hc]
  exact hP

theorem skip_spaces (n : Nat) (cs : List Char) : skip (List.replicate n ' ' ++ cs) = skip cs :=
  dropWhile_spaces rfl n cs

theorem skip_decimal (n : Int) (rest : List Char) :
    skip (Text.decimal n ++ rest) = Text.decimal n ++ rest := by
  obtain ⟨c, cs, hc, hn⟩ := exists_decimal_eq n
  have hgap : isGap c = false := by
    rw [← Bool.not_eq_true]
    intro hgap
    simp only [isGap, Bool.or_eq_true, beq_iff_eq] at hgap
    rcases hgap with ((rfl | rfl) | rfl) | rfl <;> exact absurd hc (by decide)
  rcases hn with hn | hn
  · simp [skip, hn, hgap]
  · simp [skip, hn, isGap]

theorem skip_chars (x : Padded) (rest : List Char) :
    skip (x.chars ++ rest) = Text.decimal x.value ++ (List.replicate x.after ' ' ++ rest) := by
  rw [Padded.chars, List.append_assoc, List.append_assoc, skip_spaces, skip_decimal]

theorem ends_nil : Ends [] := by
  intro c hc
  simp at hc

theorem ends_cons {c : Char} (h : isDigit c = false ∧ c ≠ '.' ∧ c ≠ 'e' ∧ c ≠ 'E')
    (rest : List Char) : Ends (c :: rest) := by
  rintro d ⟨rfl⟩
  exact h

theorem ends_spaces {rest : List Char} (h : Ends rest) (n : Nat) :
    Ends (List.replicate n ' ' ++ rest) := by
  cases n with
  | zero => exact h
  | succ n => exact ends_cons (by decide) _

section Items

variable {item : List Char → Reading Json} {fuel : Nat} {cs rest after rest' : List Char} {v : Json}
  {vs : List Json}

theorem items_last (hv : item cs = .ok (v, rest)) (hrest : skip rest = ']' :: after) :
    items item (fuel + 1) cs = .ok ([v], after) := by
  simp only [items, hv, Reading.andThen, hrest]

theorem items_more (hv : item cs = .ok (v, rest)) (hrest : skip rest = ',' :: after)
    (hvs : items item fuel (skip after) = .ok (vs, rest')) :
    items item (fuel + 1) cs = .ok (v :: vs, rest') := by
  simp only [items, hv, Reading.andThen, hrest, hvs]

end Items

/-- **The items of an array are read one by one.** -/
theorem items_row {x : Padded} {xs : List Padded}
    (h : ∀ y ∈ x :: xs, Text.isWritable y.value = true) (most levels : Nat) {fuel : Nat}
    (hfuel : xs.length < fuel) (rest : List Char) :
    items (Reader.value most levels) fuel (skip (row (x :: xs) ++ ']' :: rest)) =
      .ok ((x :: xs).map fun y => .int y.value, rest) := by
  induction xs generalizing x fuel with
  | nil =>
    obtain ⟨fuel, rfl⟩ : ∃ k, fuel = k + 1 := ⟨fuel - 1, by omega⟩
    have hclose : Ends (']' :: rest) := ends_cons (by decide) rest
    have hx := value_decimal (h x List.mem_cons_self) (ends_spaces hclose x.after) most levels
    rw [row_singleton, skip_chars]
    exact items_last hx (skip_spaces x.after _)
  | cons y ys ih =>
    obtain ⟨fuel, rfl⟩ : ∃ k, fuel = k + 1 := ⟨fuel - 1, by omega⟩
    rw [List.forall_mem_cons] at h
    have hcomma : Ends (',' :: (row (y :: ys) ++ ']' :: rest)) := ends_cons (by decide) _
    have hx := value_decimal h.1 (ends_spaces hcomma x.after) most levels
    have hys := ih h.2 (by simpa using hfuel)
    rw [row_cons_cons, List.append_assoc, List.cons_append, skip_chars]
    exact items_more hx (skip_spaces x.after _) hys

theorem decimal_ne_nil (n : Int) : Text.decimal n ≠ [] := by
  obtain ⟨c, cs, -, hn⟩ := exists_decimal_eq n
  rcases hn with hn | hn <;> simp [hn]

/-- An integer and the spaces around it are written with digits, a sign and spaces. -/
theorem not_mem_chars {c : Char} (hdigit : ¬ (48 ≤ c.toNat ∧ c.toNat ≤ 57)) (hsign : c ≠ '-')
    (hspace : c ≠ ' ') (x : Padded) : c ∉ x.chars := by
  intro h
  rw [Padded.chars, List.mem_append, List.mem_append] at h
  rcases h with h | h | h
  · exact hspace (List.eq_of_mem_replicate h)
  · exact (Text.eq_sign_or_digit_of_mem_decimal h).elim hsign hdigit
  · exact hspace (List.eq_of_mem_replicate h)

theorem comma_not_mem_chars (x : Padded) : ',' ∉ x.chars :=
  not_mem_chars (by decide) (by decide) (by decide) x

/-- Nothing is escaped in a text of integers between commas. -/
theorem backslash_not_mem_row (xs : List Padded) : '\\' ∉ row xs := by
  have hchars (x : Padded) : '\\' ∉ x.chars :=
    not_mem_chars (by decide) (by decide) (by decide) x
  induction xs with
  | nil => exact List.not_mem_nil
  | cons x xs ih =>
    cases xs with
    | nil => simpa [row_singleton] using hchars x
    | cons y ys => simp [row_cons_cons, hchars x, ih]

theorem backslash_not_mem_commaText (gap : Nat) (xs : List Padded) :
    '\\' ∉ (commaText gap xs).toList := by
  cases xs with
  | nil => simp [toList_commaText_nil, List.mem_replicate]
  | cons x xs =>
    rw [toList_commaText_cons]
    exact backslash_not_mem_row (x :: xs)

theorem length_le_length_row (xs : List Padded) : xs.length ≤ (row xs).length := by
  induction xs with
  | nil => exact Nat.zero_le _
  | cons x xs ih =>
    have hdecimal := List.length_pos_iff.mpr (decimal_ne_nil x.value)
    have hx : 1 ≤ x.chars.length := by
      simp only [Padded.chars, List.length_append]
      omega
    cases xs with
    | nil => simpa [row_singleton] using hx
    | cons y ys =>
      simp only [row_cons_cons, List.length_append, List.length_cons] at ih ⊢
      omega

theorem length_le_length_commaText (gap : Nat) (xs : List Padded) :
    xs.length ≤ (commaText gap xs).toList.length := by
  cases xs with
  | nil => exact Nat.zero_le _
  | cons x xs =>
    rw [toList_commaText_cons]
    exact length_le_length_row (x :: xs)

/-- After an integer comes a comma, or nothing. -/
theorem exists_row_cons_eq (x : Padded) (xs : List Padded) :
    ∃ tail, row (x :: xs) = x.chars ++ tail ∧ Ends tail := by
  cases xs with
  | nil => exact ⟨[], by rw [row_singleton, List.append_nil], ends_nil⟩
  | cons y ys => exact ⟨_, row_cons_cons x y ys, ends_cons (by decide) _⟩

/-- Integers between commas start with a digit or a sign. -/
theorem skip_row_ne {c : Char} (hdigit : isDigit c = false) (hsign : c ≠ '-') (x : Padded)
    (xs : List Padded) (rest body : List Char) : skip (row (x :: xs) ++ rest) ≠ c :: body := by
  obtain ⟨tail, htail, -⟩ := exists_row_cons_eq x xs
  obtain ⟨d, ds, hd, hn⟩ := exists_decimal_eq x.value
  have hdc : d ≠ c := by
    rintro rfl
    simp [hd] at hdigit
  rw [htail, List.append_assoc, skip_chars]
  rcases hn with hn | hn <;> rw [hn] <;> intro h
  · exact hdc (List.cons.inj h).1
  · exact hsign (List.cons.inj h).1.symm

/-- Integers in brackets are read as an array of integers. -/
theorem array_commaText {xs : List Padded} (h : ∀ x ∈ xs, Text.isWritable x.value = true)
    (gap most levels : Nat) {fuel : Nat} (hfuel : xs.length < fuel) (rest : List Char) :
    array (Reader.value most levels) fuel ((commaText gap xs).toList ++ ']' :: rest) =
      .ok (.arr (xs.map fun x => .int x.value), rest) := by
  unfold array
  cases xs with
  | nil =>
    rw [toList_commaText_nil, skip_spaces]
    rfl
  | cons x xs =>
    have hitems := items_row h most levels (Nat.lt_of_succ_lt hfuel) rest
    rw [toList_commaText_cons]
    split
    · rename_i hclose
      exact absurd hclose (skip_row_ne rfl (by decide) x xs _ _)
    · rw [hitems]
      rfl

/-! ## Whole texts -/

section ReadChars

variable {cs rest : List Char} {v : Json} {stop : Reader.Stop}

/-- A text without escapes holds no half of a surrogate pair. -/
theorem holdsHalf_eq_false (h : '\\' ∉ cs) (fuel : Nat) : holdsHalf fuel cs = false := by
  induction fuel generalizing cs with
  | zero => rfl
  | succ fuel ih =>
    cases cs with
    | nil => rfl
    | cons c cs =>
      rw [List.mem_cons, not_or] at h
      unfold holdsHalf
      rw [if_neg (Ne.symm h.1)]
      exact ih h.2

theorem readChars_of_ok (hplain : '\\' ∉ cs) (hmark : ∀ body, skip cs ≠ '\uFEFF' :: body)
    (hv : Reader.value (cs.length + 1) nestingLimit (skip cs) = .ok (v, rest)) :
    readChars cs = if skip rest = [] then .ok v else .error (.malformed .extra (skip rest)) := by
  unfold readChars
  split
  · exact absurd rfl (hmark _)
  · rw [hv]
    cases hrest : skip rest with
    | nil => simp [hrest, holdsHalf_eq_false hplain]
    | cons c after => simp [hrest]

theorem readChars_of_error (hmark : ∀ body, skip cs ≠ '\uFEFF' :: body)
    (hv : Reader.value (cs.length + 1) nestingLimit (skip cs) = .error stop) :
    readChars cs = .error stop := by
  unfold readChars
  split
  · exact absurd rfl (hmark _)
  · rw [hv]

end ReadChars

theorem skip_replicate (n : Nat) : skip (List.replicate n ' ') = [] := by
  rw [← List.append_nil (List.replicate n ' '), skip_spaces]
  rfl

/-- **Integers in an array are read as an array of integers.** -/
theorem readChars_arrayText {xs : List Padded} (h : ∀ x ∈ xs, Text.isWritable x.value = true)
    (before after gap : Nat) :
    readChars (arrayText before after gap xs).toList =
      .ok (.arr (xs.map fun x => .int x.value)) := by
  -- every integer has a character of its own, so the reader has rounds enough
  have hlength : xs.length < (arrayText before after gap xs).toList.length + 1 := by
    have := length_le_length_commaText gap xs
    simp only [toList_arrayText, List.length_append, List.length_cons]
    omega
  have hskip : skip (arrayText before after gap xs).toList =
      '[' :: ((commaText gap xs).toList ++ ']' :: List.replicate after ' ') := by
    rw [toList_arrayText, skip_spaces]
    rfl
  obtain ⟨levels, hlevels⟩ : ∃ levels, nestingLimit = levels + 1 := ⟨_, rfl⟩
  have hvalue := array_commaText h gap ((arrayText before after gap xs).toList.length + 1) levels
    hlength (List.replicate after ' ')
  have hplain : '\\' ∉ (arrayText before after gap xs).toList := by
    simp [toList_arrayText, backslash_not_mem_commaText, List.mem_replicate]
  rw [readChars_of_ok hplain (by simp [hskip]) (by rw [hskip, hlevels]; exact hvalue),
    if_pos (skip_replicate after)]

/-! ## What is not an array -/

section NotArray

variable {cs rest : List Char} {vs : List Json}

theorem andThen_ne {α β : Type} {r : Reading α} {next : α → List Char → Reading β}
    {p : β × List Char} (h : ∀ a after, next a after ≠ .ok p) : r.andThen next ≠ .ok p := by
  unfold Reading.andThen
  split
  · exact h _ _
  · simp

theorem numberFrom_ne_arr (negative : Bool) (whole : List Char) :
    numberFrom negative whole cs ≠ .ok (.arr vs, rest) := by
  unfold numberFrom
  dsimp only
  split
  · split <;> simp
  · simp

theorem number_ne_arr : Reader.number cs ≠ .ok (.arr vs, rest) := by
  unfold Reader.number
  dsimp only
  split
  · exact numberFrom_ne_arr _ _
  · split
    · exact numberFrom_ne_arr _ _
    · simp
  · simp

theorem scalar_ne_arr : scalar cs ≠ .ok (.arr vs, rest) := by
  unfold scalar
  split
  · rename_i r hr
    obtain ⟨w, hw, hr⟩ := List.exists_of_findSome?_eq_some hr
    obtain ⟨after, -, rfl⟩ := Option.map_eq_some_iff.mp hr
    simp only [words, List.mem_cons, List.not_mem_nil, or_false] at hw
    rcases hw with rfl | rfl | rfl | rfl | rfl | rfl <;> simp
  · exact number_ne_arr

theorem leaf_ne_arr {fuel : Nat} : leaf fuel cs ≠ .ok (.arr vs, rest) := by
  unfold leaf
  split
  · exact andThen_ne fun s after => by simp
  · exact scalar_ne_arr

theorem object_ne_arr {item : List Char → Reading Json} {fuel : Nat} :
    object item fuel cs ≠ .ok (.arr vs, rest) := by
  unfold object
  split
  · simp
  · exact andThen_ne fun ms after => by simp

/-- An array starts with a bracket. -/
theorem exists_eq_cons_of_value {fuel levels : Nat}
    (h : Reader.value fuel levels cs = .ok (.arr vs, rest)) : ∃ body, cs = '[' :: body := by
  cases levels with
  | zero =>
    unfold Reader.value at h
    split at h
    · exact ⟨_, rfl⟩
    · simp at h
    · exact absurd h leaf_ne_arr
  | succ levels =>
    unfold Reader.value at h
    split at h
    · exact ⟨_, rfl⟩
    · exact absurd h object_ne_arr
    · exact absurd h leaf_ne_arr

/-- A text that is read as an array starts with a bracket. -/
theorem exists_skip_eq_cons_of_read {text : String} (h : Json.read text = .ok (.arr vs)) :
    ∃ body, skip text.toList = '[' :: body := by
  have hchars : readChars text.toList = .ok (.arr vs) := by
    unfold Json.read at h
    cases hread : readChars text.toList with
    | error stop =>
      rw [hread] at h
      cases h
    | ok v =>
      rw [hread] at h
      cases h
      rfl
  unfold readChars at hchars
  split at hchars
  · simp at hchars
  · split at hchars
    · simp at hchars
    · rename_i v rest hvalue
      split at hchars
      · split at hchars
        · simp at hchars
        · cases hchars
          exact exists_eq_cons_of_value hvalue
      · simp at hchars

/-- **Integers between commas are never read as an array.** -/
theorem read_commaText_ne_arr (gap : Nat) (xs : List Padded) :
    Json.read (commaText gap xs) ≠ .ok (.arr vs) := by
  intro h
  obtain ⟨body, hbody⟩ := exists_skip_eq_cons_of_read h
  cases xs with
  | nil =>
    rw [toList_commaText_nil, skip_replicate] at hbody
    simp at hbody
  | cons x xs =>
    rw [toList_commaText_cons, ← List.append_nil (row (x :: xs))] at hbody
    exact absurd hbody (skip_row_ne rfl (by decide) x xs _ _)

end NotArray

/-! ## Reading between commas -/

/-- One integer is read as a number, and no integer or several are malformed. -/
theorem readChars_commaText {xs : List Padded} (h : ∀ x ∈ xs, Text.isWritable x.value = true)
    (gap : Nat) :
    (∃ n, readChars (commaText gap xs).toList = .ok (.int n)) ∨
      ∃ reason rest, readChars (commaText gap xs).toList = .error (.malformed reason rest) := by
  cases xs with
  | nil =>
    have hskip : skip (commaText gap []).toList = [] := by
      rw [toList_commaText_nil, skip_replicate]
    refine .inr ⟨.value, [], readChars_of_error (by simp [hskip]) ?_⟩
    rw [hskip]
    rfl
  | cons x xs =>
    obtain ⟨tail, htail, hends⟩ := exists_row_cons_eq x xs
    have hmark (body : List Char) : skip (row (x :: xs)) ≠ '\uFEFF' :: body := by
      simpa using skip_row_ne rfl (by decide) x xs [] body
    have hvalue := value_decimal (h x List.mem_cons_self) (ends_spaces hends x.after)
      ((row (x :: xs)).length + 1) nestingLimit
    rw [toList_commaText_cons]
    rw [← skip_chars, ← htail] at hvalue
    rw [readChars_of_ok (backslash_not_mem_row (x :: xs)) hmark hvalue]
    split
    · exact .inl ⟨_, rfl⟩
    · exact .inr ⟨_, _, rfl⟩

/-- Where JSON finds no array, the integers between the commas are read. -/
theorem parseInputs_commaText {xs : List Padded} (h : ∀ x ∈ xs, Text.isWritable x.value = true)
    (gap : Nat) :
    parseInputs (commaText gap xs) = inputsBetweenCommas (commaText gap xs) := by
  unfold parseInputs Json.read
  rcases readChars_commaText h gap with ⟨n, hread⟩ | ⟨reason, rest, hread⟩ <;> rw [hread] <;> rfl

section Strip

variable {ds : List Char}

theorem stripStart_spaces (n : Nat) (cs : List Char) :
    Text.stripStart (List.replicate n ' ' ++ cs) = Text.stripStart cs :=
  dropWhile_spaces rfl n cs

theorem stripStart_append (hne : ds ≠ []) (h : ∀ c ∈ ds, Text.isBlank c = false)
    (rest : List Char) : Text.stripStart (ds ++ rest) = ds ++ rest := by
  cases ds with
  | nil => exact absurd rfl hne
  | cons d ds => simp [Text.stripStart, h d List.mem_cons_self]

theorem strip_spaces (n : Nat) : Text.strip (List.replicate n ' ') = [] := by
  rw [Text.strip, ← List.append_nil (List.replicate n ' '), stripStart_spaces]
  rfl

theorem strip_append (hne : ds ≠ []) (h : ∀ c ∈ ds, Text.isBlank c = false) (m n : Nat) :
    Text.strip (List.replicate m ' ' ++ (ds ++ List.replicate n ' ')) = ds := by
  have hback : Text.stripStart ds.reverse = ds.reverse := by
    simpa using stripStart_append (List.reverse_ne_nil_iff.mpr hne)
      (fun c hc => h c (List.mem_reverse.mp hc)) []
  rw [Text.strip, stripStart_spaces, stripStart_append hne h, List.reverse_append,
    List.reverse_replicate, stripStart_spaces, hback, List.reverse_reverse]

end Strip

theorem strip_chars (x : Padded) : Text.strip x.chars = Text.decimal x.value := by
  refine strip_append (decimal_ne_nil x.value) (fun c hc => ?_) x.before x.after
  rcases Text.eq_sign_or_digit_of_mem_decimal hc with rfl | hdigit
  · rfl
  · simp [Text.isBlank, Text.blankRanges]
    omega

/-- The pieces between the commas are the integers, without blanks. -/
theorem pieces_commaText (gap : Nat) (xs : List Padded) :
    ((((commaText gap xs).toList.splitOn ',').map Text.strip).filter fun cs => !cs.isEmpty) =
      xs.map fun x => Text.decimal x.value := by
  cases xs with
  | nil =>
    have hsplit : ([','].intercalate [List.replicate gap ' ']).splitOn ',' =
        [List.replicate gap ' '] :=
      List.splitOn_intercalate ',' (by simp [List.mem_replicate]) (by simp)
    rw [List.intercalate_singleton] at hsplit
    rw [toList_commaText_nil, hsplit, List.map_singleton, strip_spaces]
    rfl
  | cons x xs =>
    have hsplit : (row (x :: xs)).splitOn ',' = (x :: xs).map Padded.chars := by
      refine List.splitOn_intercalate _ ?_ (by simp)
      intro cs hcs
      obtain ⟨y, -, rfl⟩ := List.mem_map.mp hcs
      exact comma_not_mem_chars y
    have hstrip : Text.strip ∘ Padded.chars = fun y => Text.decimal y.value := funext strip_chars
    rw [toList_commaText_cons, hsplit, List.map_map, hstrip, List.filter_eq_self]
    intro cs hcs
    obtain ⟨y, -, rfl⟩ := List.mem_map.mp hcs
    simpa using decimal_ne_nil y.value

/-- The integers between commas are read one by one. -/
theorem inputsBetweenCommas_commaText {xs : List Padded}
    (h : ∀ x ∈ xs, Text.isWritable x.value = true) (gap : Nat) :
    inputsBetweenCommas (commaText gap xs) = .ok (xs.map Padded.value) := by
  rw [inputsBetweenCommas, pieces_commaText]
  induction xs with
  | nil => rfl
  | cons x xs ih =>
    rw [List.forall_mem_cons] at h
    have hx : inputOfPiece (Text.decimal x.value) = .ok x.value := by
      rw [inputOfPiece, Text.readInteger_decimal h.1]
    rw [List.map_cons, List.mapM_cons, hx, ih h.2]
    rfl

theorem inputsOfItems_ints (ns : List Int) : inputsOfItems (ns.map .int) = .ok ns := by
  induction ns with
  | nil => rfl
  | cons n ns ih =>
    rw [List.map_cons, inputsOfItems, ih]
    rfl

/-- **Inputs are read back from both ways to write them.** Integers between commas, with any number
of spaces around each, and the same integers in an array, with any number of spaces around the
brackets too, are read as those integers if each has few enough digits. Integers between commas are
never read as an array, however many digits they have. -/
theorem inputs_read_back (before after gap : Nat) (xs : List Padded) :
    (∀ items, Json.read (commaText gap xs) ≠ .ok (.arr items)) ∧
      ((∀ x ∈ xs, Text.isWritable x.value = true) →
        parseInputs (commaText gap xs) = .ok (xs.map Padded.value) ∧
          parseInputs (arrayText before after gap xs) = .ok (xs.map Padded.value)) := by
  refine ⟨fun items => read_commaText_ne_arr gap xs, fun h => ⟨?_, ?_⟩⟩
  · rw [parseInputs_commaText h, inputsBetweenCommas_commaText h]
  · rw [parseInputs, Json.read, readChars_arrayText h]
    have hitems := inputsOfItems_ints (xs.map Padded.value)
    rw [List.map_map] at hitems
    exact hitems

/-- Three integers, one of them negative, read from both ways to write them. -/
theorem inputs_read_back_three :
    (∀ x ∈ [(⟨0, 0, 2⟩ : Padded), ⟨1, -12, 0⟩, ⟨3, 4096, 1⟩], Text.isWritable x.value = true) ∧
      parseInputs "0  , -12,   4096 " = .ok [0, -12, 4096] ∧
      parseInputs " [0  , -12,   4096 ]  " = .ok [0, -12, 4096] := by
  have hsmall : ∀ x ∈ [(⟨0, 0, 2⟩ : Padded), ⟨1, -12, 0⟩, ⟨3, 4096, 1⟩],
      Text.isWritable x.value = true := by
    simp only [List.forall_mem_cons]
    exact ⟨by decide +kernel, by decide +kernel, by decide +kernel, by simp⟩
  exact ⟨hsmall, (inputs_read_back 1 2 0 _).2 hsmall⟩

end BlockCalculus.Command
