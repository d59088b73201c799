import Mathlib

/-! Decimal integers on text streams, written by `<<` and read by `>>`. -/
namespace TextStream

/-- The text in front of the reader, and the bits for its end and for a failure. -/
structure Reader where
  text : List Char
  eof : Bool
  fail : Bool
  deriving DecidableEq, Repr

/-- A reader at the start of a text. -/
def Reader.ofText (text : List Char) : Reader := ⟨text, false, false⟩

def showNat (n : ℕ) : List Char := Nat.toDigits 10 n

def showInt (v : ℤ) : List Char := if v < 0 then '-' :: showNat v.natAbs else showNat v.natAbs

/-- A text as a C string: what is in front of its first zero. -/
def cStr (text : List Char) : List Char := text.takeWhile (· ≠ '\x00')

def isSpace (c : Char) : Bool := c = ' ' ∨ ('\t' ≤ c ∧ c ≤ '\r')

/-- The digits at the front of a text, as a number, and what is behind them. -/
def digits (text : List Char) : List Char × List Char :=
  (text.takeWhile Char.isDigit, text.dropWhile Char.isDigit)

/-- The value that an `int` gets from a number; one that is too large is replaced by the largest
there is, and the reader fails. -/
def store (negative : Bool) (n : ℕ) : Bool × ℤ :=
  if negative then (decide (2 ^ 31 < n), -min (n : ℤ) (2 ^ 31))
  else (decide (2 ^ 31 ≤ n), min (n : ℤ) (2 ^ 31 - 1))

/-- The number behind an optional sign; without a digit the value is zero, and the reader fails. -/
def readNumber (negative : Bool) (text : List Char) : Reader × ℤ :=
  match digits text with
  | ([], rest) => (⟨rest, rest.isEmpty, true⟩, 0)
  | (ds, rest) =>
    let x := store negative (Nat.ofDigitChars 10 ds 0)
    (⟨rest, rest.isEmpty, x.1⟩, x.2)

/-- Extraction into an `int`. A reader that is at its end or has failed, or finds nothing but
blanks, fails and leaves the variable as it was. -/
def readInt (r : Reader) : Reader × Option ℤ :=
  if r.eof ∨ r.fail then ({ r with fail := true }, none)
  else
    match r.text.dropWhile isSpace with
    | [] => (⟨[], true, true⟩, none)
    | '-' :: text => let x := readNumber true text; (x.1, some x.2)
    | '+' :: text => let x := readNumber false text; (x.1, some x.2)
    | c :: text => let x := readNumber false (c :: text); (x.1, some x.2)

variable {text rest ds : List Char} {n : ℕ} {v : ℤ}

@[simp] theorem readInt_eof (text : List Char) (fail : Bool) :
    (readInt ⟨text, true, fail⟩).2 = none := by
  simp [readInt]

@[simp] theorem readInt_fail (text : List Char) (eof : Bool) :
    (readInt ⟨text, eof, true⟩).2 = none := by
  simp [readInt]

/-- A number that was read without a failure is in the range of `int`. -/
theorem store_of_not_fail {negative : Bool} {n : ℕ} (h : (store negative n).1 = false) :
    (store negative n).2 = if negative then -(n : ℤ) else n := by
  cases negative with
  | false =>
    simp only [store, Bool.false_eq_true, if_false, decide_eq_false_iff_not] at h ⊢
    omega
  | true =>
    simp only [store, if_true, decide_eq_false_iff_not] at h ⊢
    omega

theorem lt_of_not_fail {n : ℕ} (h : (store false n).1 = false) : n < 2 ^ 31 := by
  simp only [store, Bool.false_eq_true, if_false, decide_eq_false_iff_not] at h
  omega

theorem showNat_ne_nil (n : ℕ) : showNat n ≠ [] := Nat.toDigits_ne_nil

theorem isDigit_of_mem_showNat {c : Char} (h : c ∈ showNat n) : c.isDigit = true :=
  Nat.isDigit_of_mem_toDigits (by decide) (by decide) h

@[simp] theorem digits_showNat_append (n : ℕ) (rest : List Char) :
    digits (showNat n ++ rest) = (showNat n ++ (digits rest).1, (digits rest).2) := by
  have h : ∀ c ∈ showNat n, c.isDigit = true := fun c hc => isDigit_of_mem_showNat hc
  simp [digits, List.takeWhile_append_of_pos h, List.dropWhile_append_of_pos h]

@[simp] theorem ofDigitChars_showNat (n : ℕ) : Nat.ofDigitChars 10 (showNat n) 0 = n :=
  Nat.ofDigitChars_ten_toDigits

/-- The decimal text of a number tells the number. -/
theorem showInt_injective : Function.Injective showInt := by
  have hnat : ∀ m n, showNat m = showNat n → m = n := fun m n h => by
    rw [← ofDigitChars_showNat m, h, ofDigitChars_showNat]
  have hminus : ∀ m n, '-' :: showNat m ≠ showNat n := fun m n h => by
    have hdigit : ('-').isDigit = true := isDigit_of_mem_showNat (n := n) (by simp [← h])
    exact absurd hdigit (by decide)
  intro v w h
  unfold showInt at h
  split at h <;> split at h
  · have := hnat _ _ (List.cons.inj h).2
    omega
  · exact absurd h (hminus _ _)
  · exact absurd h.symm (hminus _ _)
  · have := hnat _ _ h
    omega

/-- Digits behind a number make it larger. -/
theorem le_ofDigitChars (ds : List Char) (n : ℕ) : n ≤ Nat.ofDigitChars 10 ds n := by
  rw [Nat.ofDigitChars_eq_ofDigitChars_zero]
  have : 1 ≤ 10 ^ ds.length := Nat.one_le_pow _ _ (by decide)
  nlinarith

/-- A number behind a number makes it ten times larger at least. -/
theorem ofDigitChars_showNat_ge (m n : ℕ) :
    10 * m + n ≤ Nat.ofDigitChars 10 (showNat n) m := by
  rw [Nat.ofDigitChars_eq_ofDigitChars_zero, ofDigitChars_showNat]
  have hlen : 0 < (showNat n).length := Nat.length_toDigits_pos
  have : 10 ^ 1 ≤ 10 ^ (showNat n).length := Nat.pow_le_pow_right (by decide) hlen
  nlinarith

theorem readNumber_showNat (negative : Bool) (n : ℕ) (rest : List Char) :
    readNumber negative (showNat n ++ rest) =
      let x := store negative (Nat.ofDigitChars 10 (digits rest).1 n)
      (⟨(digits rest).2, (digits rest).2.isEmpty, x.1⟩, x.2) := by
  unfold readNumber
  rw [digits_showNat_append]
  cases hds : showNat n ++ (digits rest).1 with
  | nil => exact absurd (List.append_eq_nil_iff.mp hds).1 (showNat_ne_nil n)
  | cons c cs =>
    have hvalue : Nat.ofDigitChars 10 (c :: cs) 0 = Nat.ofDigitChars 10 (digits rest).1 n := by
      rw [← hds, Nat.ofDigitChars_append, ofDigitChars_showNat]
    simp [hvalue]

theorem isSpace_of_isDigit {c : Char} (h : c.isDigit = true) :
    isSpace c = false ∧ c ≠ '-' ∧ c ≠ '+' := by
  refine ⟨?_, ?_, ?_⟩
  · simp only [Char.isDigit, ge_iff_le, Bool.and_eq_true, decide_eq_true_eq] at h
    have hlarge : ¬ c ≤ '\r' := by
      intro hle
      exact absurd (h.1.trans hle) (by decide)
    have hblank : c ≠ ' ' := by
      rintro rfl
      exact absurd h.1 (by decide)
    simp [isSpace, hlarge, hblank]
  · rintro rfl
    simp at h
  · rintro rfl
    simp at h

/-- A number is read together with the digits that follow it. -/
theorem readInt_showNat (n : ℕ) (rest : List Char) :
    readInt (.ofText (showNat n ++ rest)) =
      let x := store false (Nat.ofDigitChars 10 (digits rest).1 n)
      (⟨(digits rest).2, (digits rest).2.isEmpty, x.1⟩, some x.2) := by
  obtain ⟨c, cs, hcs⟩ := List.exists_cons_of_ne_nil (showNat_ne_nil n)
  have hdigit : c.isDigit = true := isDigit_of_mem_showNat (n := n) (by simp [hcs])
  obtain ⟨hspace, hminus, hplus⟩ := isSpace_of_isDigit hdigit
  have hnumber := readNumber_showNat false n rest
  rw [hcs, List.cons_append] at hnumber ⊢
  unfold readInt
  simp only [Reader.ofText, Bool.false_eq_true, or_self, if_false, List.dropWhile_cons, hspace]
  rw [hnumber]

theorem readInt_minus (n : ℕ) (rest : List Char) :
    readInt (.ofText ('-' :: showNat n ++ rest)) =
      let x := store true (Nat.ofDigitChars 10 (digits rest).1 n)
      (⟨(digits rest).2, (digits rest).2.isEmpty, x.1⟩, some x.2) := by
  have hspace : isSpace '-' = false := by decide
  unfold readInt
  simp only [Reader.ofText, Bool.false_eq_true, or_self, if_false, List.cons_append,
    List.dropWhile_cons, hspace]
  rw [readNumber_showNat]

end TextStream
