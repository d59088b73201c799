import Mathlib

/-! Numerals that mark their own end: the lowest digit first, and on every digit but the last a mark
that more follow. -/
namespace Numeral

variable {α : Type*} {b m : ℕ} {digit : α → ℕ} {more : α → Prop} {a : α} {as as' : List α}

/-- Every digit but the last says that more follow. -/
inductive Ends (more : α → Prop) : List α → Prop
  | last {a : α} (h : ¬ more a) : Ends more [a]
  | cons {a : α} {as : List α} (h : more a) (hs : Ends more as) : Ends more (a :: as)

def value (b : ℕ) (digit : α → ℕ) (as : List α) : ℕ := Nat.ofDigits b (as.map digit)

/-- The last digit of several is not zero. -/
def Minimal (digit : α → ℕ) (as : List α) : Prop :=
  as.length ≤ 1 ∨ ∃ a ∈ as.getLast?, digit a ≠ 0

@[simp] theorem value_nil : value b digit [] = 0 := rfl

theorem value_cons : value b digit (a :: as) = digit a + b * value b digit as :=
  Nat.ofDigits_cons

theorem value_append : value b digit (as ++ [a]) = value b digit as + b ^ as.length * digit a := by
  rw [value, List.map_append, Nat.ofDigits_append, List.length_map, List.map_singleton,
    Nat.ofDigits_singleton, value]

theorem Ends.length_pos (h : Ends more as) : 0 < as.length := by
  cases h <;> simp

theorem Ends.getLast (h : Ends more as) : ∃ a ∈ as.getLast?, ¬ more a := by
  induction h with
  | @last a ha => exact ⟨a, rfl, ha⟩
  | @cons a as ha hs ih =>
    obtain ⟨x, hx, hmore⟩ := ih
    obtain ⟨bs, rfl⟩ := List.getLast?_eq_some_iff.mp hx
    exact ⟨x, List.getLast?_eq_some_iff.mpr ⟨a :: bs, rfl⟩, hmore⟩

theorem Minimal.cons (hm : Minimal digit as) (hv : value b digit as ≠ 0) :
    Minimal digit (a :: as) := by
  right
  cases as with
  | nil => exact absurd rfl hv
  | cons x as =>
    rw [List.getLast?_cons_cons]
    obtain hlen | hlast := hm
    · obtain rfl : as = [] := by simpa using hlen
      refine ⟨x, rfl, ?_⟩
      rwa [value_cons, value_nil, mul_zero, add_zero] at hv
    · exact hlast

/-- A numeral starts where a last digit comes soon enough. -/
theorem exists_ends_prefix :
    (∃ a ∈ as.take m, ¬ more a) ↔ ∃ bs, Ends more bs ∧ bs <+: as ∧ bs.length ≤ m := by
  induction as generalizing m with
  | nil =>
    refine iff_of_false (by simp) ?_
    rintro ⟨bs, hbs, hpre, -⟩
    obtain rfl := List.prefix_nil.mp hpre
    cases hbs
  | cons a as ih =>
    cases m with
    | zero =>
      refine iff_of_false (by simp) ?_
      rintro ⟨bs, hbs, -, hlen⟩
      have := hbs.length_pos
      omega
    | succ m =>
      by_cases ha : more a
      · rw [List.take_succ_cons, List.exists_mem_cons_iff, or_iff_right (not_not.mpr ha), ih]
        constructor
        · rintro ⟨bs, hbs, hpre, hlen⟩
          exact ⟨a :: bs, .cons ha hbs, List.cons_prefix_cons.mpr ⟨rfl, hpre⟩, by simpa using hlen⟩
        · rintro ⟨bs, hbs, hpre, hlen⟩
          cases hbs with
          | last hlast => exact absurd ha (by simpa [(List.cons_prefix_cons.mp hpre).1] using hlast)
          | cons _ hbs =>
            exact ⟨_, hbs, (List.cons_prefix_cons.mp hpre).2, by simpa using hlen⟩
      · exact iff_of_true ⟨a, by simp, ha⟩ ⟨[a], .last ha, by simp, by simp⟩

section Bounds

variable (hb : 1 < b) (hd : ∀ a, digit a < b)

include hb hd

theorem value_lt : value b digit as < b ^ as.length := by
  have h := Nat.ofDigits_lt_base_pow_length (l := as.map digit) hb (by simpa using fun a _ => hd a)
  rwa [List.length_map] at h

/-- A minimal numeral is as short as its value allows. -/
theorem Minimal.length_le_iff (hm : Minimal digit as) (h0 : 0 < m) :
    as.length ≤ m ↔ value b digit as < b ^ m := by
  constructor
  · intro hle
    exact (value_lt hb hd).trans_le (Nat.pow_le_pow_right (by omega) hle)
  · intro hlt
    obtain hone | ⟨a, ha, hne⟩ := hm
    · omega
    · obtain ⟨bs, rfl⟩ := List.getLast?_eq_some_iff.mp ha
      rw [value_append] at hlt
      have hle := Nat.le_mul_of_pos_right (b ^ bs.length) (Nat.pos_of_ne_zero hne)
      have hpow : b ^ bs.length < b ^ m := by omega
      have hlen := (Nat.pow_lt_pow_iff_right hb).mp hpow
      rw [List.length_append, List.length_singleton]
      exact hlen

/-- A numeral that is not minimal has a value for which one digit less is enough. -/
theorem value_lt_of_not_minimal (hm : ¬ Minimal digit as) :
    1 < as.length ∧ value b digit as < b ^ (as.length - 1) := by
  obtain ⟨hlen, hlast⟩ := not_or.mp hm
  cases as using List.reverseRecOn with
  | nil => simp at hlen
  | append_singleton bs a =>
    have hzero : digit a = 0 := by simpa using hlast
    refine ⟨not_le.mp hlen, ?_⟩
    rw [value_append, hzero, mul_zero, add_zero, List.length_append, List.length_singleton,
      Nat.add_sub_cancel]
    exact value_lt hb hd

/-- Numerals of one length with one value are equal. -/
theorem Ends.eq_of_length (hinj : ∀ a a', digit a = digit a' → (more a ↔ more a') → a = a')
    (h : Ends more as) (h' : Ends more as') (hlen : as.length = as'.length)
    (heq : value b digit as = value b digit as') : as = as' := by
  -- the lowest digit is the remainder of a value, and the others make the quotient
  have hlow : ∀ a as, value b digit (a :: as) % b = digit a := by
    intro a as
    rw [value_cons, Nat.add_mul_mod_self_left, Nat.mod_eq_of_lt (hd a)]
  have hrest : ∀ a as, value b digit (a :: as) / b = value b digit as := by
    intro a as
    rw [value_cons, Nat.add_mul_div_left _ _ (by omega), Nat.div_eq_of_lt (hd a), zero_add]
  induction h generalizing as' with
  | @last a ha =>
    cases h' with
    | @last a' ha' =>
      have hdigit : digit a = digit a' := by rw [← hlow a [], heq, hlow]
      rw [hinj a a' hdigit (iff_of_false ha ha')]
    | cons _ hs' =>
      have := hs'.length_pos
      simp only [List.length_cons, List.length_nil] at hlen
      omega
  | @cons a as ha hs ih =>
    cases h' with
    | last _ =>
      have := hs.length_pos
      simp only [List.length_cons, List.length_nil] at hlen
      omega
    | @cons a' as' ha' hs' =>
      have hdigit : digit a = digit a' := by rw [← hlow a as, heq, hlow]
      have hvalue : value b digit as = value b digit as' := by rw [← hrest a as, heq, hrest]
      rw [hinj a a' hdigit (iff_of_true ha ha'), ih hs' (by simpa using hlen) hvalue]

/-- A minimal numeral is the only one of its value. -/
theorem Ends.unique (hinj : ∀ a a', digit a = digit a' → (more a ↔ more a') → a = a')
    (h : Ends more as) (h' : Ends more as') (hm : Minimal digit as) (hm' : Minimal digit as')
    (heq : value b digit as = value b digit as') : as = as' := by
  have hle : as.length ≤ as'.length := by
    rw [hm.length_le_iff hb hd h'.length_pos, heq]
    exact value_lt hb hd
  have hge : as'.length ≤ as.length := by
    rw [hm'.length_le_iff hb hd h.length_pos, ← heq]
    exact value_lt hb hd
  exact h.eq_of_length hb hd hinj h' (le_antisymm hle hge) heq

end Bounds

end Numeral
