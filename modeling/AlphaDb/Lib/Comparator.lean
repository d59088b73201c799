import Mathlib

/-! Functions that compare two values and answer with the sign of a number, or not at all. -/
namespace Comparator

variable {α β : Type*} {compare : α → α → Option ℤ} {s : Set α} {a b c : α} {m n : ℤ}

/-- `a` compares less than or equal to `b`. -/
def Le (compare : α → α → Option ℤ) (a b : α) : Prop := ∃ m, compare a b = some m ∧ m ≤ 0

def Lt (compare : α → α → Option ℤ) (a b : α) : Prop := ∃ m, compare a b = some m ∧ m < 0

/-- A total order on the values `s`. Transitivity includes the pairs that compare equal. -/
structure TotalOrderOn (compare : α → α → Option ℤ) (s : Set α) : Prop where
  opposite : ∀ a ∈ s, ∀ b ∈ s,
    ∃ m n, compare a b = some m ∧ compare b a = some n ∧ m.sign = -n.sign
  trans : ∀ a ∈ s, ∀ b ∈ s, ∀ c ∈ s, Le compare a b → Le compare b c → Le compare a c
  eq_of_zero : ∀ a ∈ s, ∀ b ∈ s, compare a b = some 0 → a = b

/-- The sign is that of the comparison of two values in a linear order. -/
def Compares [LinearOrder β] (m : ℤ) (x y : β) : Prop :=
  (m < 0 ∧ x < y) ∨ (m = 0 ∧ x = y) ∨ (0 < m ∧ y < x)

section Order

variable [LinearOrder β] {x y : β}

theorem Compares.lt_iff (h : Compares m x y) : m < 0 ↔ x < y := by
  rcases h with ⟨hm, hxy⟩ | ⟨rfl, rfl⟩ | ⟨hm, hxy⟩
  · simp [hm, hxy]
  · simp
  · exact iff_of_false (by omega) hxy.not_gt

theorem Compares.zero_iff (h : Compares m x y) : m = 0 ↔ x = y := by
  rcases h with ⟨hm, hxy⟩ | ⟨rfl, rfl⟩ | ⟨hm, hxy⟩
  · exact iff_of_false (by omega) hxy.ne
  · simp
  · exact iff_of_false (by omega) hxy.ne'

theorem Compares.le_iff (h : Compares m x y) : m ≤ 0 ↔ x ≤ y := by
  rw [Int.le_iff_lt_or_eq, h.lt_iff, h.zero_iff, le_iff_lt_or_eq]

theorem Compares.sign_eq (h : Compares m x y) (h' : Compares n y x) : m.sign = -n.sign := by
  rcases h with ⟨hm, hxy⟩ | ⟨rfl, rfl⟩ | ⟨hm, hxy⟩
  · have hn : 0 < n := by
      rcases h' with ⟨-, hyx⟩ | ⟨-, rfl⟩ | ⟨hn, -⟩
      · exact absurd hxy hyx.not_gt
      · exact absurd hxy (lt_irrefl _)
      · exact hn
    rw [Int.sign_eq_neg_one_of_neg hm, Int.sign_eq_one_of_pos hn]
  · rw [h'.zero_iff.mpr rfl]
    rfl
  · have hn : n < 0 := h'.lt_iff.mpr hxy
    rw [Int.sign_eq_one_of_pos hm, Int.sign_eq_neg_one_of_neg hn]
    rfl

theorem compares_ite (x y : β) : Compares (if x < y then -1 else if x = y then 0 else 1) x y := by
  rcases lt_trichotomy x y with hlt | heq | hgt
  · rw [if_pos hlt]
    exact .inl ⟨by decide, hlt⟩
  · rw [if_neg heq.not_lt, if_pos heq]
    exact .inr (.inl ⟨rfl, heq⟩)
  · rw [if_neg hgt.not_gt, if_neg hgt.ne']
    exact .inr (.inr ⟨by decide, hgt⟩)

/-- Comparing by a key is a total order where the key tells the values apart. -/
theorem TotalOrderOn.of_key (key : α → β)
    (h : ∀ a ∈ s, ∀ b ∈ s, ∃ m, compare a b = some m ∧ Compares m (key a) (key b))
    (hinj : Set.InjOn key s) : TotalOrderOn compare s where
  opposite a ha b hb := by
    obtain ⟨m, hm, hab⟩ := h a ha b hb
    obtain ⟨n, hn, hba⟩ := h b hb a ha
    exact ⟨m, n, hm, hn, hab.sign_eq hba⟩
  trans a ha b hb c hc := by
    rintro ⟨m, hm, hle⟩ ⟨n, hn, hle'⟩
    obtain ⟨m', hm', hab⟩ := h a ha b hb
    obtain ⟨n', hn', hbc⟩ := h b hb c hc
    obtain ⟨k, hk, hac⟩ := h a ha c hc
    obtain rfl := Option.some.inj (hm.symm.trans hm')
    obtain rfl := Option.some.inj (hn.symm.trans hn')
    exact ⟨k, hk, hac.le_iff.mpr ((hab.le_iff.mp hle).trans (hbc.le_iff.mp hle'))⟩
  eq_of_zero a ha b hb hzero := by
    obtain ⟨m, hm, hab⟩ := h a ha b hb
    obtain rfl := Option.some.inj (hzero.symm.trans hm)
    exact hinj ha hb (hab.zero_iff.mp rfl)

end Order

namespace TotalOrderOn

theorem compare_self (h : TotalOrderOn compare s) (ha : a ∈ s) : compare a a = some 0 := by
  obtain ⟨m, n, hm, hn, hsign⟩ := h.opposite a ha a ha
  obtain rfl := Option.some.inj (hm.symm.trans hn)
  have hzero : m.sign = 0 := by omega
  rw [hm, Int.sign_eq_zero_iff_zero.mp hzero]

theorem total (h : TotalOrderOn compare s) (ha : a ∈ s) (hb : b ∈ s) :
    Le compare a b ∨ Le compare b a := by
  obtain ⟨m, n, hm, hn, hsign⟩ := h.opposite a ha b hb
  rcases le_or_gt m 0 with hle | hlt
  · exact .inl ⟨m, hm, hle⟩
  · right
    refine ⟨n, hn, ?_⟩
    rw [Int.sign_eq_one_of_pos hlt] at hsign
    by_contra hpos
    rw [Int.sign_eq_one_of_pos (not_le.mp hpos)] at hsign
    cases hsign

theorem antisymm (h : TotalOrderOn compare s) (ha : a ∈ s) (hb : b ∈ s) (hab : Le compare a b)
    (hba : Le compare b a) : a = b := by
  obtain ⟨m, hm, hle⟩ := hab
  obtain ⟨n, hn, hle'⟩ := hba
  obtain ⟨m', n', hm', hn', hsign⟩ := h.opposite a ha b hb
  obtain rfl := Option.some.inj (hm.symm.trans hm')
  obtain rfl := Option.some.inj (hn.symm.trans hn')
  apply h.eq_of_zero a ha b hb
  rw [hm]
  rcases hle.lt_or_eq with hlt | rfl
  · rw [Int.sign_eq_neg_one_of_neg hlt] at hsign
    have hpos : 0 < n := Int.sign_eq_one_iff_pos.mp (by omega)
    omega
  · rfl

/-- The values in the order of their comparisons. -/
@[reducible] noncomputable def linearOrder (h : TotalOrderOn compare s) : LinearOrder s where
  le a b := Le compare a b
  le_refl a := ⟨0, h.compare_self a.2, le_rfl⟩
  le_trans a b c := h.trans a a.2 b b.2 c c.2
  le_antisymm a b hab hba := Subtype.ext (h.antisymm a.2 b.2 hab hba)
  le_total a b := h.total a.2 b.2
  toDecidableLE := Classical.decRel _

/-- A comparison in the order answers as the function does. -/
theorem compares (h : TotalOrderOn compare s) (a b : s) :
    ∃ m, compare a b = some m ∧ letI := h.linearOrder; Compares m a b := by
  let := h.linearOrder
  obtain ⟨m, n, hm, hn, hsign⟩ := h.opposite a a.2 b b.2
  refine ⟨m, hm, ?_⟩
  have hnot (hpos : 0 < m) : ¬ a ≤ b := by
    rintro ⟨m', hm', hle⟩
    obtain rfl := Option.some.inj (hm.symm.trans hm')
    omega
  rcases lt_trichotomy m 0 with hlt | rfl | hgt
  · refine .inl ⟨hlt, lt_of_le_of_ne ⟨m, hm, hlt.le⟩ ?_⟩
    rintro rfl
    rw [h.compare_self a.2] at hm
    cases hm
    exact lt_irrefl _ hlt
  · exact .inr (.inl ⟨rfl, Subtype.ext (h.eq_of_zero a a.2 b b.2 hm)⟩)
  · exact .inr (.inr ⟨hgt, not_le.mp (hnot hgt)⟩)

end TotalOrderOn

end Comparator
