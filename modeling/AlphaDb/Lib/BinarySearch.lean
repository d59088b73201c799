import Mathlib

/-! Binary search between two positions of something ordered. -/
namespace BinarySearch

variable {α : Type*} [LinearOrder α] {f : ℤ → α} {x : α} {probe : ℤ → Option Ordering}
  {left right i : ℤ}

/-- Looks from `left` to `right`, both included, and gives `-1` for what is not there. `probe`
compares what is at a position with what is looked for. -/
def search (probe : ℤ → Option Ordering) (left right : ℤ) : Option ℤ :=
  if left ≤ right then
    (probe ((left + right) / 2)).bind fun
      | .lt => search probe ((left + right) / 2 + 1) right
      | .gt => search probe left ((left + right) / 2 - 1)
      | .eq => some ((left + right) / 2)
  else some (-1)
termination_by (right - left + 1).toNat

/-- The positions in question hold increasing values, and `probe` reads them. -/
structure Probes (probe : ℤ → Option Ordering) (f : ℤ → α) (x : α) (left right : ℤ) : Prop where
  read : ∀ i, left ≤ i → i ≤ right → probe i = some (cmp (f i) x)
  mono : ∀ i j, left ≤ i → i < j → j ≤ right → f i < f j

theorem Probes.narrow {left' right' : ℤ} (h : Probes probe f x left right) (hl : left ≤ left')
    (hr : right' ≤ right) : Probes probe f x left' right' where
  read i hi hi' := h.read i (hl.trans hi) (hi'.trans hr)
  mono i j hi hij hj := h.mono i j (hl.trans hi) hij (hj.trans hr)

/-- What is there is found, and nothing else. -/
theorem Probes.search_eq (h : Probes probe f x left right) :
    (∃ i, left ≤ i ∧ i ≤ right ∧ f i = x ∧ search probe left right = some i) ∨
      ((∀ i, left ≤ i → i ≤ right → f i ≠ x) ∧ search probe left right = some (-1)) := by
  induction left, right using search.induct with
  | case1 left right hle ihlt ihgt =>
    have hmid : left ≤ (left + right) / 2 ∧ (left + right) / 2 ≤ right := by omega
    rw [search, if_pos hle, h.read _ hmid.1 hmid.2, Option.bind_some]
    generalize (left + right) / 2 = mid at hmid ihlt ihgt ⊢
    cases hc : cmp (f mid) x with
    | lt =>
      -- nothing at or before `mid` reaches `x`
      rcases ihlt (h.narrow (by omega) le_rfl) with ⟨i, hi, hi', hf, hs⟩ | ⟨hf, hs⟩
      · exact .inl ⟨i, by omega, hi', hf, hs⟩
      · refine .inr ⟨?_, hs⟩
        intro i hi hi' he
        have hlt := (cmp_eq_lt_iff _ _).mp hc
        rcases lt_trichotomy mid i with hm | rfl | hm
        · exact hf i hm hi' he
        · exact hlt.ne he
        · exact absurd ((h.mono i mid hi hm hmid.2).trans hlt) (he ▸ lt_irrefl _)
    | gt =>
      rcases ihgt (h.narrow le_rfl (by omega)) with ⟨i, hi, hi', hf, hs⟩ | ⟨hf, hs⟩
      · exact .inl ⟨i, hi, by omega, hf, hs⟩
      · refine .inr ⟨?_, hs⟩
        intro i hi hi' he
        have hgt := (cmp_eq_gt_iff _ _).mp hc
        rcases lt_trichotomy mid i with hm | rfl | hm
        · exact absurd (hgt.trans (h.mono mid i hmid.1 hm hi')) (he ▸ lt_irrefl _)
        · exact hgt.ne' he
        · exact hf i hi (by omega) he
    | eq => exact .inl ⟨mid, hmid.1, hmid.2, (cmp_eq_eq_iff _ _).mp hc, rfl⟩
  | case2 left right hle =>
    right
    constructor
    · intro i hi hi'
      omega
    · rw [search, if_neg hle]

end BinarySearch
