import Mathlib

/-! Windows on a ring of cells: consecutive cells read off from a position, wrapping around. -/
namespace Ring

variable {α : Type*} {f g : ℕ → α} {n t k j : ℕ} {a : α}

/-- The `k` cells from `t` on in a ring of `n`. -/
def window (f : ℕ → α) (n t k : ℕ) : List α := (List.range k).map fun i => f ((t + i) % n)

theorem window_congr (h : ∀ i < k, f ((t + i) % n) = g ((t + i) % n)) :
    window f n t k = window g n t k := by
  apply List.map_congr_left
  intro i hi
  exact h i (List.mem_range.mp hi)

theorem window_append (f : ℕ → α) (n t j k : ℕ) :
    window f n t (j + k) = window f n t j ++ window f n ((t + j) % n) k := by
  unfold window
  rw [List.range_add, List.map_append, List.map_map]
  congr 1
  apply List.map_congr_left
  intro i _
  simp [Nat.add_assoc]

theorem window_one (ht : t < n) : window f n t 1 = [f t] := by
  simp [window, Nat.mod_eq_of_lt ht]

/-- The oldest cell comes first. -/
theorem window_succ (f : ℕ → α) (ht : t < n) (k : ℕ) :
    window f n t (k + 1) = f t :: window f n ((t + 1) % n) k := by
  rw [Nat.add_comm k 1, window_append, window_one ht]
  rfl

/-- Offsets of less than one turn have cells of their own. -/
theorem offset_ne (h : j < k) (hk : k < n) : (t + j) % n ≠ (t + k) % n := by
  intro heq
  have hmod : j ≡ k [MOD n] := Nat.ModEq.add_left_cancel' t heq
  have := Nat.ModEq.eq_of_lt_of_lt hmod (by omega) hk
  omega

/-- A value stored behind a window that is not full extends it. -/
theorem window_push (hk : k < n) :
    window (Function.update f ((t + k) % n) a) n t (k + 1) = window f n t k ++ [a] := by
  have hlt : (t + k) % n < n := Nat.mod_lt _ (by omega)
  rw [window_append, window_one hlt, Function.update_self]
  congr 1
  apply window_congr
  intro i hi
  rw [Function.update_of_ne (offset_ne hi hk)]

/-- The cells of a window that does not wrap around. -/
theorem window_eq_range' (h : t + k ≤ n) : window f n t k = (List.range' t k).map f := by
  rw [window, List.range'_eq_map_range, List.map_map]
  apply List.map_congr_left
  intro i hi
  have := List.mem_range.mp hi
  simp [Nat.mod_eq_of_lt (by omega : t + i < n)]

/-- Values copied behind a window, without a turn and without reaching the window, extend it. -/
theorem window_copy {h : ℕ} {l : List α} {d : α} (hh : h = (t + k) % n) (hl : h + l.length ≤ n)
    (hfree : k + l.length ≤ n) :
    window (fun i => if h ≤ i ∧ i < h + l.length then l.getD (i - h) d else f i) n t
      (k + l.length) = window f n t k ++ l := by
  rw [window_append, ← hh]
  congr 1
  · apply window_congr
    intro i hi
    -- a cell of the window is not among the new ones
    have hne : ¬ (h ≤ (t + i) % n ∧ (t + i) % n < h + l.length) := by
      rintro ⟨hle, hlt⟩
      obtain ⟨j, hj⟩ : ∃ j, (t + i) % n = h + j := ⟨(t + i) % n - h, by omega⟩
      have hmod : (t + (k + j)) % n = (t + i) % n := by
        rw [hj, ← Nat.add_assoc, ← Nat.mod_add_mod, ← hh, Nat.mod_eq_of_lt (by omega)]
      exact offset_ne (by omega : i < k + j) (by omega) hmod.symm
    rw [if_neg hne]
  · rw [window_eq_range' hl]
    apply List.ext_getElem
    · simp
    · intro i h₁ h₂
      simp only [List.getElem_map, List.getElem_range', Nat.one_mul]
      rw [if_pos ⟨by omega, by omega⟩]
      simp [List.getElem?_eq_getElem h₂]

/-- A value stored into the oldest cell of a full window: that cell drops out, and the value
comes last. -/
theorem window_push_full (ht : t < n) :
    window (Function.update f t a) n ((t + 1) % n) n = (window f n t n).tail ++ [a] := by
  obtain ⟨k, rfl⟩ : ∃ k, n = k + 1 := ⟨n - 1, by omega⟩
  have hlast : ((t + 1) % (k + 1) + k) % (k + 1) = t := by
    rw [Nat.mod_add_mod, Nat.add_assoc, Nat.add_comm 1 k, Nat.add_mod_right, Nat.mod_eq_of_lt ht]
  have hpush := window_push (f := f) (t := (t + 1) % (k + 1)) (a := a) (Nat.lt_succ_self k)
  rw [hlast] at hpush
  rw [hpush, window_succ f ht k, List.tail_cons]

end Ring
