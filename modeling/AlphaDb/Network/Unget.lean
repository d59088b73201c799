import AlphaDb.Network.BulkBuffer

/-! Taking back what was read from a buffer (`network/buffer`). The guard of `unget` asks how much
is left and not how much room there is, and its index wraps around at 64 bits first. -/
namespace AlphaDb.Network.Buffer

open Trace

variable {b : Buffer} {s : List UInt8} {n : ℕ}

theorem unget_full (b : Buffer) (n : ℕ) : (b.unget n).full = b.full := by
  unfold unget
  split <;> rfl

section Wrapping

variable {t m M : ℕ}

/-- A position that went once around comes back over zero only modulo a divisor. -/
theorem wrapped_mod (ht : t < m) (hm : m < M) : (M + t - m) % m = t ↔ m ∣ M := by
  have hsplit : M + t - m = M - m + t := by omega
  have hdvd : m ∣ M - m ↔ m ∣ M := Nat.dvd_sub_iff_left hm.le dvd_rfl
  rw [hsplit, ← hdvd]
  constructor
  · intro h
    have hmod : M - m + t ≡ 0 + t [MOD m] := by
      rw [Nat.ModEq, h, Nat.zero_add, Nat.mod_eq_of_lt ht]
    exact (Nat.modEq_zero_iff_dvd).mp (Nat.ModEq.add_right_cancel' t hmod)
  · intro h
    rw [Nat.add_mod, Nat.mod_eq_zero_of_dvd h, Nat.zero_add, Nat.mod_mod, Nat.mod_eq_of_lt ht]

/-- Forwards on a ring of `m` and back with a subtraction modulo `M`. -/
theorem wrapped_sub (ht : t < m) (hm : m < M) (hn : n < m) :
    ((t + n) % m + M - n) % M % m = t ↔ t + n < m ∨ m ∣ M := by
  by_cases hwrap : t + n < m
  · refine iff_of_true ?_ (.inl hwrap)
    rw [Nat.mod_eq_of_lt hwrap, show t + n + M - n = t + M by omega, Nat.add_mod_right,
      Nat.mod_eq_of_lt (by omega : t < M), Nat.mod_eq_of_lt ht]
  · rw [Nat.mod_eq_sub_mod (by omega : m ≤ t + n), Nat.mod_eq_of_lt (by omega : t + n - m < m),
      show t + n - m + M - n = M + t - m by omega, Nat.mod_eq_of_lt (by omega : M + t - m < M),
      wrapped_mod ht hm, or_iff_right hwrap]

end Wrapping

/-- A buffer behind its first `n` bytes goes back if at least as many are left, and either nothing
went around or the capacity divides 2^64. -/
theorem unget_advance (h : b.Valid) (hf : b.full = false) (hcap : b.maxSize < 2 ^ 64)
    (hn : n ≤ b.size) :
    { b with tail := (b.tail + n) % b.maxSize }.unget n = b ↔
      n = 0 ∨ 2 * n ≤ b.size ∧ (b.tail + n < b.maxSize ∨ b.maxSize ∣ 2 ^ 64) := by
  have htail := h.tail
  have hlt := h.size_lt hf
  obtain ⟨-, hsize⟩ := size_advance h hf hn
  have heq : ∀ t, { b with tail := t } = b ↔ t = b.tail := by
    intro t
    constructor
    · exact fun hb => congrArg Buffer.tail hb
    · rintro rfl
      rfl
  unfold unget
  rw [hsize]
  dsimp only
  by_cases hguard : 2 * n ≤ b.size
  · have hcond : ¬ (b.full = true ∨ b.size - n < n) := by
      rw [hf]
      simp only [Bool.false_eq_true, false_or]
      omega
    rw [if_neg hcond, heq, wrapped_sub htail hcap (by omega)]
    by_cases hzero : n = 0
    · exact iff_of_true (.inl (by omega)) (.inl hzero)
    · rw [or_iff_right hzero, and_iff_right hguard]
  · -- the call does nothing, and the position is not the one before
    rw [if_pos (.inr (by omega)), heq]
    refine iff_of_false ?_ (by omega)
    have hne := Ring.offset_ne (t := b.tail) (by omega : 0 < n) (by omega : n < b.maxSize)
    rw [Nat.add_zero, Nat.mod_eq_of_lt htail] at hne
    exact hne.symm

/-- What was taken from a full buffer never comes back: nothing makes it full again. -/
theorem unget_ne_of_full {b' : Buffer} (hf : b.full = true) (hf' : b'.full = false) :
    b'.unget n ≠ b := by
  intro heq
  have := congrArg Buffer.full heq
  rw [unget_full, hf, hf'] at this
  cases this

theorem unget_getEach_iff (h : b.InArray) (hn : n ≤ b.size) :
    (∃ x, b.getEach n = some x ∧ x.2.unget n = b) ↔
      n = 0 ∨ b.full = false ∧ 2 * n ≤ b.size ∧
        (b.tail + n < b.maxSize ∨ b.maxSize ∣ 2 ^ 64) := by
  cases hf : b.full with
  | false =>
    rw [getEach_eq (h.valid hf) hf, min_eq_left hn]
    simp only [Option.some.injEq, exists_eq_left', true_and]
    exact unget_advance (h.valid hf) hf h.capacity hn
  | true =>
    cases n with
    | zero =>
      have hzero : b.unget 0 = b := if_pos (.inl hf)
      exact iff_of_true ⟨([], b), rfl, hzero⟩ (.inl rfl)
    | succ n =>
      refine iff_of_false ?_ (by simp)
      rintro ⟨x, hx, hback⟩
      rw [getEach_full h hf] at hx
      obtain rfl := Option.some.inj hx
      exact unget_ne_of_full hf rfl hback

theorem unget_getBytes_iff (h : b.InArray) (hn : n ≤ b.size) (hs : n ≤ s.length) :
    (∃ x, b.getBytes s n = some x ∧ x.2.unget n = b) ↔
      b.full = false ∧ b.tail + n ≤ b.maxSize ∧
        (n = 0 ∨ 2 * n ≤ b.size ∧ (b.tail + n < b.maxSize ∨ b.maxSize ∣ 2 ^ 64)) := by
  by_cases hfit : b.tail + n ≤ b.maxSize
  · rw [getBytes_fits hn hs hfit]
    simp only [Option.some.injEq, exists_eq_left', hfit, true_and]
    cases hf : b.full with
    | false =>
      simp only [true_and]
      have hiff := unget_advance (h.valid hf) hf h.capacity hn
      rwa [hf] at hiff
    | true =>
      refine iff_of_false ?_ (by simp)
      exact unget_ne_of_full hf rfl
  · rw [getBytes_crosses hn (not_le.mp hfit)]
    simp [hfit]

/-- In every state that calls lead to, `unget` takes a read of `n` bytes back exactly if the buffer
was not full, twice as many bytes were there, and either they did not reach the end of the array or
the capacity divides 2^64. -/
theorem unget_get_iff (h : b.Reachable) (hn : n ≤ b.size) :
    ((∃ x, b.getEach n = some x ∧ x.2.unget n = b) ↔
      n = 0 ∨ b.full = false ∧ 2 * n ≤ b.size ∧
        (b.tail + n < b.maxSize ∨ b.maxSize ∣ 2 ^ 64)) ∧
    ∀ s, n ≤ s.length → ((∃ x, b.getBytes s n = some x ∧ x.2.unget n = b) ↔
      b.full = false ∧ b.tail + n ≤ b.maxSize ∧
        (n = 0 ∨ 2 * n ≤ b.size ∧ (b.tail + n < b.maxSize ∨ b.maxSize ∣ 2 ^ 64))) :=
  ⟨unget_getEach_iff h.inArray hn, fun _ hs => unget_getBytes_iff h.inArray hn hs⟩

/-- A buffer of four with two bytes, of which one is read. -/
theorem unget_get_iff_four : ∃ b : Buffer, b.Reachable ∧ b.size = 2 ∧
    ∃ x, b.getEach 1 = some x ∧ x.2.unget 1 = b := by
  have h : (exec apply (new (fun _ => 0) 4) [.put 7, .put 8]).any (fun b =>
      b.size = 2 ∧ b.full = false ∧ b.tail = 0 ∧ b.maxSize = 4) = true := by
    decide
  obtain ⟨b, hrun, hp⟩ := exists_mTr_of_exec h
  obtain ⟨hsize, hfull, htail, hmax⟩ := of_decide_eq_true hp
  have hb : b.Reachable := ⟨_, 4, _, by decide, by decide, hrun⟩
  have hread : 2 * 1 ≤ b.size ∧ (b.tail + 1 < b.maxSize ∨ b.maxSize ∣ 2 ^ 64) := by omega
  exact ⟨b, hb, hsize, (unget_get_iff hb (by omega)).1.mpr (.inr ⟨hfull, hread⟩)⟩

/-- The only byte of a new buffer does not come back, and neither does one of two bytes if it is in
the last cell of a buffer of the default size. -/
theorem not_unget_get :
    (∃ b : Buffer, b.Reachable ∧ b.size = 1 ∧ ¬ ∃ x, b.getEach 1 = some x ∧ x.2.unget 1 = b) ∧
    ∃ b : Buffer, b.Reachable ∧ b.maxSize = defaultBufferSize ∧ b.size = 2 ∧
      ¬ ∃ x, b.getEach 1 = some x ∧ x.2.unget 1 = b := by
  constructor
  · have h : (exec apply (new (fun _ => 0) defaultBufferSize) [.put 7]).any (fun b =>
        b.size = 1) = true := by
      decide
    obtain ⟨b, hrun, hp⟩ := exists_mTr_of_exec h
    have hsize := of_decide_eq_true hp
    have hb : b.Reachable := ⟨_, _, _, by decide, by decide, hrun⟩
    refine ⟨b, hb, hsize, ?_⟩
    rw [unget_getEach_iff hb.inArray (by omega)]
    omega
  · have h : (exec apply (new (fun _ => 0) defaultBufferSize)
        [.advancePut 65534, .advanceGet 65534, .put 7, .put 8]).any (fun b =>
        b.maxSize = defaultBufferSize ∧ b.size = 2 ∧ b.tail = 65534) = true := by
      decide
    obtain ⟨b, hrun, hp⟩ := exists_mTr_of_exec h
    obtain ⟨hmax, hsize, htail⟩ := of_decide_eq_true hp
    have hb : b.Reachable := ⟨_, _, _, by decide, by decide, hrun⟩
    refine ⟨b, hb, hmax, hsize, ?_⟩
    rw [unget_getEach_iff hb.inArray (by omega), hmax, htail, defaultBufferSize]
    omega

end AlphaDb.Network.Buffer
