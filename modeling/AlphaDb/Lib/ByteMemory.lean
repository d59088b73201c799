import Mathlib

/-! A piece of memory as the list of its bytes, with copies that stay inside it. -/
namespace ByteMemory

variable {m m' a b : List UInt8} {off len : ℕ}

/-- The `len` bytes at `off`, when they are all there. -/
def slice (m : List UInt8) (off len : ℕ) : Option (List UInt8) :=
  if off + len ≤ m.length then some ((m.drop off).take len) else none

/-- Copy bytes to `off`, when there is room for them. -/
def copyTo (m : List UInt8) (off : ℕ) (a : List UInt8) : Option (List UInt8) :=
  if off + a.length ≤ m.length then some (m.take off ++ a ++ m.drop (off + a.length)) else none

/-- The low `w` bytes of a number, the lowest first. -/
def leBytes (w n : ℕ) : List UInt8 := (List.range w).map fun k => UInt8.ofNat (n / 256 ^ k)

def leNat (a : List UInt8) : ℕ := a.foldr (fun x n => x.toNat + 256 * n) 0

@[simp] theorem length_leBytes (w n : ℕ) : (leBytes w n).length = w := by simp [leBytes]

@[simp] theorem leBytes_zero (n : ℕ) : leBytes 0 n = [] := rfl

theorem leBytes_succ (w n : ℕ) :
    leBytes (w + 1) n = UInt8.ofNat n :: leBytes w (n / 256) := by
  simp only [leBytes, List.range_succ_eq_map, List.map_cons, pow_zero, Nat.div_one, List.map_map]
  congr 1
  apply List.map_congr_left
  intro k _
  simp only [Function.comp_apply, pow_succ', Nat.div_div_eq_div_mul]

theorem leNat_leBytes (w n : ℕ) : leNat (leBytes w n) = n % 256 ^ w := by
  induction w generalizing n with
  | zero => simp [leBytes, leNat, Nat.mod_one]
  | succ w ih =>
    have hrest : leNat (leBytes w (n / 256)) = n / 256 % 256 ^ w := ih _
    rw [leBytes_succ, pow_succ', Nat.mod_mul]
    show (UInt8.ofNat n).toNat + 256 * leNat (leBytes w (n / 256)) = _
    rw [hrest]
    simp

theorem ofNat_leNat_leBytes (v : BitVec 32) : BitVec.ofNat 32 (leNat (leBytes 4 v.toNat)) = v := by
  apply BitVec.eq_of_toNat_eq
  rw [leNat_leBytes, BitVec.toNat_ofNat, Nat.mod_mod_of_dvd _ (by decide)]
  exact Nat.mod_eq_of_lt v.isLt

/-- A size is never larger as an `int`. -/
theorem toInt_ofNat_le (n : ℕ) : (BitVec.ofNat 32 n).toInt ≤ n := by
  rw [BitVec.toInt_ofNat', Int.bmod_def]
  split <;> omega

theorem slice_eq_some : slice m off len = some a ↔
    off + len ≤ m.length ∧ (m.drop off).take len = a := by
  unfold slice
  split
  · next h => simp [h]
  · next h => simp [h]

theorem slice_append : slice (m ++ a) (m.length + off) len = slice a off len := by
  rw [slice, slice, List.length_append, List.drop_length_add_append]
  simp only [Nat.add_assoc, Nat.add_le_add_iff_left]

theorem length_copyTo (h : copyTo m off a = some m') : m'.length = m.length := by
  unfold copyTo at h
  split at h
  · next hle =>
    obtain rfl := Option.some.inj h
    simp
    omega
  · cases h

/-- What lies before the end of a copy: the bytes before it, and the copied ones. -/
theorem take_copyTo (h : copyTo m off a = some m') :
    off + a.length ≤ m'.length ∧ m'.take (off + a.length) = m.take off ++ a := by
  unfold copyTo at h
  split at h
  · next hle =>
    obtain rfl := Option.some.inj h
    have hlen : (m.take off ++ a).length = off + a.length := by
      rw [List.length_append, List.length_take]
      omega
    refine ⟨?_, ?_⟩
    · rw [List.length_append, hlen]
      omega
    · rw [← hlen, List.take_left]
  · cases h

/-- Words of 32 bits one after the other. -/
def words (ws : List (BitVec 32)) : List UInt8 := ws.flatMap fun w => leBytes 4 w.toNat

def wordAt (m : List UInt8) (i : ℕ) : Option (BitVec 32) :=
  (slice m (4 * i) 4).map fun a => BitVec.ofNat 32 (leNat a)

theorem wordAt_words {ws : List (BitVec 32)} {w : BitVec 32} {i : ℕ} (h : ws[i]? = some w) :
    wordAt (words ws ++ a) i = some w := by
  induction ws generalizing i with
  | nil => cases h
  | cons v ws ih =>
    have hcons : words (v :: ws) ++ a = leBytes 4 v.toNat ++ (words ws ++ a) := by simp [words]
    rw [hcons]
    cases i with
    | zero =>
      cases h
      have hs : slice (leBytes 4 w.toNat ++ (words ws ++ a)) 0 4 = some (leBytes 4 w.toNat) :=
        slice_eq_some.mpr ⟨by simp, List.take_left' (length_leBytes ..)⟩
      rw [wordAt, Nat.mul_zero, hs, Option.map_some, ofNat_leNat_leBytes]
    | succ i =>
      have hs : slice (leBytes 4 v.toNat ++ (words ws ++ a)) (4 + 4 * i) 4 =
          slice (words ws ++ a) (4 * i) 4 := by
        rw [← length_leBytes 4 v.toNat]
        exact slice_append
      rw [wordAt, Nat.mul_add, Nat.add_comm, hs]
      exact ih h

/-- Two copies of which the second starts where the first one ends are one copy. -/
theorem copyTo_append : (copyTo m off a).bind (copyTo · (off + a.length) b) =
    copyTo m off (a ++ b) := by
  unfold copyTo
  by_cases hab : off + (a ++ b).length ≤ m.length
  · have hlen : (a ++ b).length = a.length + b.length := List.length_append
    have ha : off + a.length ≤ m.length := by omega
    have hoff : (m.take off ++ a).length = off + a.length := by
      rw [List.length_append, List.length_take]
      omega
    have hin : off + a.length + b.length ≤
        (m.take off ++ a ++ m.drop (off + a.length)).length := by
      rw [List.length_append, hoff, List.length_drop]
      omega
    rw [if_pos ha, if_pos hab, Option.bind_some, if_pos hin]
    congr 1
    rw [← hoff, List.take_left, List.drop_append, hoff, List.drop_of_length_le (by omega),
      List.drop_drop, hlen]
    simp [Nat.add_assoc]
  · rw [if_neg hab]
    rw [List.length_append] at hab
    split
    · next ha =>
      rw [Option.bind_some, if_neg]
      simp
      omega
    · rfl

end ByteMemory
