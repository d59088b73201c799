import Mathlib

/-! Byte-addressed files with positioned reads and writes, and blocks of a fixed length. -/

/-- A block of `n` bytes. -/
abbrev Block (n : ℕ) := Fin n → UInt8

/-- A regular file: its length and its bytes. -/
structure ByteFile where
  size : ℕ
  byte : ℕ → UInt8

namespace ByteFile

variable {n : ℕ} {f : ByteFile} {off off' : ℕ} {b b' : Block n}

/-- Bytes that a read of `n` bytes at `off` transfers. -/
def available (f : ByteFile) (off n : ℕ) : ℕ := min n (f.size - off)

/-- Positioned read into `dest`; a short read leaves the rest of `dest` alone. -/
def readInto (f : ByteFile) (off : ℕ) (dest : Block n) : Block n :=
  fun i => if i.val < f.available off n then f.byte (off + i.val) else dest i

/-- Positioned write; a gap before `off` reads as zero. -/
def write (f : ByteFile) (off : ℕ) (src : Block n) : ByteFile where
  size := max f.size (off + n)
  byte i :=
    if h : off ≤ i ∧ i < off + n then src ⟨i - off, by omega⟩
    else if i < f.size then f.byte i else 0

/-- The block at `off`, when the file reaches that far. -/
def block (f : ByteFile) (off n : ℕ) : Option (Block n) :=
  if off + n ≤ f.size then some fun i => f.byte (off + i.val) else none

theorem block_eq_some_iff : f.block off n = some b ↔
    off + n ≤ f.size ∧ ∀ i : Fin n, f.byte (off + i.val) = b i := by
  unfold block
  split
  · next h => simp [h, funext_iff]
  · next h => simp [h]

theorem block_of_readInto {dest : Block n} (h : f.available off n = n) (hn : 0 < n) :
    f.block off n = some (f.readInto off dest) := by
  have hle : off + n ≤ f.size := by
    unfold available at h
    omega
  refine block_eq_some_iff.mpr ⟨hle, ?_⟩
  intro i
  simp [readInto, h]

theorem write_byte_inside (i : Fin n) : (f.write off b).byte (off + i.val) = b i := by
  simp [write]

theorem write_byte_outside {i : ℕ} (hi : i < f.size) (ho : i < off ∨ off + n ≤ i) :
    (f.write off b).byte i = f.byte i := by
  have : ¬ (off ≤ i ∧ i < off + n) := by omega
  simp [write, this, hi]

theorem block_write_same : (f.write off b).block off n = some b :=
  block_eq_some_iff.mpr ⟨le_max_right _ _, write_byte_inside⟩

/-- A write elsewhere keeps a block of any length that was there. -/
theorem block_write_of_disjoint {m : ℕ} {c : Block m} (h : f.block off' m = some c)
    (hd : off' + m ≤ off ∨ off + n ≤ off') : (f.write off b).block off' m = some c := by
  obtain ⟨hle, hb⟩ := block_eq_some_iff.mp h
  refine block_eq_some_iff.mpr ⟨le_trans hle (le_max_left _ _), ?_⟩
  intro i
  rw [write_byte_outside (by omega) (by omega)]
  exact hb i

/-- A write elsewhere keeps a block that was there. -/
theorem block_write_disjoint (h : f.block off' n = some b')
    (hd : off' + n ≤ off ∨ off + n ≤ off') : (f.write off b).block off' n = some b' := by
  obtain ⟨hle, hb⟩ := block_eq_some_iff.mp h
  refine block_eq_some_iff.mpr ⟨le_trans hle (le_max_left _ _), ?_⟩
  intro i
  rw [write_byte_outside (by omega) (by omega)]
  exact hb i

/-- The byte at `off`, if the file reaches that far. -/
def get? (f : ByteFile) (off : ℕ) : Option UInt8 :=
  if off < f.size then some (f.byte off) else none

theorem get?_eq_some_iff {x : UInt8} : f.get? off = some x ↔ off < f.size ∧ f.byte off = x := by
  unfold get?
  split <;> simp_all

theorem size_le_of_get? {g : ByteFile} (h : ∀ i, f.get? i = g.get? i) : g.size ≤ f.size := by
  by_contra hlt
  have hg : g.get? f.size = some (g.byte f.size) :=
    get?_eq_some_iff.mpr ⟨not_le.mp hlt, rfl⟩
  have hf := (get?_eq_some_iff.mp ((h f.size).trans hg)).1
  omega

/-- Files with the same bytes have the same blocks. -/
theorem block_congr {g : ByteFile} (h : ∀ i, f.get? i = g.get? i) :
    f.block off n = g.block off n := by
  have hsize : f.size = g.size :=
    le_antisymm (size_le_of_get? fun i => (h i).symm) (size_le_of_get? h)
  unfold block
  rw [hsize]
  split
  · next hle =>
    congr 1
    funext i
    have hg : g.get? (off + i.val) = some (g.byte (off + i.val)) :=
      get?_eq_some_iff.mpr ⟨by omega, rfl⟩
    exact (get?_eq_some_iff.mp ((h _).trans hg)).2
  · rfl

theorem get?_of_block (h : f.block 0 n = some b) (i : Fin n) : f.get? i.val = some (b i) := by
  obtain ⟨hle, hb⟩ := block_eq_some_iff.mp h
  refine get?_eq_some_iff.mpr ⟨by omega, ?_⟩
  simpa using hb i

theorem block_of_get? (hn : 0 < n) (h : ∀ i : Fin n, f.get? i.val = some (b i)) :
    f.block 0 n = some b := by
  have hlast := (get?_eq_some_iff.mp (h ⟨n - 1, by omega⟩)).1
  dsimp only at hlast
  refine block_eq_some_iff.mpr ⟨by omega, ?_⟩
  intro i
  simpa using (get?_eq_some_iff.mp (h i)).2

/-- Blocks written over each other leave the last one, and the rest of the file alone. -/
theorem foldl_write {ι : Type*} (data : ι → Block n) (l : List ι) (f : ByteFile) :
    f.size ≤ (l.foldl (fun f i => f.write off (data i)) f).size ∧
      (l.foldl (fun f i => f.write off (data i)) f).size ≤ max f.size (off + n) ∧
      (∀ i, i < f.size → i < off ∨ off + n ≤ i →
        (l.foldl (fun f i => f.write off (data i)) f).byte i = f.byte i) ∧
      ∀ j, l.getLast? = some j →
        (l.foldl (fun f i => f.write off (data i)) f).block off n = some (data j) := by
  induction l using List.reverseRecOn with
  | nil => simp
  | append_singleton l a ih =>
    obtain ⟨hle, hub, hbyte, -⟩ := ih
    rw [List.foldl_append, List.foldl_cons, List.foldl_nil]
    refine ⟨le_trans hle (le_max_left _ _), max_le hub (le_max_right _ _), ?_, ?_⟩
    · intro i hi ho
      rw [write_byte_outside (by omega) ho, hbyte i hi ho]
    · intro j hj
      rw [List.getLast?_concat] at hj
      obtain rfl := Option.some.inj hj
      exact block_write_same

/-- Blocks written over the start of a file change no byte of it exactly when the last of them was
there before. -/
theorem foldl_write_zero_same {ι : Type*} (hn : 0 < n) (data : ι → Block n) (l : List ι)
    (f : ByteFile) :
    (∀ i, n ≤ i → (l.foldl (fun f i => f.write 0 (data i)) f).get? i = f.get? i) ∧
      ((∀ i < n, (l.foldl (fun f i => f.write 0 (data i)) f).get? i = f.get? i) ↔
        ∀ j, l.getLast? = some j → f.block 0 n = some (data j)) := by
  obtain ⟨hle, hub, hbyte, hlast⟩ := @foldl_write n 0 _ data l f
  refine ⟨?_, ?_, ?_⟩
  · intro i hi
    unfold get?
    by_cases hs : i < f.size
    · rw [if_pos hs, if_pos (by omega), hbyte i hs (by omega)]
    · rw [if_neg hs, if_neg (by omega)]
  · intro h j hj
    have hb := hlast j hj
    apply block_of_get? hn
    intro i
    rw [← h i i.isLt]
    exact get?_of_block hb i
  · intro h i hi
    cases hj : l.getLast? with
    | none =>
      obtain rfl := List.getLast?_eq_none_iff.mp hj
      rfl
    | some j =>
      rw [get?_of_block (hlast j hj) ⟨i, hi⟩, get?_of_block (h j hj) ⟨i, hi⟩]

end ByteFile
