import AlphaDb.Lib.BlockInt

/-! Byte ranges of a block: reading, copying into and moving within. Positions are integers, and a
range that leaves the block gives nothing. -/
namespace Block

variable {n : ℕ} {b b' : Block n} {pos pos' dest src len : ℤ}

/-- The range of `len` bytes at `pos` lies in a block of `n` bytes. -/
def InRange (n : ℕ) (pos len : ℤ) : Prop := 0 ≤ pos ∧ 0 ≤ len ∧ pos + len ≤ n

instance (n : ℕ) (pos len : ℤ) : Decidable (InRange n pos len) :=
  inferInstanceAs (Decidable (_ ∧ _))

/-- The unsigned 16-bit number at `pos`. -/
def getUInt16 (b : Block n) (pos : ℤ) : Option ℤ :=
  if InRange n pos 2 then some (b.byteAt pos.toNat + 256 * b.byteAt (pos.toNat + 1)) else none

def bytes (b : Block n) (pos len : ℤ) : Option (List UInt8) :=
  if InRange n pos len then
    some ((List.range len.toNat).map fun i => UInt8.ofNat (b.byteAt (pos.toNat + i)))
  else none

def copyIn (b : Block n) (pos : ℤ) (a : List UInt8) : Option (Block n) :=
  if InRange n pos a.length then
    some fun i => if pos ≤ i ∧ i < pos + a.length then a.getD (i - pos).toNat 0 else b i
  else none

/-- `memmove`: the ranges may overlap. -/
def move (b : Block n) (dest src len : ℤ) : Option (Block n) :=
  (b.bytes src len).bind (b.copyIn dest)

/-- The block of `k` bytes at `pos`; it is `0` past the end. -/
def sub (b : Block n) (pos k : ℕ) : Block k := fun i => UInt8.ofNat (b.byteAt (pos + i))

theorem move_eq_none_of_neg {dest src len : ℤ} (h : len < 0) : b.move dest src len = none := by
  have : ¬ InRange n src len := fun hr => absurd hr.2.1 (not_le.mpr h)
  simp [move, bytes, this]

theorem byteAt_lt (i : ℕ) : b.byteAt i < 256 := by
  unfold byteAt
  split
  · exact UInt8.toNat_lt _
  · decide

theorem ofNat_byteAt_inj {i j : ℕ} :
    UInt8.ofNat (b.byteAt i) = UInt8.ofNat (b'.byteAt j) ↔ b.byteAt i = b'.byteAt j := by
  constructor
  · intro h
    have hnat := congrArg UInt8.toNat h
    simpa [UInt8.toNat_ofNat', Nat.mod_eq_of_lt (byteAt_lt _)] using hnat
  · intro h
    rw [h]

theorem sub_eq_sub_iff {i j k : ℕ} :
    b.sub i k = b'.sub j k ↔ ∀ x < k, b.byteAt (i + x) = b'.byteAt (j + x) := by
  simp only [sub, funext_iff, ofNat_byteAt_inj]
  constructor
  · intro h x hx
    exact h ⟨x, hx⟩
  · intro h x
    exact h x x.isLt

theorem bytes_eq_some {a : List UInt8} : b.bytes pos len = some a ↔
    InRange n pos len ∧
      (List.range len.toNat).map (fun i => UInt8.ofNat (b.byteAt (pos.toNat + i))) = a := by
  unfold bytes
  split
  · next h => simp [h]
  · next h => simp [h]

theorem bytes_eq_bytes_iff (h : InRange n pos' len) : b.bytes pos len = b'.bytes pos' len ↔
    InRange n pos len ∧
      ∀ i < len.toNat, b.byteAt (pos.toNat + i) = b'.byteAt (pos'.toNat + i) := by
  have hright : b'.bytes pos' len = some _ := bytes_eq_some.mpr ⟨h, rfl⟩
  rw [hright, bytes_eq_some]
  refine and_congr_right fun _ => ?_
  rw [List.map_inj_left]
  simp only [List.mem_range, ofNat_byteAt_inj]

theorem length_of_bytes {a : List UInt8} (h : b.bytes pos len = some a) :
    (a.length : ℤ) = len := by
  obtain ⟨hin, rfl⟩ := bytes_eq_some.mp h
  have hlen := hin.2.1
  rw [List.length_map, List.length_range]
  omega

theorem getD_of_bytes {a : List UInt8} {i : ℕ} (h : b.bytes pos len = some a) (hi : i < len) :
    a.getD i 0 = UInt8.ofNat (b.byteAt (pos.toNat + i)) := by
  obtain ⟨-, rfl⟩ := bytes_eq_some.mp h
  have hi' : i < len.toNat := by omega
  rw [List.getD_eq_getElem?_getD, List.getElem?_map, List.getElem?_range hi']
  rfl

theorem sub_of_bytes {a : List UInt8} {k : ℕ} (h : b.bytes pos k = some a) :
    (fun i : Fin k => a.getD i 0) = b.sub pos.toNat k := by
  funext i
  exact getD_of_bytes h (by exact_mod_cast i.isLt)

theorem copyIn_eq_some {a : List UInt8} (h : b.copyIn dest a = some b') :
    InRange n dest a.length ∧ ∀ x : ℕ, b'.byteAt x =
      if dest ≤ x ∧ x < dest + a.length then (a.getD (x - dest).toNat 0).toNat
      else b.byteAt x := by
  unfold copyIn at h
  split at h
  · next hin =>
    obtain rfl := Option.some.inj h
    refine ⟨hin, ?_⟩
    intro x
    have hend := hin.2.2
    by_cases hx : dest ≤ x ∧ x < dest + a.length
    · have hn : x < n := by omega
      rw [if_pos hx, byteAt, dif_pos hn, if_pos hx]
    · rw [if_neg hx]
      unfold byteAt
      split
      · simp only [if_neg hx]
      · rfl
  · cases h

/-- The bytes at `dest` are those that lay at `src`, and the others stay. -/
theorem move_eq_some (h : b.move dest src len = some b') :
    (InRange n src len ∧ InRange n dest len) ∧ ∀ x : ℕ, b'.byteAt x =
      if dest ≤ x ∧ x < dest + len then b.byteAt (src + (x - dest)).toNat else b.byteAt x := by
  obtain ⟨a, ha, hcopy⟩ := Option.bind_eq_some_iff.mp h
  obtain ⟨hdest, hbyte⟩ := copyIn_eq_some hcopy
  have hsrc := (bytes_eq_some.mp ha).1
  rw [length_of_bytes ha] at hdest hbyte
  refine ⟨⟨hsrc, hdest⟩, ?_⟩
  intro x
  rw [hbyte x]
  split
  · next hx =>
    have hplace : src.toNat + (x - dest : ℤ).toNat = (src + (x - dest)).toNat := by
      have := hsrc.1
      omega
    rw [getD_of_bytes ha (by omega), hplace, UInt8.toNat_ofNat', Nat.mod_eq_of_lt (byteAt_lt _)]
  · rfl

theorem exists_move (hsrc : InRange n src len) (hdest : InRange n dest len) :
    ∃ b', b.move dest src len = some b' := by
  obtain ⟨a, ha⟩ : ∃ a, b.bytes src len = some a := ⟨_, bytes_eq_some.mpr ⟨hsrc, rfl⟩⟩
  rw [move, ha, Option.bind_some, copyIn, length_of_bytes ha, if_pos hdest]
  exact ⟨_, rfl⟩

end Block
