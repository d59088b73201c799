import AlphaDb.Lib.ByteFile

/-! 32-bit two's complement integers stored little-endian in a block. -/
namespace Block

variable {n : ℕ} {b : Block n} {off : ℕ} {v : ℤ}

/-- The values an `int` takes. -/
def IsInt32 (v : ℤ) : Prop := -2 ^ 31 ≤ v ∧ v < 2 ^ 31

instance : Decidable (IsInt32 v) := inferInstanceAs (Decidable (_ ∧ _))

/-- Byte `i` of a block that is `0` past its end. -/
def byteAt (b : Block n) (i : ℕ) : ℕ := if h : i < n then (b ⟨i, h⟩).toNat else 0

/-- The `int` at `off`. -/
def getInt32 (b : Block n) (off : ℕ) : ℤ :=
  let u := b.byteAt off + 256 * (b.byteAt (off + 1) + 256 * (b.byteAt (off + 2) +
    256 * b.byteAt (off + 3)))
  if u < 2 ^ 31 then u else u - 2 ^ 32

/-- Byte `i` of the representation of `v`. -/
def int32Byte (v : ℤ) (i : ℕ) : UInt8 := UInt8.ofNat ((v % 2 ^ 32).toNat / 256 ^ i)

/-- Store an `int` at `off`. -/
def putInt32 (b : Block n) (off : ℕ) (v : ℤ) : Block n := fun i =>
  if off ≤ i.val ∧ i.val < off + 4 then int32Byte v (i.val - off) else b i

theorem byteAt_putInt32_inside {i : ℕ} (hi : i < 4) (hn : off + 4 ≤ n) :
    (b.putInt32 off v).byteAt (off + i) = (v % 2 ^ 32).toNat / 256 ^ i % 256 := by
  have : off + i < n := by omega
  simp [byteAt, putInt32, int32Byte, this, hi]

theorem getInt32_congr {b' : Block n} (h : ∀ i < 4, b'.byteAt (off + i) = b.byteAt (off + i)) :
    b'.getInt32 off = b.getInt32 off := by
  have h0 := h 0 (by decide)
  have h1 := h 1 (by decide)
  have h2 := h 2 (by decide)
  have h3 := h 3 (by decide)
  simp only [add_zero] at h0
  simp only [getInt32, h0, h1, h2, h3]

theorem getInt32_putInt32 (hn : off + 4 ≤ n) (hv : IsInt32 v) :
    (b.putInt32 off v).getInt32 off = v := by
  have h0 : (b.putInt32 off v).byteAt off = (v % 2 ^ 32).toNat % 256 := by
    have h := byteAt_putInt32_inside (b := b) (v := v) (by decide : 0 < 4) hn
    simpa using h
  have h1 := byteAt_putInt32_inside (b := b) (v := v) (by decide : 1 < 4) hn
  have h2 := byteAt_putInt32_inside (b := b) (v := v) (by decide : 2 < 4) hn
  have h3 := byteAt_putInt32_inside (b := b) (v := v) (by decide : 3 < 4) hn
  obtain ⟨hlo, hhi⟩ := hv
  simp only [getInt32, h0, h1, h2, h3]
  generalize hu : (v % 2 ^ 32).toNat = u
  split <;> omega

/-- Bytes from `off + 4` on are not part of the `int` at `off`. -/
theorem getInt32_update (x : UInt8) (i : Fin n) (hi : off + 4 ≤ i.val) :
    Block.getInt32 (Function.update b i x) off = b.getInt32 off := by
  apply getInt32_congr
  intro j hj
  unfold byteAt
  split
  · next h =>
    have : (⟨off + j, h⟩ : Fin n) ≠ i := by
      intro he
      rw [← he] at hi
      dsimp only at hi
      omega
    rw [Function.update_of_ne this]
  · rfl

end Block
