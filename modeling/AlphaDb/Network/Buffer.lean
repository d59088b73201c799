import Mathlib

/-! The ring buffer of a connection (`network/buffer`). Operations return nothing where the source
leaves its array. -/
namespace AlphaDb.Network

/-- Bytes are put at `head` and taken at `tail`; cells from `maxSize` on do not exist. -/
structure Buffer where
  buf : ℕ → UInt8
  full : Bool
  head : ℕ
  tail : ℕ
  maxSize : ℕ

def defaultBufferSize : ℕ := 0xFFFF

namespace Buffer

def empty (b : Buffer) : Bool := !b.full && b.head == b.tail

def size (b : Buffer) : ℕ :=
  if b.full then b.maxSize
  else if b.tail ≤ b.head then b.head - b.tail
  else b.maxSize - (b.tail - b.head)

/-- The memory from `get_begin` to the end of the array. -/
def getBegin (b : Buffer) : List UInt8 := (List.range' b.tail (b.maxSize - b.tail)).map b.buf

/-- `put` of one character. -/
def put (b : Buffer) (c : UInt8) : Option Buffer :=
  if b.head < b.maxSize then
    let tail := if b.full then (b.tail + 1) % b.maxSize else b.tail
    let head := (b.head + 1) % b.maxSize
    some { b with buf := Function.update b.buf b.head c, tail, head, full := head == tail }
  else none

/-- `put` of `len` characters. It copies them without wrapping around, and leaves `full_`. -/
def putBytes (b : Buffer) (s : List UInt8) (len : ℕ) : Option Buffer :=
  if len ≤ s.length ∧ b.head + len ≤ b.maxSize then
    some { b with
      buf := fun i => if b.head ≤ i ∧ i < b.head + len then s.getD (i - b.head) 0 else b.buf i
      head := (b.head + len) % b.maxSize }
  else none

/-- `get` of one character. -/
def get (b : Buffer) : Option (UInt8 × Buffer) :=
  if b.empty then some (0, b)
  else if b.tail < b.maxSize then
    some (b.buf b.tail, { b with full := false, tail := (b.tail + 1) % b.maxSize })
  else none

/-- `get` of `len` characters into the array `s`, which stays as it is if there are fewer. -/
def getBytes (b : Buffer) (s : List UInt8) (len : ℕ) : Option (List UInt8 × Buffer) :=
  if b.size < len then some (s, b)
  else if len ≤ s.length ∧ b.tail + len ≤ b.maxSize then
    some ((List.range' b.tail len).map b.buf ++ s.drop len,
      { b with full := false, tail := (b.tail + len) % b.maxSize })
  else none

/-- The subtraction is one of 64 bits without sign, and wraps around before the remainder. -/
def unget (b : Buffer) (s : ℕ) : Buffer :=
  if b.full ∨ b.size < s then b
  else { b with tail := ((b.tail + 2 ^ 64 - s) % 2 ^ 64) % b.maxSize }

def reset (b : Buffer) : Buffer := { b with head := b.tail, full := false }

/-- `advance_put`; like `advance_get` it leaves `full_`. -/
def advancePut (b : Buffer) (s : ℕ) : Buffer := { b with head := (b.head + s) % b.maxSize }

def advanceGet (b : Buffer) (s : ℕ) : Buffer := { b with tail := (b.tail + s) % b.maxSize }

/-- The bytes that have been put and not yet taken, the oldest first. -/
def contents (b : Buffer) : List UInt8 :=
  (List.range b.size).map fun i => b.buf ((b.tail + i) % b.maxSize)

/-- Both positions are in the array, and in a full buffer they are the same. -/
structure Valid (b : Buffer) : Prop where
  head : b.head < b.maxSize
  tail : b.tail < b.maxSize
  full : b.full = true → b.head = b.tail

variable {b b' : Buffer} {c : UInt8} {s s' : List UInt8} {len : ℕ}

@[simp] theorem length_contents (b : Buffer) : b.contents.length = b.size := by
  simp [contents]

theorem full_of_empty (h : b.empty = true) : b.full = false := by
  simp only [empty, Bool.and_eq_true, Bool.not_eq_true'] at h
  exact h.1

theorem size_of_empty (h : b.empty = true) : b.size = 0 := by
  simp only [empty, Bool.and_eq_true, Bool.not_eq_true', beq_iff_eq] at h
  simp [size, h.1, h.2]

theorem getBytes_cases (h : b.getBytes s len = some (s', b')) :
    (b.size < len ∧ b' = b) ∨
      b' = { b with full := false, tail := (b.tail + len) % b.maxSize } := by
  unfold getBytes at h
  split at h
  · next hlt =>
    obtain ⟨-, rfl⟩ := Prod.mk.inj (Option.some.inj h)
    exact Or.inl ⟨hlt, rfl⟩
  · split at h
    · obtain ⟨-, rfl⟩ := Prod.mk.inj (Option.some.inj h)
      exact Or.inr rfl
    · simp at h

theorem get_cases (h : b.get = some (c, b')) :
    (b.empty = true ∧ b' = b) ∨
      b' = { b with full := false, tail := (b.tail + 1) % b.maxSize } := by
  unfold get at h
  split at h
  · next he =>
    obtain ⟨-, rfl⟩ := Prod.mk.inj (Option.some.inj h)
    exact Or.inl ⟨he, rfl⟩
  · split at h
    · obtain ⟨-, rfl⟩ := Prod.mk.inj (Option.some.inj h)
      exact Or.inr rfl
    · simp at h

theorem put_eq_some (hfull : b.full = false) (h : b.put c = some b') :
    b'.full = ((b.head + 1) % b.maxSize == b.tail) ∧ b'.head = (b.head + 1) % b.maxSize ∧
      b'.tail = b.tail ∧ b'.maxSize = b.maxSize := by
  unfold put at h
  split at h
  · obtain rfl := Option.some.inj h
    simp [hfull]
  · simp at h

theorem putBytes_eq_some (h : b.putBytes s len = some b') :
    len ≤ s.length ∧ b'.full = b.full ∧ b'.head = (b.head + len) % b.maxSize ∧
      b'.tail = b.tail ∧ b'.maxSize = b.maxSize := by
  unfold putBytes at h
  split at h
  · next hle =>
    obtain rfl := Option.some.inj h
    exact ⟨hle.1, rfl, rfl, rfl, rfl⟩
  · simp at h

end Buffer

end AlphaDb.Network
