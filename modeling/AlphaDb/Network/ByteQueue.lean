import AlphaDb.Lib.Ring
import AlphaDb.Network.Buffer

/-! The ring buffer, byte by byte, is a bounded queue that drops its oldest byte when full. -/
namespace AlphaDb.Network

inductive BufferCall
  | put (c : UInt8)
  | get
  | reset
  deriving DecidableEq

/-- A queue of at most `n` bytes, the oldest first. -/
abbrev ByteQueue := List UInt8

namespace ByteQueue

def put (n : ℕ) (q : ByteQueue) (c : UInt8) : ByteQueue :=
  if q.length = n then q.tail ++ [c] else q ++ [c]

/-- The queue after a call, and the byte that a `get` returns. -/
def call (n : ℕ) (q : ByteQueue) : BufferCall → ByteQueue × List UInt8
  | .put c => (put n q c, [])
  | .get => (q.tail, [q.headD 0])
  | .reset => ([], [])

/-- The queue after some calls, and the bytes that the `get`s return. -/
def run (n : ℕ) : ByteQueue → List BufferCall → ByteQueue × List UInt8
  | q, [] => (q, [])
  | q, c :: calls =>
    let x := call n q c
    let y := run n x.1 calls
    (y.1, x.2 ++ y.2)

end ByteQueue

namespace Buffer

variable {b : Buffer} {c : UInt8} {q : ByteQueue}

/-- The same calls on a buffer. -/
def call (b : Buffer) : BufferCall → Option (Buffer × List UInt8)
  | .put c => (b.put c).map fun b => (b, [])
  | .get => b.get.map fun x => (x.2, [x.1])
  | .reset => some (b.reset, [])

def run : Buffer → List BufferCall → Option (Buffer × List UInt8)
  | b, [] => some (b, [])
  | b, c :: calls =>
    (b.call c).bind fun x => (run x.1 calls).map fun y => (y.1, x.2 ++ y.2)

/-- A buffer of capacity `n` holds a queue: its bytes are the queue's, and its observers report
the queue's length, emptiness and fullness. -/
structure Represents (n : ℕ) (b : Buffer) (q : ByteQueue) : Prop extends Valid b where
  capacity : b.maxSize = n
  contents : b.contents = q
  size : b.size = q.length
  empty : b.empty = true ↔ q = []
  isFull : b.full = true ↔ q.length = n

theorem contents_eq_window (b : Buffer) : b.contents = Ring.window b.buf b.maxSize b.tail b.size :=
  rfl

/-- The head is one size after the tail. -/
theorem Valid.head_eq (h : b.Valid) : b.head = (b.tail + b.size) % b.maxSize := by
  have hhead := h.head
  have htail := h.tail
  unfold Buffer.size
  split
  · next hf => rw [Nat.add_mod_right, Nat.mod_eq_of_lt htail, h.full hf]
  · split
    · rw [Nat.add_sub_cancel' (by assumption), Nat.mod_eq_of_lt hhead]
    · have heq : b.tail + (b.maxSize - (b.tail - b.head)) = b.head + b.maxSize := by omega
      rw [heq, Nat.add_mod_right, Nat.mod_eq_of_lt hhead]

/-- Less than the capacity is in a buffer that is not full. -/
theorem Valid.size_lt (h : b.Valid) (hf : b.full = false) : b.size < b.maxSize := by
  have hhead := h.head
  have htail := h.tail
  simp only [Buffer.size, hf, Bool.false_eq_true, if_false]
  split <;> omega

theorem size_of_full (h : b.full = true) : b.size = b.maxSize := by
  simp [Buffer.size, h]

theorem Valid.size_le (h : b.Valid) : b.size ≤ b.maxSize := by
  cases hf : b.full with
  | true => exact (size_of_full hf).le
  | false => exact (h.size_lt hf).le

/-- A valid buffer holds its contents as a queue. -/
theorem Valid.represents (h : b.Valid) : Represents b.maxSize b b.contents := by
  refine ⟨h, rfl, rfl, by simp, ?_, ?_⟩
  · rw [← List.length_eq_zero_iff, length_contents]
    constructor
    · exact size_of_empty
    · intro hsize
      cases hf : b.full with
      | true =>
        have := size_of_full hf
        have := h.tail
        omega
      | false =>
        have hhead := h.head_eq
        rw [hsize, Nat.add_zero, Nat.mod_eq_of_lt h.tail] at hhead
        simp [Buffer.empty, hf, hhead]
  · rw [length_contents]
    constructor
    · exact size_of_full
    · intro hsize
      cases hf : b.full with
      | true => rfl
      | false =>
        have := h.size_lt hf
        omega

/-- The size from the positions, in a valid buffer whose two positions are `k` apart. -/
theorem size_eq_of_head {k : ℕ} (h : b.Valid) (hf : b.full = false) (hk : k < b.maxSize)
    (hhead : b.head = (b.tail + k) % b.maxSize) : b.size = k := by
  have heq := h.head_eq
  rw [hhead] at heq
  have hmod : k ≡ b.size [MOD b.maxSize] := Nat.ModEq.add_left_cancel' b.tail heq
  exact (Nat.ModEq.eq_of_lt_of_lt hmod hk (h.size_lt hf)).symm

theorem put_full (h : b.Valid) (hf : b.full = true) (c : UInt8) :
    ∃ b', b.put c = some b' ∧ b'.Valid ∧ b'.maxSize = b.maxSize ∧
      b'.contents = b.contents.tail ++ [c] := by
  have hn : 0 < b.maxSize := Nat.zero_lt_of_lt h.tail
  refine ⟨{ b with
    buf := Function.update b.buf b.tail c
    tail := (b.tail + 1) % b.maxSize
    head := (b.tail + 1) % b.maxSize
    full := true }, ?_, ⟨Nat.mod_lt _ hn, Nat.mod_lt _ hn, fun _ => rfl⟩, rfl, ?_⟩
  · simp [put, hf, h.full hf, h.tail]
  · rw [contents_eq_window, contents_eq_window, size_of_full rfl, size_of_full hf]
    exact Ring.window_push_full h.tail

theorem put_not_full (h : b.Valid) (hf : b.full = false) (c : UInt8) :
    ∃ b', b.put c = some b' ∧ b'.Valid ∧ b'.maxSize = b.maxSize ∧
      b'.contents = b.contents ++ [c] := by
  have hn : 0 < b.maxSize := Nat.zero_lt_of_lt h.tail
  have hk := h.size_lt hf
  have hhead : (b.head + 1) % b.maxSize = (b.tail + (b.size + 1)) % b.maxSize := by
    rw [h.head_eq, Nat.mod_add_mod, Nat.add_assoc]
  obtain ⟨b', hb'⟩ : ∃ b', b' = { b with
      buf := Function.update b.buf b.head c
      head := (b.head + 1) % b.maxSize
      full := (b.head + 1) % b.maxSize == b.tail } := ⟨_, rfl⟩
  have hvalid : b'.Valid := by
    rw [hb']
    exact ⟨Nat.mod_lt _ hn, h.tail, fun heq => by simpa using heq⟩
  -- the buffer is full just when the last free cell has been used
  have hsize : b'.size = b.size + 1 := by
    by_cases hlast : b.size + 1 = b.maxSize
    · have hfull : b'.full = true := by
        rw [hb']
        simp [hhead, hlast, Nat.mod_eq_of_lt h.tail]
      rw [size_of_full hfull, hb']
      exact hlast.symm
    · have hne : (b.tail + 0) % b.maxSize ≠ (b.tail + (b.size + 1)) % b.maxSize :=
        Ring.offset_ne (by omega) (by omega)
      have hfull : b'.full = false := by
        rw [hb']
        rw [Nat.add_zero, Nat.mod_eq_of_lt h.tail] at hne
        simpa [hhead] using hne.symm
      refine size_eq_of_head hvalid hfull ?_ ?_
      · rw [hb']
        dsimp only
        omega
      · rw [hb']
        exact hhead
  refine ⟨b', ?_, hvalid, by rw [hb'], ?_⟩
  · rw [hb']
    simp [put, hf, h.head]
  · rw [contents_eq_window, contents_eq_window, hsize, hb']
    dsimp only
    rw [h.head_eq]
    exact Ring.window_push hk

theorem put_represents (h : b.Valid) (c : UInt8) :
    ∃ b', b.put c = some b' ∧ b'.Valid ∧ b'.maxSize = b.maxSize ∧
      b'.contents = ByteQueue.put b.maxSize b.contents c := by
  unfold ByteQueue.put
  rw [length_contents]
  cases hf : b.full with
  | true =>
    rw [if_pos (size_of_full hf)]
    exact put_full h hf c
  | false =>
    rw [if_neg (h.size_lt hf).ne]
    exact put_not_full h hf c

theorem get_represents (h : b.Valid) :
    ∃ b', b.get = some (b.contents.headD 0, b') ∧ b'.Valid ∧ b'.maxSize = b.maxSize ∧
      b'.contents = b.contents.tail := by
  have hn : 0 < b.maxSize := Nat.zero_lt_of_lt h.tail
  unfold get
  cases he : b.empty with
  | true =>
    have hnil := h.represents.empty.mp he
    refine ⟨b, ?_, h, rfl, ?_⟩
    · simp [hnil]
    · simp [hnil]
  | false =>
    obtain ⟨k, hk⟩ : ∃ k, b.size = k + 1 := by
      have hne : b.contents ≠ [] := fun hnil => by
        simp [h.represents.empty.mpr hnil] at he
      have := List.length_pos_of_ne_nil hne
      rw [length_contents] at this
      exact ⟨b.size - 1, by omega⟩
    have hle : k + 1 ≤ b.maxSize := hk ▸ h.size_le
    have hcontents : b.contents =
        b.buf b.tail :: Ring.window b.buf b.maxSize ((b.tail + 1) % b.maxSize) k := by
      rw [contents_eq_window, hk, Ring.window_succ _ h.tail]
    obtain ⟨b', hb'⟩ : ∃ b', b' = { b with
        full := false
        tail := (b.tail + 1) % b.maxSize } := ⟨_, rfl⟩
    have hvalid : b'.Valid := by
      rw [hb']
      exact ⟨h.head, Nat.mod_lt _ hn, by simp⟩
    have hsize : b'.size = k := by
      refine size_eq_of_head hvalid (by rw [hb']) ?_ ?_
      · rw [hb']
        exact hle
      · rw [hb']
        dsimp only
        rw [h.head_eq, hk, Nat.mod_add_mod, Nat.add_assoc, Nat.add_comm 1 k]
    refine ⟨b', ?_, hvalid, by rw [hb'], ?_⟩
    · rw [hb', hcontents]
      simp [h.tail]
    · rw [hcontents, contents_eq_window, hsize, hb']
      rfl

theorem reset_represents (h : b.Valid) :
    b.reset.Valid ∧ b.reset.maxSize = b.maxSize ∧ b.reset.contents = [] := by
  have hvalid : b.reset.Valid := ⟨h.tail, h.tail, fun _ => rfl⟩
  exact ⟨hvalid, rfl, hvalid.represents.empty.mp (by simp [reset, Buffer.empty])⟩

/-- One call on a buffer does what it does on the queue. -/
theorem call_represents (h : b.Valid) (c : BufferCall) :
    ∃ b', b.call c = some (b', (ByteQueue.call b.maxSize b.contents c).2) ∧ b'.Valid ∧
      b'.maxSize = b.maxSize ∧ b'.contents = (ByteQueue.call b.maxSize b.contents c).1 := by
  cases c with
  | put c =>
    obtain ⟨b', hput, hb'⟩ := put_represents h c
    exact ⟨b', by simp [call, hput, ByteQueue.call], hb'⟩
  | get =>
    obtain ⟨b', hget, hb'⟩ := get_represents h
    exact ⟨b', by simp [call, hget, ByteQueue.call], hb'⟩
  | reset => exact ⟨b.reset, rfl, reset_represents h⟩

/-- Any calls on a valid buffer return what they return on the queue, and leave a buffer that
holds what is left in the queue. -/
theorem run_represents (h : b.Valid) (calls : List BufferCall) :
    ∃ b', b.run calls = some (b', (ByteQueue.run b.maxSize b.contents calls).2) ∧
      Represents b.maxSize b' (ByteQueue.run b.maxSize b.contents calls).1 := by
  induction calls generalizing b with
  | nil => exact ⟨b, rfl, h.represents⟩
  | cons c calls ih =>
    obtain ⟨b₁, hcall, hvalid, hmax, hcontents⟩ := call_represents h c
    obtain ⟨b', hrun, hb'⟩ := ih hvalid
    rw [hmax, hcontents] at hrun hb'
    exact ⟨b', by simp [run, hcall, hrun, ByteQueue.run], hb'⟩

/-- An empty buffer of any capacity, under any calls, is a bounded queue. -/
theorem run_bounded_queue {n : ℕ} (h : b.Valid) (hn : b.maxSize = n) (he : b.empty = true)
    (calls : List BufferCall) :
    ∃ b', b.run calls = some (b', (ByteQueue.run n [] calls).2) ∧
      Represents n b' (ByteQueue.run n [] calls).1 := by
  have hrun := run_represents h calls
  rwa [hn, h.represents.empty.mp he] at hrun

/-- Three bytes into a buffer of two that starts at its last cell. -/
theorem run_bounded_queue_two :
    ∃ b', run ⟨fun _ => 0, false, 1, 1, 2⟩ [.put 7, .put 8, .put 9, .get, .get, .get] =
        some (b', [8, 9, 0]) ∧ Represents 2 b' [] :=
  run_bounded_queue ⟨by decide, by decide, by decide⟩ rfl rfl
    [.put 7, .put 8, .put 9, .get, .get, .get]

end Buffer

end AlphaDb.Network
