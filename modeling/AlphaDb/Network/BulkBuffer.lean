import AlphaDb.Lib.Trace
import AlphaDb.Network.ByteQueue

/-! The calls that move several bytes of a buffer at once, next to the same bytes moved one by one,
and the call that takes a read back (`network/buffer`). -/
namespace AlphaDb.Network

open Trace

/-- The calls that change a buffer. -/
inductive BufferOp
  | put (c : UInt8)
  | putBytes (s : List UInt8)
  | get
  | getBytes (len : ℕ)
  | unget (s : ℕ)
  | reset
  | advancePut (s : ℕ)
  | advanceGet (s : ℕ)
  deriving DecidableEq

namespace Buffer

variable {b b' : Buffer} {a : BufferOp} {c : UInt8} {s s' : List UInt8} {n len : ℕ}

def apply (b : Buffer) : BufferOp → Option Buffer
  | .put c => b.put c
  | .putBytes s => b.putBytes s s.length
  | .get => b.get.map Prod.snd
  | .getBytes len => (b.getBytes (List.replicate len 0) len).map Prod.snd
  | .unget s => some (b.unget s)
  | .reset => some b.reset
  | .advancePut s => some (b.advancePut s)
  | .advanceGet s => some (b.advanceGet s)

/-- What the constructor makes of memory for `n` bytes. -/
def new (memory : ℕ → UInt8) (n : ℕ) : Buffer := ⟨memory, false, 0, 0, n⟩

/-- Any calls have been made on a new buffer. The capacity is a `size_t`; where it is 0 every call
divides by it. -/
def Reachable (b : Buffer) : Prop :=
  ∃ memory n ops, 0 < n ∧ n < 2 ^ 64 ∧
    MTr (fun b a b' => b.apply a = some b') (new memory n) ops b

/-- Both positions are in the array. A buffer that was overfilled may be full and have two of them,
so this is less than `Valid`. -/
structure InArray (b : Buffer) : Prop where
  head : b.head < b.maxSize
  tail : b.tail < b.maxSize
  capacity : b.maxSize < 2 ^ 64

/-- Calls of `put` with one character after another. -/
def putEach (b : Buffer) : List UInt8 → Option Buffer
  | [] => some b
  | c :: s => (b.put c).bind fun b => putEach b s

/-- `n` calls of `get`, and what they return. -/
def getEach : ℕ → Buffer → Option (List UInt8 × Buffer)
  | 0, b => some ([], b)
  | n + 1, b => b.get.bind fun x => (getEach n x.2).map fun y => (x.1 :: y.1, y.2)

theorem inArray_new {memory : ℕ → UInt8} (hpos : 0 < n) (hn : n < 2 ^ 64) :
    (new memory n).InArray :=
  ⟨hpos, hpos, hn⟩

theorem inArray_apply (h : b.InArray) (hs : b.apply a = some b') : b'.InArray := by
  have hpos : 0 < b.maxSize := Nat.zero_lt_of_lt h.head
  have hmod : ∀ k, k % b.maxSize < b.maxSize := fun k => Nat.mod_lt k hpos
  cases a with
  | put c =>
    simp only [apply, put, if_pos h.head, Option.some.injEq] at hs
    subst hs
    refine ⟨hmod _, ?_, h.capacity⟩
    dsimp only
    split
    · exact hmod _
    · exact h.tail
  | putBytes s =>
    obtain ⟨-, -, hhead, htail, hmax⟩ := putBytes_eq_some hs
    refine ⟨?_, ?_, ?_⟩
    · rw [hhead, hmax]
      exact hmod _
    · rw [htail, hmax]
      exact h.tail
    · rw [hmax]
      exact h.capacity
  | get =>
    obtain ⟨⟨c, _⟩, hget, rfl⟩ := Option.map_eq_some_iff.mp hs
    obtain ⟨-, rfl⟩ | rfl := get_cases hget
    · exact h
    · exact ⟨h.head, hmod _, h.capacity⟩
  | getBytes len =>
    obtain ⟨⟨s, _⟩, hget, rfl⟩ := Option.map_eq_some_iff.mp hs
    obtain ⟨-, rfl⟩ | rfl := getBytes_cases hget
    · exact h
    · exact ⟨h.head, hmod _, h.capacity⟩
  | unget s =>
    obtain rfl := Option.some.inj hs
    unfold unget
    split
    · exact h
    · exact ⟨h.head, hmod _, h.capacity⟩
  | reset =>
    obtain rfl := Option.some.inj hs
    exact ⟨h.tail, h.tail, h.capacity⟩
  | advancePut s =>
    obtain rfl := Option.some.inj hs
    exact ⟨hmod _, h.tail, h.capacity⟩
  | advanceGet s =>
    obtain rfl := Option.some.inj hs
    exact ⟨h.head, hmod _, h.capacity⟩

theorem Reachable.inArray (h : b.Reachable) : b.InArray := by
  obtain ⟨memory, n, ops, hpos, hn, hrun⟩ := h
  exact mTr_trInv (fun _ _ _ hs hb => inArray_apply hb hs) hrun (inArray_new hpos hn)

theorem InArray.valid (h : b.InArray) (hf : b.full = false) : b.Valid :=
  ⟨h.head, h.tail, by simp [hf]⟩

section Put

theorem putEach_append (s s' : List UInt8) :
    b.putEach (s ++ s') = (b.putEach s).bind fun b => b.putEach s' := by
  induction s generalizing b with
  | nil => rfl
  | cons c s ih =>
    rw [List.cons_append, putEach, putEach, Option.bind_assoc]
    congr 1
    funext b
    exact ih

/-- Bytes for which there is room are put behind the others. -/
theorem putEach_represents (h : b.Valid) (hroom : b.size + s.length ≤ b.maxSize) :
    ∃ b', b.putEach s = some b' ∧ b'.Valid ∧ b'.maxSize = b.maxSize ∧
      b'.contents = b.contents ++ s := by
  induction s generalizing b with
  | nil => exact ⟨b, rfl, h, rfl, by simp⟩
  | cons c s ih =>
    rw [List.length_cons] at hroom
    have hf : b.full = false := by
      by_contra hfull
      have := size_of_full (Bool.eq_true_of_not_eq_false hfull)
      omega
    obtain ⟨b₁, hput, hvalid, hmax, hcontents⟩ := put_not_full h hf c
    have hsize : b₁.size = b.size + 1 := by
      rw [← length_contents, hcontents, List.length_append, length_contents, List.length_singleton]
    obtain ⟨b', heach, hvalid', hmax', hcontents'⟩ := ih hvalid (by omega)
    refine ⟨b', ?_, hvalid', hmax'.trans hmax, ?_⟩
    · rw [putEach, hput, Option.bind_some, heach]
    · rw [hcontents', hcontents, List.append_assoc, List.singleton_append]

theorem putBytes_nil (h : b.head < b.maxSize) : b.putBytes [] 0 = some b := by
  have hbuf : (fun i => if b.head ≤ i ∧ i < b.head + 0 then ([] : List UInt8).getD (i - b.head) 0
      else b.buf i) = b.buf := by
    funext i
    exact if_neg (by omega)
  rw [putBytes, if_pos ⟨le_rfl, h.le⟩, hbuf, Nat.add_zero, Nat.mod_eq_of_lt h]

/-- One more character behind those that were copied. -/
theorem putBytes_concat (h : b.Valid) (hf : b.full = false)
    (hfit : b.head + (s.length + 1) ≤ b.maxSize) (hroom : b.size + (s.length + 1) < b.maxSize) :
    (b.putBytes s s.length).bind (fun b => b.put c) = b.putBytes (s ++ [c]) (s.length + 1) := by
  -- the new head does not meet the tail
  have hne : (b.head + (s.length + 1)) % b.maxSize ≠ b.tail := by
    have hoff := Ring.offset_ne (t := b.tail) (by omega : 0 < b.size + (s.length + 1)) hroom
    rw [Nat.add_zero, Nat.mod_eq_of_lt h.tail, ← Nat.add_assoc, ← Nat.mod_add_mod, ← h.head_eq]
      at hoff
    exact hoff.symm
  have hlast : (b.head + s.length) % b.maxSize = b.head + s.length := Nat.mod_eq_of_lt (by omega)
  have hone : s.length + 1 ≤ (s ++ [c]).length ∧ b.head + (s.length + 1) ≤ b.maxSize :=
    ⟨by simp, hfit⟩
  rw [putBytes, if_pos ⟨le_rfl, by omega⟩, Option.bind_some, put,
    if_pos (show (b.head + s.length) % b.maxSize < b.maxSize by omega), putBytes, if_pos hone]
  simp only [hlast, hf, Bool.false_eq_true, if_false, Option.some.injEq, Buffer.mk.injEq, and_true,
    beq_eq_false_iff_ne]
  refine ⟨?_, hne, rfl⟩
  funext i
  by_cases hi : i = b.head + s.length
  · subst hi
    rw [Function.update_self, if_pos (by omega), Nat.add_sub_cancel_left]
    simp
  · rw [Function.update_of_ne hi]
    by_cases hold : b.head ≤ i ∧ i < b.head + s.length
    · rw [if_pos hold, if_pos (by omega), List.getD_append _ _ _ _ (by omega)]
    · rw [if_neg hold, if_neg (by omega)]

theorem putEach_eq_putBytes (h : b.Valid) (hf : b.full = false)
    (hfit : b.head + s.length ≤ b.maxSize) (hroom : b.size + s.length < b.maxSize) :
    b.putEach s = b.putBytes s s.length := by
  induction s using List.reverseRecOn with
  | nil => exact (putBytes_nil h.head).symm
  | append_singleton s c ih =>
    rw [List.length_append, List.length_singleton] at hfit hroom ⊢
    rw [← putBytes_concat h hf hfit hroom, putEach_append, ih (by omega) (by omega)]
    congr 1
    funext b
    exact Option.bind_fun_some _

/-- Bytes for which there is room are copied as `put` would put them one by one exactly if they do
not cross the end of the array and do not fill the buffer. -/
theorem putBytes_eq_putEach_iff (h : b.InArray) (hroom : s.length ≤ b.maxSize - b.size) :
    b.putBytes s s.length = b.putEach s ↔
      b.head + s.length ≤ b.maxSize ∧ (s = [] ∨ b.size + s.length < b.maxSize) := by
  cases hf : b.full with
  | true =>
    have hsize := size_of_full hf
    obtain rfl : s = [] := List.length_eq_zero_iff.mp (by omega)
    exact iff_of_true (putBytes_nil h.head) ⟨h.head.le, .inl rfl⟩
  | false =>
    have hvalid := h.valid hf
    have hlt := hvalid.size_lt hf
    constructor
    · intro heq
      obtain ⟨b', heach, hvalid', hmax, hcontents⟩ :=
        putEach_represents hvalid (s := s) (by omega)
      rw [heach] at heq
      obtain ⟨-, hfull, -⟩ := putBytes_eq_some heq
      have hfit : b.head + s.length ≤ b.maxSize := by
        unfold putBytes at heq
        split at heq
        · next hle => exact hle.2
        · cases heq
      refine ⟨hfit, .inr ?_⟩
      -- one by one, the last free cell makes the buffer full
      by_contra hge
      have hsize : b'.contents.length = b'.maxSize := by
        rw [hcontents, hmax, List.length_append, length_contents]
        omega
      have := hvalid'.represents.isFull.mpr hsize
      rw [hfull, hf] at this
      cases this
    · rintro ⟨hfit, hs⟩
      have hroom' : b.size + s.length < b.maxSize := by
        obtain rfl | hs := hs
        · exact hlt
        · exact hs
      exact (putEach_eq_putBytes hvalid hf hfit hroom').symm

end Put

section Get

/-- The first byte, where there is one, and the buffer behind it. -/
theorem get_of_size_pos (h : b.Valid) (hf : b.full = false) (hpos : 0 < b.size) :
    b.get = some (b.buf b.tail, { b with tail := (b.tail + 1) % b.maxSize }) := by
  have hne : b.empty = false := by
    by_contra he
    have := size_of_empty (Bool.eq_true_of_not_eq_false he)
    omega
  rw [get, if_neg (by simp [hne]), if_pos h.tail, ← hf]

/-- The buffer behind its first `k` bytes. -/
theorem size_advance {k : ℕ} (h : b.Valid) (hf : b.full = false) (hk : k ≤ b.size) :
    { b with tail := (b.tail + k) % b.maxSize }.Valid ∧
      { b with tail := (b.tail + k) % b.maxSize }.size = b.size - k := by
  have hlt := h.size_lt hf
  have hvalid : { b with tail := (b.tail + k) % b.maxSize }.Valid :=
    ⟨h.head, Nat.mod_lt _ (by omega), by simp [hf]⟩
  refine ⟨hvalid, size_eq_of_head hvalid hf (by dsimp only; omega) ?_⟩
  dsimp only
  rw [h.head_eq, Nat.mod_add_mod, Nat.add_assoc, Nat.add_sub_cancel' hk]

/-- Bytes that are taken one by one are the oldest ones, and zeros once there are no more. -/
theorem getEach_eq (h : b.Valid) (hf : b.full = false) (n : ℕ) :
    b.getEach n = some (Ring.window b.buf b.maxSize b.tail (min n b.size) ++
        List.replicate (n - b.size) 0,
      { b with tail := (b.tail + min n b.size) % b.maxSize }) := by
  induction n generalizing b with
  | zero => simp [getEach, Ring.window, Nat.mod_eq_of_lt h.tail]
  | succ n ih =>
    by_cases hpos : 0 < b.size
    · obtain ⟨hvalid, hsize⟩ := size_advance h hf (k := 1) hpos
      rw [getEach, get_of_size_pos h hf hpos, Option.bind_some, ih hvalid hf, hsize]
      have hmin : min (n + 1) b.size = min n (b.size - 1) + 1 := by omega
      have hsub : n + 1 - b.size = n - (b.size - 1) := by omega
      rw [hmin, hsub, Ring.window_succ _ h.tail, Option.map_some, Nat.mod_add_mod, Nat.add_assoc,
        Nat.add_comm 1]
      rfl
    · have hzero : b.size = 0 := by omega
      have hnil : b.contents = [] := List.length_eq_zero_iff.mp (by rw [length_contents, hzero])
      have hget : b.get = some (0, b) := if_pos (h.represents.empty.mpr hnil)
      rw [getEach, hget, Option.bind_some, ih h hf, hzero]
      simp [Ring.window, List.replicate_succ]

theorem getBytes_fits (hsize : len ≤ b.size) (hs : len ≤ s.length)
    (hfit : b.tail + len ≤ b.maxSize) :
    b.getBytes s len = some (Ring.window b.buf b.maxSize b.tail len ++ s.drop len,
      { b with full := false, tail := (b.tail + len) % b.maxSize }) := by
  rw [getBytes, if_neg (not_lt.mpr hsize), if_pos ⟨hs, hfit⟩, Ring.window_eq_range' hfit]

theorem getBytes_crosses (hsize : len ≤ b.size) (hfit : b.maxSize < b.tail + len) :
    b.getBytes s len = none := by
  rw [getBytes, if_neg (not_lt.mpr hsize), if_neg (by omega)]

/-- The first `get` of a full buffer. In one that was overfilled the bytes end at the head. -/
theorem getEach_full (h : b.InArray) (hf : b.full = true) (n : ℕ) :
    let k := (b.head + b.maxSize - (b.tail + 1)) % b.maxSize
    b.getEach (n + 1) = some (Ring.window b.buf b.maxSize b.tail (min n k + 1) ++
        List.replicate (n - k) 0,
      { b with full := false, tail := (b.tail + (min n k + 1)) % b.maxSize }) := by
  intro k
  have hhead := h.head
  have htail := h.tail
  have hpos : 0 < b.maxSize := by omega
  obtain ⟨b₁, hb₁⟩ : ∃ b₁, b₁ = { b with full := false, tail := (b.tail + 1) % b.maxSize } :=
    ⟨_, rfl⟩
  have hget : b.get = some (b.buf b.tail, b₁) := by
    rw [get, if_neg (by simp [Buffer.empty, hf]), if_pos htail, hb₁]
  have hvalid : b₁.Valid := by
    rw [hb₁]
    exact ⟨hhead, Nat.mod_lt _ hpos, by simp⟩
  have hfull : b₁.full = false := by rw [hb₁]
  have hsize : b₁.size = k := by
    apply size_eq_of_head hvalid hfull
    · rw [hb₁]
      exact Nat.mod_lt _ hpos
    · rw [hb₁]
      dsimp only
      rw [Nat.mod_add_mod, Nat.add_mod_mod,
        show b.tail + 1 + (b.head + b.maxSize - (b.tail + 1)) = b.head + b.maxSize by omega,
        Nat.add_mod_right, Nat.mod_eq_of_lt hhead]
  rw [getEach, hget, Option.bind_some, getEach_eq hvalid hfull, hsize, hb₁, Option.map_some]
  simp only [Option.some.injEq, Prod.mk.injEq, Buffer.mk.injEq, true_and, and_true]
  refine ⟨?_, ?_⟩
  · rw [Ring.window_succ _ htail]
    rfl
  · rw [Nat.mod_add_mod, Nat.add_assoc, Nat.add_comm 1]

theorem exists_getEach (h : b.InArray) (len : ℕ) : ∃ x, b.getEach len = some x := by
  cases hf : b.full with
  | false => exact ⟨_, getEach_eq (h.valid hf) hf len⟩
  | true =>
    cases len with
    | zero => exact ⟨_, rfl⟩
    | succ n => exact ⟨_, getEach_full h hf n⟩

/-- After the first `get` of a full buffer, at least `n` bytes are left. -/
theorem le_left_iff (h : b.InArray) {n : ℕ} (hfit : b.tail + (n + 1) ≤ b.maxSize) :
    n ≤ (b.head + b.maxSize - (b.tail + 1)) % b.maxSize ↔
      b.head ≤ b.tail ∨ b.tail + (n + 1) ≤ b.head := by
  have hhead := h.head
  have htail := h.tail
  by_cases hle : b.head ≤ b.tail
  · rw [Nat.mod_eq_of_lt (by omega)]
    omega
  · rw [show b.head + b.maxSize - (b.tail + 1) = b.head - (b.tail + 1) + b.maxSize by omega,
      Nat.add_mod_right, Nat.mod_eq_of_lt (by omega)]
    omega

theorem getBytes_full_iff (h : b.InArray) (hf : b.full = true) {n : ℕ}
    (hs : n + 1 ≤ s.length) (hfit : b.tail + (n + 1) ≤ b.maxSize) :
    b.getBytes s (n + 1) = (b.getEach (n + 1)).map (fun x => (x.1 ++ s.drop (n + 1), x.2)) ↔
      b.head ≤ b.tail ∨ b.tail + (n + 1) ≤ b.head := by
  have hsize : n + 1 ≤ b.size := by
    rw [size_of_full hf]
    omega
  rw [getBytes_fits hsize hs hfit, getEach_full h hf, Option.map_some, ← le_left_iff h hfit]
  have hhead := h.head
  generalize (b.head + b.maxSize - (b.tail + 1)) % b.maxSize = k
  by_cases hk : n ≤ k
  · rw [min_eq_left hk, Nat.sub_eq_zero_of_le hk]
    simp [hk]
  · refine iff_of_false ?_ hk
    rw [min_eq_right (not_le.mp hk).le, Option.some.injEq, Prod.mk.injEq]
    rintro ⟨-, heq⟩
    have hlast := congrArg Buffer.tail heq
    have hne : (b.tail + 1 + k) % b.maxSize ≠ (b.tail + 1 + n) % b.maxSize :=
      Ring.offset_ne (not_le.mp hk) (by omega)
    rw [Nat.add_assoc, Nat.add_assoc, Nat.add_comm 1, Nat.add_comm 1] at hne
    exact hne hlast.symm

/-- Bytes that are there are taken at once as `get` would take them one by one exactly if they do
not cross the end of the array, and a full buffer gives at least one and none from behind its head.
-/
theorem getBytes_eq_getEach_iff (h : b.InArray) (hsize : len ≤ b.size) (hs : len ≤ s.length) :
    b.getBytes s len = (b.getEach len).map (fun x => (x.1 ++ s.drop len, x.2)) ↔
      b.tail + len ≤ b.maxSize ∧
        (b.full = true → 0 < len ∧ (b.head ≤ b.tail ∨ b.tail + len ≤ b.head)) := by
  by_cases hfit : b.tail + len ≤ b.maxSize
  · cases hf : b.full with
    | false =>
      rw [getBytes_fits hsize hs hfit, getEach_eq (h.valid hf) hf, min_eq_left hsize,
        Nat.sub_eq_zero_of_le hsize, hf]
      simp [hfit]
    | true =>
      cases len with
      | zero =>
        -- nothing is taken, and yet the buffer is not full any more
        refine iff_of_false ?_ (by simp)
        rw [getBytes_fits hsize hs hfit, getEach, Option.map_some, Option.some.injEq,
          Prod.mk.injEq]
        rintro ⟨-, heq⟩
        have := congrArg Buffer.full heq
        rw [hf] at this
        cases this
      | succ n =>
        rw [getBytes_full_iff h hf hs hfit]
        simp [hfit]
  · refine iff_of_false ?_ (mt And.left hfit)
    obtain ⟨x, hx⟩ := exists_getEach h len
    rw [getBytes_crosses hsize (not_le.mp hfit), hx]
    simp

end Get

/-- In every state that calls lead to, both calls for several bytes do what the calls for one byte
do exactly if the bytes do not cross the end of the array, nothing is filled up to the last cell,
and what is taken from a full buffer is not nothing. -/
theorem bulk_eq_each (h : b.Reachable) :
    (∀ s, s.length ≤ b.maxSize - b.size →
      (b.putBytes s s.length = b.putEach s ↔
        b.head + s.length ≤ b.maxSize ∧ (s = [] ∨ b.size + s.length < b.maxSize))) ∧
    ∀ len ≤ b.size, ∀ s, len ≤ s.length →
      (b.getBytes s len = (b.getEach len).map (fun x => (x.1 ++ s.drop len, x.2)) ↔
        b.tail + len ≤ b.maxSize ∧
          (b.full = true → 0 < len ∧ (b.head ≤ b.tail ∨ b.tail + len ≤ b.head))) :=
  ⟨fun _ hroom => putBytes_eq_putEach_iff h.inArray hroom,
    fun _ hsize _ hs => getBytes_eq_getEach_iff h.inArray hsize hs⟩

theorem reachable_new {memory : ℕ → UInt8} (hpos : 0 < n) (hn : n < 2 ^ 64) :
    (new memory n).Reachable :=
  ⟨memory, n, [], hpos, hn, .refl⟩

/-- One byte into a new buffer of two. -/
theorem bulk_eq_each_two : (new (fun _ => 0) 2).putBytes [7] 1 = (new (fun _ => 0) 2).putEach [7] :=
  ((bulk_eq_each (reachable_new (by decide) (by decide))).1 [7] (by decide)).mpr (by decide)

/-- Two bytes that fill a new buffer: it is not full if they are put at once. -/
theorem not_bulk_eq_each : ¬ ∀ b : Buffer, b.Reachable →
    (∀ s, s.length ≤ b.maxSize - b.size → b.putBytes s s.length = b.putEach s) ∧
    ∀ len ≤ b.size, ∀ s, len ≤ s.length →
      b.getBytes s len = (b.getEach len).map fun x => (x.1 ++ s.drop len, x.2) := by
  intro hclaim
  obtain ⟨hput, -⟩ := hclaim (new (fun _ => 0) 2) (reachable_new (by decide) (by decide))
  have hfull := congrArg (Option.map Buffer.full) (hput [7, 8] (by decide))
  exact absurd hfull (by decide)

end Buffer

end AlphaDb.Network
