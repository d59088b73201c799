import AlphaDb.Network.BulkBuffer
import AlphaDb.Network.Codec

/-! Variable-length integers out of a receive buffer. The decoder takes no length, and none of its
callers looks whether an integer has arrived. -/
namespace AlphaDb.Network

open Raft.Rpc Trace

/-- What happens to the receive buffer of a connection. -/
inductive ReceiveOp
  | arrive (chunk : List UInt8)
  | advance (s : ℕ)
  | get
  | getBytes (len : ℕ)
  | unget (s : ℕ)

def receive (b : Buffer) : ReceiveOp → Option Buffer
  | .arrive chunk => Codec.deliver b chunk
  | .advance s => b.apply (.advanceGet s)
  | .get => b.apply .get
  | .getBytes len => b.apply (.getBytes len)
  | .unget s => b.apply (.unget s)

/-- A receive buffer in which anything may have arrived, and from which anything may have been
taken. -/
def Receiving (b : Buffer) : Prop :=
  ∃ memory ops, MTr (fun b a b' => receive b a = some b') (Codec.fresh memory) ops b

/-- Who calls `decode_uvarint` on what a peer has sent. -/
inductive Caller
  | isReady
  | onRead
  | rpcId
  | message (m₀ : Message)

namespace Caller

variable {c : Caller} {b b' : Buffer}

/-- The buffer at whose `get_begin` the calls are made: `on_read` waits for `is_ready`, and the
readers of messages take a length first. -/
def argument (b : Buffer) : Caller → Option Buffer
  | .isReady | .rpcId => some b
  | .onRead => if Codec.isReady b = some true then some b else none
  | .message (.log _) => b.get.map Prod.snd
  | .message _ => (b.getBytes [0, 0] 2).map Prod.snd

/-- How many characters are taken before the call. -/
def skipped (b : Buffer) : Caller → ℕ
  | .message (.log _) => if b.empty then 0 else 1
  | .message _ => if b.size < 2 then 0 else 2
  | _ => 0

/-- The caller comes to its end. -/
def Returns (b : Buffer) : Caller → Prop
  | .isReady => ∃ ready, Codec.isReady b = some ready
  | .onRead => Codec.isReady b = some true ∧ ∃ m₀ x, Codec.onRead m₀ b = some x
  | .rpcId => ∃ rid, Codec.getRpcId b = some rid
  | .message m₀ => ∃ x, m₀.read b = some x

/-- The call is defined, so it shifts by less than 64 bits and stays in the array, and takes at most
ten bytes, all of which have been received. -/
def DecodesReceived (b : Buffer) : Prop :=
  ∃ v bytes, decodeUvarint b.getBegin = some (v, bytes) ∧ bytes ≤ 10 ∧ bytes ≤ b.size

/-- A caller comes to its end only if it decodes an integer there. -/
theorem Returns.decodes (h : c.Returns b) :
    ∃ b' ∈ c.argument b, ∃ x, decodeUvarint b'.getBegin = some x := by
  cases c with
  | isReady =>
    obtain ⟨ready, h⟩ := h
    obtain ⟨y, hy, -⟩ := Option.bind_eq_some_iff.mp h
    obtain ⟨x, hx, -⟩ := Option.map_eq_some_iff.mp hy
    exact ⟨b, rfl, x, hx⟩
  | onRead =>
    obtain ⟨hready, m₀, y, h⟩ := h
    obtain ⟨x, hx, -⟩ := Option.bind_eq_some_iff.mp h
    exact ⟨b, if_pos hready, x, hx⟩
  | rpcId =>
    obtain ⟨rid, h⟩ := h
    obtain ⟨x, hx, -⟩ := Option.map_eq_some_iff.mp h
    exact ⟨b, rfl, x, hx⟩
  | message m₀ =>
    obtain ⟨y, h⟩ := h
    cases m₀ <;>
      (obtain ⟨z, hz, -⟩ := Option.map_eq_some_iff.mp h
       obtain ⟨len, hlen, hrest⟩ := Option.bind_eq_some_iff.mp hz
       obtain ⟨x, hx, -⟩ := Option.bind_eq_some_iff.mp hrest
       exact ⟨len.2, Option.map_eq_some_iff.mpr ⟨len, hlen, rfl⟩, x, hx⟩)

theorem decodesReceived_iff :
    DecodesReceived b ↔ ∃ x ∈ b.getBegin.take (min 10 b.size), ¬ HasMore x := by
  rw [Numeral.exists_ends_prefix]
  constructor
  · rintro ⟨v, bytes, hdecode, hten, hsize⟩
    obtain ⟨bs, hbs, hpre, rfl, -⟩ := decodeLoop_defined.mp ⟨v, hdecode⟩
    exact ⟨bs, hbs, hpre, le_min hten hsize⟩
  · rintro ⟨bs, hbs, hpre, hlen⟩
    have hten := hlen.trans (min_le_left _ _)
    obtain ⟨v, hv⟩ := decodeLoop_defined.mpr ⟨bs, hbs, hpre, rfl, (by omega : 0 + _ < 64)⟩
    exact ⟨v, bs.length, hv, hten, hlen.trans (min_le_right _ _)⟩

/-- Nothing makes a receive buffer full. -/
theorem receiving_valid (h : Receiving b) : b.Valid ∧ b.full = false := by
  obtain ⟨memory, ops, hrun⟩ := h
  have hinv : TrInv (fun b a b' => receive b a = some b')
      fun b => b.InArray ∧ b.full = false := by
    rintro b a b' hs ⟨hin, hf⟩
    cases a with
    | arrive chunk =>
      obtain ⟨b₁, hread, rfl⟩ := Option.map_eq_some_iff.mp hs
      unfold Buffer.readInto at hread
      split at hread
      · obtain rfl := Option.some.inj hread
        exact ⟨⟨Nat.mod_lt _ (Nat.zero_lt_of_lt hin.head), hin.tail, hin.capacity⟩, hf⟩
      · cases hread
    | advance s =>
      refine ⟨Buffer.inArray_apply (a := .advanceGet s) hin hs, ?_⟩
      obtain rfl := Option.some.inj hs
      exact hf
    | get =>
      refine ⟨Buffer.inArray_apply (a := .get) hin hs, ?_⟩
      obtain ⟨⟨c, _⟩, hget, rfl⟩ := Option.map_eq_some_iff.mp hs
      obtain ⟨-, rfl⟩ | rfl := Buffer.get_cases hget
      · exact hf
      · rfl
    | getBytes len =>
      refine ⟨Buffer.inArray_apply (a := .getBytes len) hin hs, ?_⟩
      obtain ⟨⟨s, _⟩, hget, rfl⟩ := Option.map_eq_some_iff.mp hs
      obtain ⟨-, rfl⟩ | rfl := Buffer.getBytes_cases hget
      · exact hf
      · rfl
    | unget s =>
      refine ⟨Buffer.inArray_apply (a := .unget s) hin hs, ?_⟩
      obtain rfl := Option.some.inj hs
      unfold Buffer.unget
      split <;> exact hf
  obtain ⟨hin, hf⟩ := mTr_trInv hinv hrun
    ⟨Buffer.inArray_new (n := defaultBufferSize) (by decide) (by decide), rfl⟩
  exact ⟨hin.valid hf, hf⟩

theorem advance_zero (h : b.Valid) : { b with tail := (b.tail + 0) % b.maxSize } = b := by
  rw [Nat.add_zero, Nat.mod_eq_of_lt h.tail]

theorem getBytes_advance {s s' : List UInt8} {len : ℕ} (h : b.Valid) (hf : b.full = false)
    (hget : b.getBytes s len = some (s', b')) :
    b' = { b with tail := (b.tail + if b.size < len then 0 else len) % b.maxSize } ∧
      (if b.size < len then 0 else len) ≤ b.size := by
  by_cases hlt : b.size < len
  · rw [Buffer.getBytes, if_pos hlt] at hget
    obtain ⟨-, rfl⟩ := Prod.mk.inj (Option.some.inj hget)
    rw [if_pos hlt, advance_zero h]
    exact ⟨rfl, Nat.zero_le _⟩
  · obtain ⟨hlt', -⟩ | heq := Buffer.getBytes_cases hget
    · exact absurd hlt' hlt
    · rw [if_neg hlt, heq, hf]
      exact ⟨rfl, not_lt.mp hlt⟩

theorem get_advance {x : UInt8} (h : b.Valid) (hf : b.full = false)
    (hget : b.get = some (x, b')) :
    b' = { b with tail := (b.tail + if b.empty then 0 else 1) % b.maxSize } ∧
      (if b.empty then 0 else 1) ≤ b.size := by
  by_cases he : b.empty = true
  · rw [Buffer.get, if_pos he] at hget
    obtain ⟨-, rfl⟩ := Prod.mk.inj (Option.some.inj hget)
    rw [if_pos he, advance_zero h]
    exact ⟨rfl, Nat.zero_le _⟩
  · have hpos : 0 < b.size := by
      rw [← Buffer.length_contents, List.length_pos_iff]
      exact mt h.represents.empty.mpr he
    rw [Buffer.get_of_size_pos h hf hpos] at hget
    obtain ⟨-, rfl⟩ := Prod.mk.inj (Option.some.inj hget)
    rw [if_neg he]
    exact ⟨rfl, hpos⟩

/-- The call is made behind what was skipped. -/
theorem argument_eq (h : b.Valid) (hf : b.full = false) (hc : c.argument b = some b') :
    b' = { b with tail := (b.tail + c.skipped b) % b.maxSize } ∧ c.skipped b ≤ b.size := by
  cases c with
  | isReady | rpcId =>
    obtain rfl := Option.some.inj hc
    exact ⟨(advance_zero h).symm, Nat.zero_le _⟩
  | onRead =>
    have hc : (if Codec.isReady b = some true then some b else none) = some b' := hc
    split at hc
    · obtain rfl := Option.some.inj hc
      exact ⟨(advance_zero h).symm, Nat.zero_le _⟩
    · cases hc
  | message m₀ =>
    cases m₀ with
    | requestVoteArgs | requestVoteReply | appendEntriesArgs | appendEntriesReply =>
      obtain ⟨⟨len, _⟩, hget, rfl⟩ := Option.map_eq_some_iff.mp hc
      exact getBytes_advance h hf hget
    | log args =>
      obtain ⟨⟨len, _⟩, hget, rfl⟩ := Option.map_eq_some_iff.mp hc
      exact get_advance h hf hget

/-- What lies at `get_begin` is the contents, as far as the array goes. -/
theorem take_getBegin (h : b.Valid) (m : ℕ) :
    b.getBegin.take (min m b.size) = b.contents.take (min m (b.maxSize - b.tail)) := by
  have htail := h.tail
  have htake : ∀ j k, (Ring.window b.buf b.maxSize b.tail k).take j =
      Ring.window b.buf b.maxSize b.tail (min j k) := by
    intro j k
    rw [Ring.window, ← List.map_take, List.take_range]
    rfl
  have hbegin : b.getBegin = Ring.window b.buf b.maxSize b.tail (b.maxSize - b.tail) :=
    (Ring.window_eq_range' (by omega)).symm
  rw [hbegin, Buffer.contents_eq_window, htake, htake, min_right_comm]

theorem receiving_fresh (memory : ℕ → UInt8) : Receiving (Codec.fresh memory) :=
  ⟨memory, [], .refl⟩

end Caller

end AlphaDb.Network
