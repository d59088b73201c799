import AlphaDb.Lib.Trace
import AlphaDb.Network.ByteQueue

/-! A connection (`network/conn`): bytes between a socket and the two ring buffers. -/
namespace AlphaDb.Network

open Trace

/-- What the socket says to one `read` or `write`: it moves up to `count` bytes, or fails with
`EINTR` or `EAGAIN`. -/
inductive SocketAnswer
  | ready (count : ℕ)
  | interrupted
  | wouldBlock
  deriving DecidableEq, Repr

namespace Buffer

variable {b b' : Buffer} {s out : List UInt8} {answers : List SocketAnswer}

/-- The bytes of a `write` of `w` bytes at `get_begin`. -/
def bytesAt (b : Buffer) (w : ℕ) : List UInt8 := (List.range' b.tail w).map b.buf

/-- A `read` of these bytes at `put_begin`. -/
def readInto (b : Buffer) (s : List UInt8) : Option Buffer :=
  if b.head + s.length ≤ b.maxSize then
    some { b with
      buf := fun i =>
        if b.head ≤ i ∧ i < b.head + s.length then s.getD (i - b.head) 0 else b.buf i }
  else none

/-- The loop of `handle_read`, with what the peer has sent and the socket not yet delivered. It
asks for as many bytes as the buffer has, not for as many as it has room for. -/
def handleRead (b : Buffer) (incoming : List UInt8) :
    List SocketAnswer → Option (Buffer × List UInt8)
  | [] => some (b, incoming)
  | .wouldBlock :: _ => some (b, incoming)
  | .interrupted :: answers => handleRead b incoming answers
  | .ready count :: answers =>
    let r := min count (min b.size incoming.length)
    if r = 0 then some (b, incoming)
    else
      (b.readInto (incoming.take r)).bind fun b =>
        handleRead (b.advancePut r) (incoming.drop r) answers

/-- The loop of `handle_write`, `send` and `send_output`, with the bytes it writes to the socket. -/
def handleWrite (b : Buffer) : List SocketAnswer → Option (Buffer × List UInt8)
  | [] => some (b, [])
  | .wouldBlock :: _ => some (b, [])
  | .interrupted :: answers => handleWrite b answers
  | .ready count :: answers =>
    let w := min count b.size
    if w = 0 then some (b, [])
    else if b.tail + w ≤ b.maxSize then
      (handleWrite (b.advanceGet w) answers).map fun x => (x.1, b.bytesAt w ++ x.2)
    else none

def send (b : Buffer) (s : List UInt8) (answers : List SocketAnswer) :
    Option (Buffer × List UInt8) :=
  (b.putBytes s s.length).bind fun b => handleWrite b answers

/-- In a buffer of these positions, no `write` of the loop takes more bytes than there are up to the
end of the array. -/
def WritesInside (maxSize : ℕ) : ℕ → ℕ → List SocketAnswer → Prop
  | _, _, [] => True
  | _, _, .wouldBlock :: _ => True
  | tail, size, .interrupted :: answers => WritesInside maxSize tail size answers
  | tail, size, .ready count :: answers =>
    tail + min count size ≤ maxSize ∧
      WritesInside maxSize ((tail + min count size) % maxSize) (size - min count size) answers

instance (maxSize : ℕ) : ∀ (tail size : ℕ) (answers : List SocketAnswer),
    Decidable (WritesInside maxSize tail size answers)
  | _, _, [] => inferInstanceAs (Decidable True)
  | _, _, .wouldBlock :: _ => inferInstanceAs (Decidable True)
  | tail, size, .interrupted :: answers =>
    instDecidableWritesInside maxSize tail size answers
  | tail, size, .ready count :: answers =>
    have := instDecidableWritesInside maxSize ((tail + min count size) % maxSize)
      (size - min count size) answers
    inferInstanceAs (Decidable (_ ∧ _))

/-- The bytes fit between the head and the end of the array, and leave at least one cell free. -/
def HasRoom (b : Buffer) (s : List UInt8) : Prop :=
  b.head + s.length ≤ b.maxSize ∧ b.size + s.length < b.maxSize

instance (b : Buffer) (s : List UInt8) : Decidable (b.HasRoom s) :=
  inferInstanceAs (Decidable (_ ∧ _))

/-- The room is there, and the bytes are copied behind the others. -/
theorem putBytes_of_hasRoom (h : b.Valid) (hfull : b.full = false) (hroom : b.HasRoom s) :
    ∃ b', b.putBytes s s.length = some b' ∧ b'.Valid ∧ b'.full = false ∧
      b'.maxSize = b.maxSize ∧ b'.tail = b.tail ∧ b'.size = b.size + s.length ∧
      b'.contents = b.contents ++ s := by
  obtain ⟨hend, hfree⟩ := hroom
  have hn : 0 < b.maxSize := Nat.zero_lt_of_lt h.tail
  obtain ⟨b', hb'⟩ : ∃ b', b.putBytes s s.length = some b' := by
    simp [putBytes, hend]
  obtain ⟨-, hf, hhead, htail, hmax⟩ := putBytes_eq_some hb'
  have hvalid : b'.Valid := by
    refine ⟨?_, ?_, ?_⟩
    · rw [hhead, hmax]
      exact Nat.mod_lt _ hn
    · rw [htail, hmax]
      exact h.tail
    · intro htrue
      simp [hf, hfull] at htrue
  have hsize : b'.size = b.size + s.length := by
    refine size_eq_of_head hvalid (hf.trans hfull) (hmax ▸ hfree) ?_
    rw [hhead, hmax, htail, h.head_eq, Nat.mod_add_mod, Nat.add_assoc]
  have hbuf : b'.buf = fun i =>
      if b.head ≤ i ∧ i < b.head + s.length then s.getD (i - b.head) 0 else b.buf i := by
    simp only [putBytes, le_refl, hend, and_self, if_true, Option.some.injEq] at hb'
    rw [← hb']
  refine ⟨b', hb', hvalid, hf.trans hfull, hmax, htail, hsize, ?_⟩
  rw [contents_eq_window, contents_eq_window, hsize, hmax, htail, hbuf]
  exact Ring.window_copy h.head_eq hend hfree.le

/-- Bytes that have been written are no longer in the buffer. -/
theorem advanceGet_contents (h : b.Valid) (hfull : b.full = false) {w : ℕ} (hw : w ≤ b.size)
    (hend : b.tail + w ≤ b.maxSize) :
    (b.advanceGet w).Valid ∧ (b.advanceGet w).full = false ∧ (b.advanceGet w).size = b.size - w ∧
      b.contents = b.bytesAt w ++ (b.advanceGet w).contents := by
  have hn : 0 < b.maxSize := Nat.zero_lt_of_lt h.tail
  have hlt := h.size_lt hfull
  have hvalid : (b.advanceGet w).Valid :=
    ⟨h.head, Nat.mod_lt _ hn, fun htrue => absurd (hfull.symm.trans htrue) (by simp)⟩
  have hsize : (b.advanceGet w).size = b.size - w := by
    refine size_eq_of_head hvalid hfull ?_ ?_
    · show b.size - w < b.maxSize
      omega
    · show b.head = ((b.tail + w) % b.maxSize + (b.size - w)) % b.maxSize
      rw [Nat.mod_add_mod, Nat.add_assoc, Nat.add_sub_cancel' hw]
      exact h.head_eq
  refine ⟨hvalid, hfull, hsize, ?_⟩
  have hsplit : b.size = w + (b.size - w) := by omega
  rw [contents_eq_window, contents_eq_window, hsize, bytesAt, ← Ring.window_eq_range' hend]
  conv_lhs => rw [hsplit]
  exact Ring.window_append ..

/-- The loop writes the front of the contents and keeps the rest. -/
theorem handleWrite_of_writesInside (h : b.Valid) (hfull : b.full = false)
    (hin : WritesInside b.maxSize b.tail b.size answers) :
    ∃ b' out, b.handleWrite answers = some (b', out) ∧ b'.Valid ∧ b'.full = false ∧
      b.contents = out ++ b'.contents := by
  -- one write after the other, by induction on the answers of the socket
  induction answers generalizing b with
  | nil => exact ⟨b, [], rfl, h, hfull, rfl⟩
  | cons answer answers ih =>
    cases answer with
    | wouldBlock => exact ⟨b, [], rfl, h, hfull, rfl⟩
    | interrupted => exact ih h hfull hin
    | ready count =>
      obtain ⟨hend, hrest⟩ := hin
      by_cases hw : min count b.size = 0
      · exact ⟨b, [], by simp only [handleWrite, hw, if_true], h, hfull, rfl⟩
      · obtain ⟨hvalid, hfull', hsize, hcontents⟩ :=
          advanceGet_contents h hfull (Nat.min_le_right count b.size) hend
        rw [← hsize] at hrest
        obtain ⟨b', out, hloop, hb', hf', hout⟩ := ih hvalid hfull' hrest
        refine ⟨b', b.bytesAt (min count b.size) ++ out, ?_, hb', hf', ?_⟩
        · simp only [handleWrite, hw, if_false, hend, if_true, hloop, Option.map_some]
        · rw [hcontents, hout, List.append_assoc]

/-- An empty buffer asks the socket for nothing. -/
theorem handleRead_of_empty (h : b.empty = true) (incoming : List UInt8)
    (answers : List SocketAnswer) : b.handleRead incoming answers = some (b, incoming) := by
  have hsize := size_of_empty h
  induction answers with
  | nil => rfl
  | cons answer answers ih =>
    cases answer with
    | wouldBlock => rfl
    | interrupted => exact ih
    | ready count => simp [handleRead, hsize]

end Buffer

/-- A connection, what the peer has sent and what of it the socket still has, the bytes that the
consumer has taken, the bytes put by `send`, and those written to the socket. -/
structure Conn where
  readBuf : Buffer
  writeBuf : Buffer
  sent : List UInt8
  incoming : List UInt8
  taken : List UInt8
  put : List UInt8
  written : List UInt8

inductive ConnCall
  | peerSends (s : List UInt8)
  | handleRead (answers : List SocketAnswer)
  | handleWrite (answers : List SocketAnswer)
  | send (s : List UInt8) (answers : List SocketAnswer)
  | get
  | getBytes (len : ℕ)

namespace Conn

variable {c d : Conn} {a : ConnCall}

/-- One call; it returns nothing where it touches memory outside of a buffer. -/
def step (c : Conn) : ConnCall → Option Conn
  | .peerSends s => some { c with sent := c.sent ++ s, incoming := c.incoming ++ s }
  | .handleRead answers =>
    (c.readBuf.handleRead c.incoming answers).map fun x =>
      { c with readBuf := x.1, incoming := x.2 }
  | .handleWrite answers =>
    (c.writeBuf.handleWrite answers).map fun x =>
      { c with writeBuf := x.1, written := c.written ++ x.2 }
  | .send s answers =>
    (c.writeBuf.send s answers).map fun x =>
      { c with writeBuf := x.1, put := c.put ++ s, written := c.written ++ x.2 }
  | .get =>
    c.readBuf.get.map fun x =>
      { c with readBuf := x.2, taken := c.taken ++ if c.readBuf.empty then [] else [x.1] }
  | .getBytes len =>
    (c.readBuf.getBytes (List.replicate len 0) len).map fun x =>
      { c with
        readBuf := x.2
        taken := c.taken ++ if c.readBuf.size < len then [] else x.1 }

/-- A new connection: both buffers are empty. -/
structure Starts (c : Conn) : Prop where
  readBuf : c.readBuf.Valid ∧ c.readBuf.empty = true
  writeBuf : c.writeBuf.Valid ∧ c.writeBuf.empty = true
  silent : c.sent = [] ∧ c.incoming = [] ∧ c.taken = [] ∧ c.put = [] ∧ c.written = []

/-- The condition before a call: a `send` finds room for its bytes, and no `write` is answered
with more bytes than there are up to the end of the array. -/
def Fits (c : Conn) : ConnCall → Prop
  | .handleWrite answers =>
    Buffer.WritesInside c.writeBuf.maxSize c.writeBuf.tail c.writeBuf.size answers
  | .send s answers => c.writeBuf.HasRoom s ∧
      Buffer.WritesInside c.writeBuf.maxSize c.writeBuf.tail (c.writeBuf.size + s.length) answers
  | _ => True

instance : ∀ (c : Conn) (a : ConnCall), Decidable (c.Fits a)
  | _, .handleWrite _ => inferInstanceAs (Decidable (Buffer.WritesInside ..))
  | _, .send .. => inferInstanceAs (Decidable (_ ∧ Buffer.WritesInside ..))
  | _, .peerSends _ | _, .handleRead _ | _, .get | _, .getBytes _ =>
    inferInstanceAs (Decidable True)

/-- No byte is lost, doubled or moved between the peer and the consumer, or between `send` and the
socket. -/
structure Faithful (c : Conn) : Prop where
  received : c.sent = c.taken ++ c.readBuf.contents ++ c.incoming
  sent : c.put = c.written ++ c.writeBuf.contents

/-- The read buffer never gets a byte; the write buffer is a queue between its two streams. -/
structure Flowing (c : Conn) : Prop extends Faithful c where
  readBuf : c.readBuf.Valid ∧ c.readBuf.empty = true
  writeBuf : c.writeBuf.Valid ∧ c.writeBuf.full = false

theorem flowing_of_starts (h : Starts c) : Flowing c := by
  obtain ⟨hread, ⟨hwrite, hempty⟩, hsent, hin, htaken, hput, hwritten⟩ := h
  have hr := hread.1.represents.empty.mp hread.2
  have hw := hwrite.represents.empty.mp hempty
  refine ⟨⟨?_, ?_⟩, hread, hwrite, Buffer.full_of_empty hempty⟩
  · simp [hsent, htaken, hr, hin]
  · simp [hput, hwritten, hw]

/-- Bytes go out of the write buffer, after some have been put. -/
theorem Flowing.write (h : Flowing c) {b b' : Buffer} {s out : List UInt8}
    (hb : b.contents = c.writeBuf.contents ++ s) (hvalid : b'.Valid) (hfull : b'.full = false)
    (hout : b.contents = out ++ b'.contents) :
    Flowing { c with writeBuf := b', put := c.put ++ s, written := c.written ++ out } := by
  refine ⟨⟨h.received, ?_⟩, h.readBuf, hvalid, hfull⟩
  show c.put ++ s = c.written ++ out ++ b'.contents
  rw [h.sent, List.append_assoc, ← hb, hout, List.append_assoc]

/-- A read buffer without bytes gives none. -/
theorem Flowing.read (h : Flowing c) {b : Buffer} {taken : List UInt8} (hb : b = c.readBuf)
    (htaken : taken = []) : Flowing { c with readBuf := b, taken := c.taken ++ taken } := by
  subst hb htaken
  refine ⟨⟨?_, h.sent⟩, h.readBuf, h.writeBuf⟩
  show c.sent = c.taken ++ [] ++ c.readBuf.contents ++ c.incoming
  rw [List.append_nil]
  exact h.received

/-- A call that meets the condition stays inside the buffers and keeps the streams. -/
theorem flowing_call (h : Flowing c) (hfits : c.Fits a) :
    ∃ d, c.step a = some d ∧ Flowing d := by
  obtain ⟨hread, hempty⟩ := h.readBuf
  obtain ⟨hwrite, hfull⟩ := h.writeBuf
  have hsize := Buffer.size_of_empty hempty
  cases a with
  | peerSends s =>
    refine ⟨_, rfl, ⟨?_, h.sent⟩, h.readBuf, h.writeBuf⟩
    show c.sent ++ s = c.taken ++ c.readBuf.contents ++ (c.incoming ++ s)
    rw [h.received, List.append_assoc]
  | handleRead answers =>
    refine ⟨c, ?_, h⟩
    simp only [step, Buffer.handleRead_of_empty hempty, Option.map_some]
  | handleWrite answers =>
    obtain ⟨b, out, hloop, hb, hf, hout⟩ :=
      Buffer.handleWrite_of_writesInside hwrite hfull hfits
    have hflow := h.write (s := []) (by simp) hb hf hout
    rw [List.append_nil] at hflow
    exact ⟨_, by simp only [step, hloop, Option.map_some], hflow⟩
  | send s answers =>
    obtain ⟨hroom, hin⟩ := hfits
    obtain ⟨b, hput, hb, hf, hmax, htail, hsize, hcontents⟩ :=
      Buffer.putBytes_of_hasRoom hwrite hfull hroom
    rw [← hmax, ← htail, ← hsize] at hin
    obtain ⟨b', out, hloop, hb', hf', hout⟩ := Buffer.handleWrite_of_writesInside hb hf hin
    refine ⟨_, ?_, h.write hcontents hb' hf' hout⟩
    simp only [step, Buffer.send, hput, Option.bind_some, hloop, Option.map_some]
  | get =>
    refine ⟨_, ?_, h.read rfl rfl⟩
    simp [step, Buffer.get, hempty]
  | getBytes len =>
    by_cases hlen : 0 < len
    · refine ⟨_, ?_, h.read rfl rfl⟩
      simp [step, Buffer.getBytes, hsize, hlen]
    · obtain rfl : len = 0 := by omega
      have hfalse := Buffer.full_of_empty hempty
      have hsame : { c.readBuf with
          full := false
          tail := (c.readBuf.tail + 0) % c.readBuf.maxSize } = c.readBuf := by
        rw [Nat.add_zero, Nat.mod_eq_of_lt hread.tail, ← hfalse]
      refine ⟨_, ?_, h.read hsame rfl⟩
      simp [step, Buffer.getBytes, hread.tail.le]

theorem flowing_step : TrInv (Guarded Fits step) Flowing := by
  rintro c a d ⟨hfits, hs⟩ h
  obtain ⟨d', hd', hflow⟩ := flowing_call h hfits
  obtain rfl := Option.some.inj (hd'.symm.trans hs)
  exact hflow

/-- In every run whose calls meet the condition, the consumer has a prefix of what the peer sent,
the socket a prefix of what was put, nothing is lost in between, and the next call that meets the
condition stays inside the buffers. -/
theorem run_faithful {calls : List ConnCall} (hc : Starts c)
    (hrun : MTr (Guarded Fits step) c calls d) :
    d.taken <+: d.sent ∧ d.written <+: d.put ∧ Faithful d ∧
      ∀ a, d.Fits a → d.step a ≠ none := by
  have h := mTr_trInv flowing_step hrun (flowing_of_starts hc)
  refine ⟨?_, ?_, h.toFaithful, ?_⟩
  · rw [h.received, List.append_assoc]
    exact List.prefix_append _ _
  · rw [h.sent]
    exact List.prefix_append _ _
  · intro a hfits
    obtain ⟨e, he, -⟩ := flowing_call h hfits
    rw [he]
    simp

/-- A connection whose two buffers have `n` cells. -/
def ofSize (n : ℕ) : Conn where
  readBuf := ⟨fun _ => 0, false, 0, 0, n⟩
  writeBuf := ⟨fun _ => 0, false, 0, 0, n⟩
  sent := []
  incoming := []
  taken := []
  put := []
  written := []

theorem ofSize_starts {n : ℕ} (hn : 0 < n) : Starts (ofSize n) :=
  ⟨⟨⟨hn, hn, fun h => absurd h (by simp [ofSize])⟩, rfl⟩,
    ⟨⟨hn, hn, fun h => absurd h (by simp [ofSize])⟩, rfl⟩, rfl, rfl, rfl, rfl, rfl⟩

/-- Writes up to the end of a buffer of eight cells, and on from its start. -/
theorem run_faithful_eight :
    ∃ d, MTr (Guarded Fits step) (ofSize 8)
        [.peerSends [50, 51], .handleRead [.ready 2], .get,
          .send [1, 2, 3] [.interrupted, .ready 2, .wouldBlock], .send [4, 5, 6, 7, 8] [],
          .handleWrite [.ready 4, .ready 9], .send [9] [.ready 1]] d ∧
      d.written = [1, 2, 3, 4, 5, 6, 7, 8, 9] ∧ d.written <+: d.put := by
  have h : (execGuarded Fits step (ofSize 8)
      [.peerSends [50, 51], .handleRead [.ready 2], .get,
        .send [1, 2, 3] [.interrupted, .ready 2, .wouldBlock], .send [4, 5, 6, 7, 8] [],
        .handleWrite [.ready 4, .ready 9], .send [9] [.ready 1]]).any
      (fun d => d.written = [1, 2, 3, 4, 5, 6, 7, 8, 9]) = true := by
    decide +kernel
  obtain ⟨d, hrun, hd⟩ := exists_mTr_of_execGuarded h
  have hfaithful := run_faithful (ofSize_starts (by decide)) hrun
  exact ⟨d, hrun, of_decide_eq_true hd, hfaithful.2.1⟩

/-- After a `send` of as many bytes as the buffer has cells, while the socket takes none, the buffer
counts as empty again, and the next byte is the first one to be written. -/
theorem send_of_size {n : ℕ} (hn : 1 < n) {s : List UInt8} (hs : s.length = n) (x : UInt8) :
    ∃ d, exec step (ofSize n) [.send s [.wouldBlock], .send [x] [.ready 1]] = some d ∧
      d.written = [x] ∧ d.put = s ++ [x] := by
  have hone : 1 % n = 1 := Nat.mod_eq_of_lt hn
  have hpos : 0 < n := by omega
  simp [exec, step, ofSize, Buffer.send, Buffer.putBytes, Buffer.handleWrite, Buffer.size,
    Buffer.bytesAt, hs, hpos, hone, Nat.one_le_iff_ne_zero, hpos.ne']

theorem send_of_gt {n : ℕ} {s : List UInt8} (hs : n < s.length) (answers : List SocketAnswer) :
    step (ofSize n) (.send s answers) = none := by
  simp [step, ofSize, Buffer.send, Buffer.putBytes, not_le.mpr hs]

/-- In a buffer of the default size, 65535 bytes are lost, and 65536 leave the array. -/
theorem full_buffer_lost :
    (∃ d, MTr (fun c a d => step c a = some d) (ofSize defaultBufferSize)
        [.send (List.replicate 65535 7) [.wouldBlock], .send [8] [.ready 1]] d ∧
      d.written = [8] ∧ ¬ d.written <+: d.put) ∧
    step (ofSize defaultBufferSize) (.send (List.replicate 65536 7) [.wouldBlock]) = none := by
  constructor
  · obtain ⟨d, hd, hwritten, hput⟩ := send_of_size (n := defaultBufferSize)
      (s := List.replicate 65535 7) (by decide) List.length_replicate 8
    refine ⟨d, mTr_of_exec hd, hwritten, ?_⟩
    rw [hwritten, hput]
    rintro ⟨rest, hrest⟩
    have hhead : (List.replicate (65534 + 1) (7 : UInt8) ++ [8]).head? = some 8 :=
      (congrArg List.head? hrest).symm
    rw [List.replicate_succ, List.cons_append, List.head?_cons] at hhead
    exact absurd (Option.some.inj hhead) (by decide)
  · exact send_of_gt (by rw [List.length_replicate]; decide) _

end Conn

end AlphaDb.Network
