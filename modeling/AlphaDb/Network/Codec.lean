import AlphaDb.Network.Conn
import AlphaDb.Raft.RoundTrip

/-! Requests and replies in the buffers of a connection (`network/rpc/codec`), and how a receiver
finds where one ends. -/
namespace AlphaDb.Network

open Raft.Rpc Trace

namespace Codec

variable {stack : ℕ → UInt8} {b w : Buffer} {m : Message} {rid : UInt64}

/-- `operator<<` of an `rpc_id_t`. -/
def putRpcId (rid : UInt64) (b : Buffer) : Option Buffer :=
  b.putBytes (encodeUint rid.toNat) (encodeUint rid.toNat).length

/-- `operator>>` of an `rpc_id_t`, which leaves the id in the buffer. -/
def getRpcId (b : Buffer) : Option UInt64 := (decodeUvarint b.getBegin).map fun x => .ofNat x.1

def marshal (stack : ℕ → UInt8) (rid : UInt64) (m : Message) (b : Buffer) : Option Buffer :=
  (putRpcId rid b).bind (m.write stack)

/-- `unmarshal` into an object like `m₀`. -/
def unmarshal (m₀ : Message) (b : Buffer) : Option (UInt64 × Message × Buffer) := do
  let id ← getRpcId b
  let (m, b) ← m₀.read b
  pure (id, m, b)

/-- `is_ready`. The length is an `int`, and the sum is compared with a number without sign. -/
def isReady (b : Buffer) : Option Bool := do
  let (v, bytes) ← decodeVarint b.getBegin
  let sum := (BitVec.ofInt 32 v).toInt + bytes
  guard (sum < 2 ^ 31)
  pure (¬ (sum % 2 ^ 64).toNat < b.size)

/-- One round of the handler of `on_read`: the id is taken, and the rest is left to the callback. -/
def onRead (m₀ : Message) (b : Buffer) : Option (UInt64 × Message × Buffer) := do
  let (rid, bytes) ← decodeUvarint b.getBegin
  let (_, m, b) ← unmarshal m₀ (b.advanceGet bytes)
  pure (.ofNat rid, m, b)

/-- A buffer of a new connection, with whatever its array holds. -/
def fresh (memory : ℕ → UInt8) : Buffer := ⟨memory, false, 0, 0, defaultBufferSize⟩

/-- The bytes of one message on the stream. -/
def frame (stack : ℕ → UInt8) (x : UInt64 × Message) : Option (List UInt8) :=
  (marshal stack x.1 x.2 (fresh fun _ => 0)).map Buffer.contents

/-- An object to unmarshal into; its vector of log entries is empty. -/
def blank : Message → Message
  | .requestVoteArgs _ => .requestVoteArgs ⟨0, 0, 0, 0⟩
  | .requestVoteReply _ => .requestVoteReply ⟨0, 0⟩
  | .appendEntriesArgs _ => .appendEntriesArgs ⟨0, 0, 0, 0, 0, []⟩
  | .appendEntriesReply _ => .appendEntriesReply ⟨0, 0⟩
  | .log _ => .log ⟨0, 0⟩

/-- Some bytes arrive. -/
def deliver (b : Buffer) (chunk : List UInt8) : Option Buffer :=
  (b.readInto chunk).map fun b => b.advancePut chunk.length

/-- Contents from the first cell on, with the array behind them. -/
theorem contents_prefix (hfull : b.full = false) (htail : b.tail = 0) (hhead : b.head < b.maxSize) :
    b.size = b.head ∧ b.contents = (List.range b.head).map b.buf ∧ b.contents <+: b.getBegin := by
  have hsize : b.size = b.head := by simp [Buffer.size, hfull, htail]
  have hcontents : b.contents = (List.range b.head).map b.buf := by
    rw [Buffer.contents, hsize, htail]
    apply List.map_congr_left
    intro i hi
    have hlt := List.mem_range.mp hi
    rw [Nat.zero_add, Nat.mod_eq_of_lt (by omega)]
  refine ⟨hsize, hcontents, ?_⟩
  rw [hcontents, Buffer.getBegin, htail, List.range_eq_range']
  apply List.IsPrefix.map
  exact ⟨List.range' b.head (b.maxSize - b.head), by
    rw [show b.maxSize - 0 = b.head + (b.maxSize - b.head) by omega, ← List.range'_append_1]
    simp⟩

theorem holding_fresh (memory : ℕ → UInt8) : Holding (fresh memory) 0 :=
  ⟨rfl, rfl, Nat.succ_pos _, rfl, Nat.zero_le _⟩

theorem putRpcId_buf {memory : ℕ → UInt8} {i : ℕ} (h : putRpcId rid (fresh memory) = some b)
    (hi : i < (encodeUint rid.toNat).length) : b.buf i = (encodeUint rid.toNat)[i] := by
  unfold putRpcId Buffer.putBytes at h
  split at h
  · obtain rfl := Option.some.inj h
    simp [fresh, hi]
  · cases h

/-- A frame is the id, and more bytes behind it than the reader of the message takes for lengths. -/
theorem frame_eq_some {x : UInt64 × Message} {f : List UInt8} (h : frame stack x = some f) :
    ∃ payload, f = encodeUint x.1.toNat ++ payload ∧ x.2.lengths < payload.length ∧
      payload.length ≤ 1500 := by
  obtain ⟨w, hw, rfl⟩ := Option.map_eq_some_iff.mp h
  obtain ⟨b, hid, hwrite⟩ := Option.bind_eq_some_iff.mp hw
  obtain ⟨n, hputs, hlt, hle⟩ := write_puts hwrite
  have hten := encodeUint_length_le_ten x.1.toNat_lt
  have hb : Holding b (encodeUint x.1.toNat).length := by
    have := (holding_fresh fun _ => 0).putBytes (by omega) hid
    rwa [Nat.zero_add] at this
  have hbtail : b.tail = 0 := (Buffer.putBytes_eq_some hid).2.2.2.1
  have hheld := hputs.holding hb (by omega)
  have htail : w.tail = 0 :=
    (hputs.buf_eq hb hbtail (by omega) (encodeUint_length_pos x.1.toNat)).2
  have hhead := hheld.head_eq htail
  have hmax : w.head < w.maxSize := by
    rw [hhead, hheld.capacity, defaultBufferSize]
    omega
  -- the id lies in the first cells, and nothing was put there afterwards
  have hcells : (List.range (encodeUint x.1.toNat).length).map w.buf = encodeUint x.1.toNat := by
    apply List.ext_getElem
    · simp
    · intro i hi _
      have hlt : i < (encodeUint x.1.toNat).length := by simpa using hi
      rw [List.getElem_map, List.getElem_range, (hputs.buf_eq hb hbtail (by omega) hlt).1]
      exact putRpcId_buf hid hlt
  obtain ⟨-, hcontents, -⟩ := contents_prefix hheld.full htail hmax
  rw [hcontents, hhead, List.range_add, List.map_append, hcells]
  exact ⟨_, rfl, by simpa using hlt, by simpa using hle⟩

end Codec

open Codec

/-- A receiver, with the messages that it has not read and the chunks that have not arrived. -/
structure Receiver where
  buf : Buffer
  unread : List (UInt64 × Message)
  chunks : List (List UInt8)

inductive ReceiverStep
  | deliver
  | read
  deriving DecidableEq, Repr

namespace Receiver

variable {stack memory : ℕ → UInt8} {r : Receiver} {ms : List (UInt64 × Message)}
  {chunks : List (List UInt8)}

/-- A message is read when `is_ready` says so. -/
def step (r : Receiver) : ReceiverStep → Option Receiver
  | .deliver =>
    match r.chunks with
    | [] => none
    | chunk :: chunks =>
      (Codec.deliver r.buf chunk).map fun b => { r with buf := b, chunks := chunks }
  | .read =>
    match r.unread with
    | [] => none
    | x :: unread =>
      if isReady r.buf = some true then
        (onRead (blank x.2) r.buf).map fun y => { r with buf := y.2.2, unread := unread }
      else none

/-- The next message is there as a whole. -/
def Complete (stack : ℕ → UInt8) (r : Receiver) : Prop :=
  ∃ x ∈ r.unread.head?, ∃ f ∈ frame stack x, f <+: r.buf.contents

/-- `is_ready` says whether the next message is complete, and reading it takes just its frame. -/
structure Framed (stack : ℕ → UInt8) (r : Receiver) : Prop where
  ready : ∃ ready, isReady r.buf = some ready ∧ (ready = true ↔ r.Complete stack)
  read : ∀ x ∈ r.unread.head?, ∀ f ∈ frame stack x, f <+: r.buf.contents →
    ∃ b, onRead (blank x.2) r.buf = some (x.1, x.2, b) ∧ r.buf.contents = f ++ b.contents

/-- The state before anything has arrived. -/
def start (memory : ℕ → UInt8) (ms : List (UInt64 × Message)) (chunks : List (List UInt8)) :
    Receiver :=
  ⟨fresh memory, ms, chunks⟩

/-- No sum is less than the size of an empty buffer. -/
theorem isReady_of_size_zero {b : Buffer} {ready : Bool} (hsize : b.size = 0)
    (h : isReady b = some ready) : ready = true := by
  simp only [isReady, hsize, Option.bind_eq_bind, Option.bind_eq_some_iff, Option.pure_def,
    Option.some.injEq] at h
  obtain ⟨-, -, -, -, rfl⟩ := h
  simp

theorem not_framed_start : ¬ (start memory ms chunks).Framed stack := by
  intro h
  obtain ⟨ready, hready, hiff⟩ := h.ready
  obtain ⟨x, -, f, hf, hpre⟩ := hiff.mp (isReady_of_size_zero rfl hready)
  obtain ⟨payload, rfl, -⟩ := frame_eq_some hf
  have hlen := hpre.length_le
  have hpos := encodeUint_length_pos x.1.toNat
  have hzero : (start memory ms chunks).buf.size = 0 := rfl
  rw [List.length_append, Buffer.length_contents, hzero] at hlen
  omega

/-- Nothing has been read: the contents start at the first cell. -/
structure Untouched (r : Receiver) : Prop where
  full : r.buf.full = false
  tail : r.buf.tail = 0
  head : r.buf.head < r.buf.maxSize
  capacity : r.buf.maxSize = defaultBufferSize

theorem untouched_deliver {q : Receiver} (h : Untouched r) (hs : r.step .deliver = some q) :
    Untouched q := by
  simp only [step] at hs
  split at hs
  · cases hs
  · rename_i chunk rest hchunks
    simp only [deliver, Buffer.readInto, Option.map_map] at hs
    split at hs
    · obtain rfl := Option.some.inj hs
      refine ⟨h.full, h.tail, ?_, h.capacity⟩
      exact Nat.mod_lt _ (Nat.zero_lt_of_lt h.head)
    · cases hs

theorem untouched_run {k : ℕ}
    (h : MTr (fun r a q => step r a = some q) (start memory ms chunks)
      (List.replicate k .deliver) r) : Untouched r := by
  have hrun {r q : Receiver} {xs : List ReceiverStep} (hxs : ∀ a ∈ xs, a = .deliver)
      (h : MTr (fun r a q => step r a = some q) r xs q) (hr : Untouched r) : Untouched q := by
    induction h with
    | refl => exact hr
    | stepL hs _ ih =>
      obtain rfl := hxs _ List.mem_cons_self
      exact ih (fun a ha => hxs a (List.mem_cons_of_mem _ ha)) (untouched_deliver hr hs)
  exact hrun (fun a ha => List.eq_of_mem_replicate ha) h ⟨rfl, rfl, Nat.succ_pos _, rfl⟩

/-- Reading a message that is complete does not take its frame. -/
theorem not_framed_of_complete (hr : Untouched r) (hc : r.Complete stack) : ¬ r.Framed stack := by
  intro h
  obtain ⟨x, hx, f, hf, hpre⟩ := hc
  obtain ⟨b, hread, hcontents⟩ := h.read x hx f hf hpre
  obtain ⟨payload, rfl, hlt, hle⟩ := frame_eq_some hf
  obtain ⟨hsize, -, hbegin⟩ := contents_prefix hr.full hr.tail hr.head
  obtain ⟨rest, hrest⟩ := hpre.trans hbegin
  have hid : decodeUvarint r.buf.getBegin = some (x.1.toNat, (encodeUint x.1.toNat).length) := by
    rw [← hrest, List.append_assoc]
    exact decodeUvarint_encodeUint x.1.toNat_lt
  simp only [onRead, unmarshal, hid, Option.bind_eq_bind, Option.bind_some,
    Option.bind_eq_some_iff, Option.pure_def, Option.some.injEq, Prod.exists,
    Prod.mk.injEq] at hread
  obtain ⟨-, m, b', ⟨-, -, m', b'', hmessage, -, rfl, rfl⟩, -, rfl, rfl⟩ := hread
  have hlen := congrArg List.length hcontents
  simp only [List.length_append, Buffer.length_contents] at hlen
  have hten := encodeUint_length_le_ten x.1.toNat_lt
  have hhead := hr.head
  rw [hr.capacity, defaultBufferSize] at hhead
  have hpos : 0 < x.2.lengths := by
    cases x.2 <;> simp [Message.lengths]
  -- the buffer behind the id, which the readers of messages see
  have htail : (r.buf.advanceGet (encodeUint x.1.toNat).length).tail =
      (encodeUint x.1.toNat).length := by
    simp only [Buffer.advanceGet, hr.tail, hr.capacity, defaultBufferSize]
    omega
  have hvalid : (r.buf.advanceGet (encodeUint x.1.toNat).length).Valid := by
    refine ⟨hr.head, ?_, fun hfull => absurd (hr.full.symm.trans hfull) (by simp)⟩
    rw [htail]
    show _ < r.buf.maxSize
    rw [hr.capacity, defaultBufferSize]
    omega
  have hbehind : (r.buf.advanceGet (encodeUint x.1.toNat).length).size =
      payload.length + b''.size := by
    rw [Buffer.size, htail]
    show (if r.buf.full = true then _ else if _ ≤ r.buf.head then r.buf.head - _ else _) = _
    rw [hr.full, if_neg (by simp), if_pos (by omega)]
    omega
  obtain ⟨k, hk, hkle, hrewound⟩ := read_rewound (by omega) hmessage
  exact hrewound.size_ne hvalid hr.capacity hk (by omega) (by omega) hbehind rfl

/-- Whatever is sent and however it arrives, `is_ready` is not right before anything has arrived,
and once a message is complete it is wrong or reading does not take the frame of the message. -/
theorem not_frames_recovered (stack memory : ℕ → UInt8) (ms : List (UInt64 × Message))
    (chunks : List (List UInt8)) :
    ¬ (∀ xs r, MTr (fun r a q => step r a = some q) (start memory ms chunks) xs r →
      r.Framed stack) ∧
    ∀ k r, MTr (fun r a q => step r a = some q) (start memory ms chunks)
      (List.replicate k .deliver) r → r.Complete stack → ¬ r.Framed stack := by
  constructor
  · intro h
    exact not_framed_start (h [] _ .refl)
  · intro k r hrun hc
    exact not_framed_of_complete (untouched_run hrun) hc

/-- A reply with id 0 that arrives as a whole: its first byte is taken for a length of 0. -/
theorem delivered_reply : ∃ r,
    MTr (fun r a q => step r a = some q)
      (start (fun _ => 0) [(0, .requestVoteReply ⟨1, 1⟩)] [[0, 2, 1, 0]]) [.deliver] r ∧
    r.Complete (fun _ => 0) ∧ isReady r.buf = some false := by
  have hframe : frame (fun _ => 0) (0, .requestVoteReply ⟨1, 1⟩) = some [0, 2, 1, 0] := by
    decide +kernel
  have h : (exec step (start (fun _ => 0) [(0, .requestVoteReply ⟨1, 1⟩)] [[0, 2, 1, 0]])
      [.deliver]).any (fun r => r.unread = [(0, .requestVoteReply ⟨1, 1⟩)] ∧
      r.buf.contents = [0, 2, 1, 0] ∧ isReady r.buf = some false) = true := by
    decide +kernel
  obtain ⟨r, hrun, hp⟩ := exists_mTr_of_exec h
  obtain ⟨hunread, hcontents, hready⟩ := of_decide_eq_true hp
  exact ⟨r, hrun, ⟨_, by rw [hunread]; rfl, _, hframe, by rw [hcontents]⟩, hready⟩

theorem complete_not_ready : ∃ r,
    MTr (fun r a q => step r a = some q)
      (start (fun _ => 0) [(0, .requestVoteReply ⟨1, 1⟩)] [[0, 2, 1, 0]]) [.deliver] r ∧
    r.Complete (fun _ => 0) ∧ isReady r.buf = some false ∧ ¬ r.Framed fun _ => 0 := by
  obtain ⟨r, hrun, hc, hready⟩ := delivered_reply
  refine ⟨r, hrun, hc, hready, ?_⟩
  intro h
  obtain ⟨ready, heq, hiff⟩ := h.ready
  rw [hready] at heq
  cases heq
  exact absurd (hiff.mpr hc) (by simp)

theorem not_frames_recovered_one : ∃ r : Receiver, r.Complete (fun _ => 0) ∧
    ¬ r.Framed fun _ => 0 := by
  obtain ⟨r, hrun, hc, -⟩ := delivered_reply
  exact ⟨r, hc, (not_frames_recovered _ _ _ _).2 1 r hrun hc⟩

end Receiver

end AlphaDb.Network
