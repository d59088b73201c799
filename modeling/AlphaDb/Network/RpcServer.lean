import AlphaDb.Network.Codec

/-! Services by name (`network/rpc/rpc` and `rpc_server`): how they are registered, and which one a
request reaches. -/
namespace AlphaDb.Network

open Raft.Rpc Codec

/-- The characters of a C string. -/
abbrev CString := List {c : UInt8 // c ≠ 0}

/-- What the keys of `services_` lead to; a service is named by what it was registered under. -/
abbrev Services := ℤ → Option CString

namespace RpcServer

variable {stack memory : ℕ → UInt8} {names : List CString} {name str : CString} {rid : UInt64}
  {fuel : ℕ} {h code : BitVec 32} {b b' : Buffer} {f : List UInt8} {services : Services}

/-- The loop of `rpc::hash` at `p`. The increment of `p` is behind the loop, so every round is at
the same character. -/
def hashLoop : ℕ → BitVec 32 → CString → Option (BitVec 32)
  | 0, _, _ => none
  | _ + 1, hashcode, [] => some hashcode
  | fuel + 1, hashcode, c :: p =>
    hashLoop fuel (hashcode ^^^ c.val.toBitVec.signExtend 32) (c :: p)

def hash (fuel : ℕ) (str : CString) : Option (BitVec 32) := hashLoop fuel 0 str

/-- `Register`: a name whose hash is taken is left out. -/
def register (fuel : ℕ) (services : Services) (str : CString) : Option Services :=
  (hash fuel str).map fun code =>
    if services code.toInt = none then Function.update services code.toInt (some str)
    else services

def registerAll (fuel : ℕ) (names : List CString) : Option Services :=
  names.foldlM (register fuel) fun _ => none

/-- The bytes that `rpc_conn::call` sends; the name is not among them. -/
def call (stack : ℕ → UInt8) (rid : UInt64) (_name : CString) (m : Message) :
    Option (List UInt8) :=
  frame stack (rid, m)

/-- The handler of `handle_accept`, with the service that runs and its request. The id is read three
times and stays in the buffer, where the request is then read. -/
def onRead (services : Services) (m₀ : Message) (b : Buffer) :
    Option (Option (CString × Message) × Buffer) := do
  let rpcid ← getRpcId b
  match services (BitVec.ofNat 32 rpcid.toNat).toInt with
  | none => pure (none, b)
  | some str =>
    let _ ← getRpcId b
    let (_, m, b) ← unmarshal m₀ b
    pure (some (str, m), b)

/-- Hashing ends on the names, and a call under `name` with id `rid`, when its bytes have arrived,
runs the service with that name, if there is one, on the arguments of the call. -/
structure Dispatches (stack : ℕ → UInt8) (names : List CString) (name : CString) (rid : UInt64) :
    Prop where
  hash : ∀ str ∈ name :: names, ∃ fuel code, hash fuel str = some code
  runs : ∃ fuel services, registerAll fuel names = some services ∧
    ∀ memory m f b, call stack rid name m = some f → deliver (fresh memory) f = some b →
      ∃ b', onRead services (blank m) b = some (if name ∈ names then some (name, m) else none, b')

/-- Hashing ends only on the empty name. -/
theorem hashLoop_eq_some (hs : hashLoop fuel h str = some code) : str = [] := by
  induction fuel generalizing h with
  | zero => cases hs
  | succ fuel ih =>
    cases str with
    | nil => rfl
    | cons c p => exact ih hs

/-- All fields of a vote request are read at one place. -/
theorem readRequestVoteArgs_eq {args : RequestVoteArgs}
    (hr : readRequestVoteArgs b = some (args, b')) : args.term = args.lastLogIndex := by
  obtain ⟨⟨len, c⟩, -, hr⟩ := Option.bind_eq_some_iff.mp hr
  obtain ⟨⟨term, _⟩, hterm, hr⟩ := Option.bind_eq_some_iff.mp hr
  obtain ⟨⟨candidateId, _⟩, -, hr⟩ := Option.bind_eq_some_iff.mp hr
  obtain ⟨⟨lastLogIndex, _⟩, hindex, hr⟩ := Option.bind_eq_some_iff.mp hr
  obtain ⟨⟨lastLogTerm, _⟩, -, hr⟩ := Option.bind_eq_some_iff.mp hr
  obtain ⟨rfl, -⟩ := Prod.mk.inj (Option.some.inj hr)
  obtain ⟨rfl, -⟩ := Prod.mk.inj (Option.some.inj (hterm.symm.trans hindex))
  rfl

/-- A frame that arrives in a new buffer lies at its start. -/
theorem deliver_fresh (memory : ℕ → UInt8) (hlen : f.length < defaultBufferSize) :
    ∃ b, deliver (fresh memory) f = some b ∧ f <+: b.getBegin := by
  have hroom : (fresh memory).head + f.length ≤ (fresh memory).maxSize := by
    show 0 + f.length ≤ defaultBufferSize
    omega
  refine ⟨_, by rw [deliver, Buffer.readInto, if_pos hroom, Option.map_some], ?_⟩
  have hhead : ((fresh memory).head + f.length) % (fresh memory).maxSize = f.length := by
    show (0 + f.length) % defaultBufferSize = f.length
    rw [Nat.zero_add, Nat.mod_eq_of_lt hlen]
  obtain ⟨-, hcontents, hpre⟩ := contents_prefix (b := Buffer.advancePut { fresh memory with
    buf := fun i => if (fresh memory).head ≤ i ∧ i < (fresh memory).head + f.length
      then f.getD (i - (fresh memory).head) 0 else (fresh memory).buf i } f.length) rfl rfl
    (by rw [Buffer.advancePut, hhead]; exact hlen)
  have hf : (List.range f.length).map (fun i => if (fresh memory).head ≤ i ∧
      i < (fresh memory).head + f.length then f.getD (i - (fresh memory).head) 0
      else (fresh memory).buf i) = f := by
    apply List.ext_getElem
    · simp
    · intro i _ hi
      simp [fresh, hi]
  simp only [Buffer.advancePut, hhead] at hcontents hpre ⊢
  rwa [hcontents, hf] at hpre

theorem frame_length {x : UInt64 × Message} (hf : frame stack x = some f) :
    f.length < defaultBufferSize := by
  obtain ⟨payload, rfl, -, hle⟩ := frame_eq_some hf
  have hten := encodeUint_length_le_ten x.1.toNat_lt
  rw [List.length_append, defaultBufferSize]
  omega

/-- The id of a request that has arrived is there to be read. -/
theorem getRpcId_delivered {m : Message} (hf : frame stack (rid, m) = some f)
    (hd : deliver (fresh memory) f = some b) : getRpcId b = some rid := by
  obtain ⟨b', hd', rest, hrest⟩ := deliver_fresh memory (frame_length hf)
  obtain rfl := Option.some.inj (hd.symm.trans hd')
  obtain ⟨payload, rfl, -⟩ := frame_eq_some hf
  rw [getRpcId, ← hrest, List.append_assoc, decodeUvarint_encodeUint rid.toNat_lt]
  simp

theorem putBytes_some {s : List UInt8} {len : ℕ} (hlen : len ≤ s.length)
    (hroom : b.head + len ≤ b.maxSize) : ∃ b', b.putBytes s len = some b' := by
  simp [Buffer.putBytes, hlen, hroom]

theorem putFields_some {x : List UInt8 × ℕ} {n : ℕ} (hb : Holding b n) (htail : b.tail = 0)
    (hx : x.2 ≤ x.1.length) (hn : n + 1 + x.2 ≤ 2000) : ∃ b', putFields x b = some b' := by
  have hhead := hb.head_eq htail
  obtain ⟨b₁, h₁⟩ : ∃ b₁, b.put (UInt8.ofNat x.2) = some b₁ := by
    have hlt : b.head < b.maxSize := by
      rw [hhead, hb.capacity, defaultBufferSize]
      omega
    simp [Buffer.put, hlt]
  have hheld := hb.put (by omega) h₁
  have hhead₁ := hheld.head_eq ((Buffer.put_eq_some hb.full h₁).2.2.1.trans htail)
  obtain ⟨b₂, h₂⟩ := putBytes_some (b := b₁) hx (by
    rw [hhead₁, hheld.capacity, defaultBufferSize]
    omega)
  exact ⟨b₂, by rw [putFields, h₁, Option.bind_some, h₂]⟩

/-- A vote request can be sent. -/
theorem frame_requestVoteArgs (stack : ℕ → UInt8) (rid : UInt64) (args : RequestVoteArgs) :
    ∃ f, frame stack (rid, .requestVoteArgs args) = some f := by
  have hten := encodeUint_length_le_ten rid.toNat_lt
  have hvals : ∀ val ∈ [args.term.toNat, args.candidateId.toNat, args.lastLogIndex.toNat,
      args.lastLogIndex.toNat], val < 2 ^ 64 := by
    simpa using ⟨args.term.toNat_lt, toNat_lt_of_uint32 args.candidateId,
      args.lastLogIndex.toNat_lt⟩
  obtain ⟨-, hge⟩ := encodeFields_bytes (uninitialised stack 40) hvals
  have hbuf : 10 ≤ (uninitialised stack 40).length := by simp
  have hlen := encodeFields_length hbuf hvals
  rw [length_uninitialised] at hlen
  simp only [List.length_cons, List.length_nil] at hge
  obtain ⟨b₁, h₁⟩ : ∃ b, putRpcId rid (fresh fun _ => 0) = some b := by
    apply putBytes_some le_rfl
    show 0 + _ ≤ 65535
    omega
  have hheld := (holding_fresh fun _ => 0).putBytes (by omega) h₁
  have htail : b₁.tail = 0 := (Buffer.putBytes_eq_some h₁).2.2.2.1
  obtain ⟨b₂, h₂⟩ := putFields_some hheld htail (hge.trans_eq hlen.symm) (by omega)
  exact ⟨b₂.contents, by simp [frame, marshal, h₁, Message.write, writeRequestVoteArgs, h₂]⟩

/-- Under the empty name a request reaches its service only with an id that is 0 as an `int`, and
then the service does not get what was sent. -/
theorem not_dispatches_registered : ¬ Dispatches stack [[]] [] rid := by
  rintro ⟨-, fuel, services, -, hruns⟩
  obtain ⟨f, hf⟩ := frame_requestVoteArgs stack rid ⟨1, 0, 2, 0⟩
  obtain ⟨b, hd, -⟩ := deliver_fresh (fun _ => 0) (frame_length hf)
  obtain ⟨b', hread⟩ := hruns (fun _ => 0) _ f b hf hd
  simp only [onRead, getRpcId_delivered hf hd, Option.bind_eq_bind, Option.bind_some,
    List.mem_singleton, if_true] at hread
  split at hread
  · cases hread
  · simp only [unmarshal, getRpcId_delivered hf hd, blank, Message.read, Option.bind_eq_bind,
      Option.bind_some, Option.bind_eq_some_iff, Option.map_eq_some_iff, Option.pure_def,
      Option.some.injEq, Prod.exists, Prod.mk.injEq] at hread
    obtain ⟨-, m, c, ⟨m', c', ⟨args, c'', hargs, rfl, rfl⟩, -, rfl, rfl⟩, ⟨-, hm⟩, -⟩ := hread
    cases hm
    exact absurd (readRequestVoteArgs_eq hargs) (by decide)

end RpcServer

end AlphaDb.Network
