import AlphaDb.Raft.RpcArgs

/-! What is left on a connection when a message has been written and read again. -/
namespace AlphaDb.Raft.Rpc

open Network Buffer

variable {stack : ℕ → UInt8} {b b' w w' r r' : Buffer} {m m₀ : Message} {vals : List ℕ}
  {buf : List UInt8} {x : List UInt8 × ℕ} {k bytes rest : ℕ}

@[simp] theorem length_uninitialised (stack : ℕ → UInt8) (size : ℕ) :
    (uninitialised stack size).length = size := by
  simp [uninitialised]

theorem foldl_encode (vals : List ℕ) (x : List UInt8 × ℕ) :
    (vals.foldl (fun x val => (encodeUint val ++ x.1.drop (encodeUint val).length,
      x.2 + (encodeUint val).length)) x).2 =
      x.2 + (vals.map fun val => (encodeUint val).length).sum := by
  induction vals generalizing x with
  | nil => rfl
  | cons val vals ih =>
    rw [List.foldl_cons, ih]
    simp
    omega

/-- Each field takes one to ten bytes. -/
theorem encodeFields_bytes (buf : List UInt8) (h : ∀ val ∈ vals, val < 2 ^ 64) :
    vals.length ≤ (encodeFields buf vals).2 ∧ (encodeFields buf vals).2 ≤ 10 * vals.length := by
  rw [encodeFields, foldl_encode]
  dsimp only
  induction vals with
  | nil => simp
  | cons val vals ih =>
    have hpos := encodeUint_length_pos val
    have hle := encodeUint_length_le_ten (h val List.mem_cons_self)
    have := ih fun v hv => h v (List.mem_cons_of_mem _ hv)
    simp only [List.map_cons, List.sum_cons, List.length_cons]
    omega

/-- The local array keeps its size. -/
theorem encodeFields_length (hbuf : 10 ≤ buf.length) (h : ∀ val ∈ vals, val < 2 ^ 64) :
    (encodeFields buf vals).1.length = buf.length := by
  have hfold : ∀ x : List UInt8 × ℕ, 10 ≤ x.1.length →
      (vals.foldl (fun x val => (encodeUint val ++ x.1.drop (encodeUint val).length,
        x.2 + (encodeUint val).length)) x).1.length = x.1.length := by
    induction vals with
    | nil => exact fun x _ => rfl
    | cons val vals ih =>
      intro x hx
      have hle := encodeUint_length_le_ten (h val List.mem_cons_self)
      have hlen : (encodeUint val ++ x.1.drop (encodeUint val).length).length = x.1.length := by
        rw [List.length_append, List.length_drop]
        omega
      rw [List.foldl_cons, ih fun v hv => h v (List.mem_cons_of_mem _ hv)]
      · exact hlen
      · rw [hlen]
        exact hx
  exact hfold (buf, 0) hbuf

/-- `n` bytes have been put into an empty buffer. -/
structure Holding (b : Buffer) (n : ℕ) : Prop where
  full : b.full = false
  head : b.head = (b.tail + n) % b.maxSize
  tail : b.tail < b.maxSize
  capacity : b.maxSize = defaultBufferSize
  fits : n ≤ 2000

theorem holding_of_empty (hb : b.Valid) (he : b.empty = true)
    (hcap : b.maxSize = defaultBufferSize) : Holding b 0 := by
  simp only [empty, Bool.and_eq_true, Bool.not_eq_true', beq_iff_eq] at he
  refine ⟨he.1, ?_, hb.tail, hcap, by omega⟩
  rw [Nat.add_zero, Nat.mod_eq_of_lt hb.tail, he.2]

theorem Holding.size {n : ℕ} (h : Holding b n) : b.size = n := by
  have hhead := h.head
  have htail := h.tail
  have hfits := h.fits
  rw [h.capacity, defaultBufferSize] at hhead htail
  simp only [Buffer.size, h.full, h.capacity, defaultBufferSize]
  split
  · simp_all
  · split <;> omega

theorem Holding.put {n : ℕ} {c : UInt8} (h : Holding b n) (hn : n < 2000)
    (hput : b.put c = some b') : Holding b' (n + 1) := by
  obtain ⟨hfull, hhead, htail, hmax⟩ := put_eq_some h.full hput
  have hb := h.head
  have ht := h.tail
  refine ⟨?_, ?_, by rw [htail, hmax]; exact ht, by rw [hmax, h.capacity], by omega⟩
  · rw [hfull, hb, beq_eq_false_iff_ne, h.capacity, defaultBufferSize]
    rw [h.capacity, defaultBufferSize] at ht
    omega
  · rw [hhead, hb, htail, hmax, Nat.mod_add_mod, Nat.add_assoc]

theorem Holding.putBytes {n len : ℕ} (h : Holding b n) (hn : n + len ≤ 2000)
    (hput : b.putBytes buf len = some b') : Holding b' (n + len) := by
  obtain ⟨-, hfull, hhead, htail, hmax⟩ := putBytes_eq_some hput
  refine ⟨by rw [hfull, h.full], ?_, by rw [htail, hmax]; exact h.tail,
    by rw [hmax, h.capacity], hn⟩
  rw [hhead, h.head, htail, hmax, Nat.mod_add_mod, Nat.add_assoc]

/-- `n` bytes are put into a buffer, in one or several calls. -/
inductive Puts : Buffer → ℕ → Buffer → Prop
  | refl (b : Buffer) : Puts b 0 b
  | put {b b' b'' : Buffer} {n : ℕ} {c : UInt8} :
    Puts b n b' → b'.put c = some b'' → Puts b (n + 1) b''
  | putBytes {b b' b'' : Buffer} {n len : ℕ} {s : List UInt8} :
    Puts b n b' → b'.putBytes s len = some b'' → Puts b (n + len) b''

theorem Puts.holding {n m : ℕ} (h : Puts b n b') (hb : Holding b m) (hle : m + n ≤ 2000) :
    Holding b' (m + n) := by
  induction h with
  | refl => exact hb
  | put _ hput ih => exact (ih (by omega)).put (by omega) hput
  | putBytes _ hput ih =>
    rw [← Nat.add_assoc]
    exact (ih (by omega)).putBytes (by omega) hput

theorem Holding.head_eq {n : ℕ} (h : Holding b n) (htail : b.tail = 0) : b.head = n := by
  have hfits := h.fits
  rw [h.head, htail, Nat.zero_add, h.capacity, defaultBufferSize]
  exact Nat.mod_eq_of_lt (by omega)

/-- Where nothing wraps around, the bytes that are there stay. -/
theorem Puts.buf_eq {n m i : ℕ} (h : Puts b n b') (hb : Holding b m) (htail : b.tail = 0)
    (hle : m + n ≤ 2000) (hi : i < m) : b'.buf i = b.buf i ∧ b'.tail = 0 := by
  induction h with
  | refl => exact ⟨rfl, htail⟩
  | put hputs hput ih =>
    obtain ⟨hbuf, ht⟩ := ih (by omega)
    have hheld := hputs.holding hb (by omega)
    have hhead := hheld.head_eq ht
    refine ⟨?_, (put_eq_some hheld.full hput).2.2.1.trans ht⟩
    unfold Buffer.put at hput
    split at hput
    · obtain rfl := Option.some.inj hput
      exact (Function.update_of_ne (by omega) ..).trans hbuf
    · cases hput
  | putBytes hputs hput ih =>
    obtain ⟨hbuf, ht⟩ := ih (by omega)
    have hhead := (hputs.holding hb (by omega)).head_eq ht
    refine ⟨?_, (putBytes_eq_some hput).2.2.2.1.trans ht⟩
    unfold Buffer.putBytes at hput
    split at hput
    · obtain rfl := Option.some.inj hput
      exact (if_neg (by omega)).trans hbuf
    · cases hput

theorem putFields_puts (h : putFields x b = some b') : Puts b (1 + x.2) b' := by
  obtain ⟨b₁, h₁, h₂⟩ := Option.bind_eq_some_iff.mp h
  have hone : Puts b (0 + 1) b₁ := (Puts.refl b).put h₁
  exact hone.putBytes h₂

/-- How many characters the reader of a message takes before and behind its fields. -/
def Message.lengths : Message → ℕ
  | .requestVoteArgs _ | .requestVoteReply _ | .appendEntriesReply _ => 2
  | .appendEntriesArgs _ => 4
  | .log _ => 1

theorem toNat_lt_of_uint32 (v : UInt32) : v.toNat < 2 ^ 64 := v.toNat_lt.trans (by norm_num)

theorem toNat_lt_of_uint8 (v : UInt8) : v.toNat < 2 ^ 64 := v.toNat_lt.trans (by norm_num)

/-- Fields that are put behind their length. -/
theorem putFields_encode (hvals : ∀ val ∈ vals, val < 2 ^ 64) (htwo : 2 ≤ vals.length)
    (hfour : vals.length ≤ 4) (h : putFields (encodeFields buf vals) b = some b') :
    ∃ n, Puts b n b' ∧ 2 < n ∧ n ≤ 1500 := by
  obtain ⟨hle, hge⟩ := encodeFields_bytes buf hvals
  exact ⟨_, putFields_puts h, by omega, by omega⟩

theorem writeReply_puts {term : UInt64} {flag : UInt8}
    (h : writeReply stack term flag w = some w') : ∃ n, Puts w n w' ∧ 2 < n ∧ n ≤ 1500 := by
  have hvals : ∀ val ∈ [term.toNat, flag.toNat], val < 2 ^ 64 := by
    simpa using ⟨term.toNat_lt, toNat_lt_of_uint8 flag⟩
  exact putFields_encode hvals (by simp) (by simp) h

theorem log_fields_lt (entries : List Log) :
    ∀ val ∈ entries.flatMap fun e => [e.index.toNat, e.term.toNat], val < 2 ^ 64 := by
  intro val hval
  obtain ⟨e, -, he⟩ := List.mem_flatMap.mp hval
  rcases List.mem_pair.mp he with rfl | rfl
  · exact e.index.toNat_lt
  · exact e.term.toNat_lt

/-- A message takes more room than what its reader takes for lengths. -/
theorem write_puts (h : m.write stack w = some w') :
    ∃ n, Puts w n w' ∧ m.lengths < n ∧ n ≤ 1500 := by
  cases m with
  | requestVoteArgs args =>
    have hvals : ∀ val ∈ [args.term.toNat, args.candidateId.toNat, args.lastLogIndex.toNat,
        args.lastLogIndex.toNat], val < 2 ^ 64 := by
      simpa using ⟨args.term.toNat_lt, toNat_lt_of_uint32 args.candidateId,
        args.lastLogIndex.toNat_lt⟩
    exact putFields_encode hvals (by simp) (by simp) h
  | requestVoteReply args => exact writeReply_puts h
  | appendEntriesReply args => exact writeReply_puts h
  | appendEntriesArgs args =>
    have hvals : ∀ val ∈ [args.term.toNat, args.leaderId.toNat, args.prevLogIndex.toNat,
        args.prevLogTerm.toNat, args.leaderCommit.toNat], val < 2 ^ 64 := by
      simpa using ⟨args.term.toNat_lt, toNat_lt_of_uint8 args.leaderId,
        args.prevLogIndex.toNat_lt, args.prevLogTerm.toNat_lt, args.leaderCommit.toNat_lt⟩
    obtain ⟨hle, hge⟩ := encodeFields_bytes (uninitialised stack 50) hvals
    simp only [List.length_cons, List.length_nil] at hle hge
    obtain ⟨b₁, h₁, h⟩ := Option.bind_eq_some_iff.mp h
    obtain ⟨b₂, h₂, h⟩ := Option.bind_eq_some_iff.mp h
    obtain ⟨b₃, h₃, h₄⟩ := Option.bind_eq_some_iff.mp h
    -- what does not fit the second array is read past its end
    have hfit := (putBytes_eq_some h₄).1
    rw [encodeFields_length (by simp) (log_fields_lt _), length_uninitialised] at hfit
    refine ⟨_, (((Puts.refl w).put h₁).put h₂ |>.putBytes h₃).putBytes h₄, ?_, ?_⟩
    · simp only [Message.lengths]
      omega
    · omega
  | log args =>
    have hvals : ∀ val ∈ [args.index.toNat, args.term.toNat], val < 2 ^ 64 := by
      simpa using ⟨args.index.toNat_lt, args.term.toNat_lt⟩
    obtain ⟨hle, hge⟩ := encodeFields_bytes (uninitialised stack 20) hvals
    simp only [List.length_cons, List.length_nil] at hle hge
    obtain ⟨b₁, h₁, h⟩ := Option.bind_eq_some_iff.mp h
    obtain ⟨b₂, h₂, h₃⟩ := Option.bind_eq_some_iff.mp h
    refine ⟨_, (((Puts.refl w).put h₁).put h₂).putBytes h₃, ?_, ?_⟩
    · simp only [Message.lengths]
      omega
    · omega

theorem write_size (hw : Holding w 0) (h : m.write stack w = some w') :
    m.lengths < w'.size ∧ w'.size ≤ 2000 := by
  obtain ⟨n, hputs, hlt, hle⟩ := write_puts h
  have hheld := hputs.holding hw (by omega)
  rw [Nat.zero_add] at hheld
  rw [hheld.size]
  exact ⟨hlt, hheld.fits⟩

/-- The buffer after `k` characters have been taken. -/
def taken (b : Buffer) (k : ℕ) : Buffer :=
  { b with full := false, tail := (b.tail + k) % b.maxSize }

/-- What a reader leaves: some characters are taken, and then some may be put back. -/
def Rewound (b : Buffer) (k : ℕ) (b' : Buffer) : Prop :=
  b' = taken b k ∨ ∃ bytes, 0 < bytes ∧ bytes ≤ 10 ∧ b' = (taken b k).unget (bytes + 2)

theorem rewound_rewind (len : ℤ) {data : List UInt8} {val : ℕ}
    (h : decodeUvarint data = some (val, bytes)) : Rewound b k (rewind (taken b k) bytes len) := by
  obtain ⟨hpos, hle⟩ := decodeUvarint_bytes h
  unfold rewind
  split
  · exact Or.inr ⟨bytes, hpos, hle, rfl⟩
  · exact Or.inl rfl

theorem getBytes_taken {s s' : List UInt8} (hsize : 2 ≤ b.size)
    (h : b.getBytes s 2 = some (s', b')) : b' = taken b 2 := by
  rcases getBytes_cases h with ⟨hlt, -⟩ | rfl
  · omega
  · rfl

theorem readRequestVoteArgs_rewound {args : RequestVoteArgs} (hsize : 2 ≤ r.size)
    (h : readRequestVoteArgs r = some (args, r')) : Rewound r 2 r' := by
  obtain ⟨⟨len, b⟩, hlen, h⟩ := Option.bind_eq_some_iff.mp h
  obtain rfl := getBytes_taken hsize hlen
  obtain ⟨⟨term, _⟩, -, h⟩ := Option.bind_eq_some_iff.mp h
  obtain ⟨⟨candidateId, _⟩, -, h⟩ := Option.bind_eq_some_iff.mp h
  obtain ⟨⟨lastLogIndex, _⟩, -, h⟩ := Option.bind_eq_some_iff.mp h
  obtain ⟨⟨lastLogTerm, bytes⟩, hlast, h⟩ := Option.bind_eq_some_iff.mp h
  obtain ⟨-, rfl⟩ := Prod.mk.inj (Option.some.inj h)
  exact rewound_rewind _ hlast

theorem readReply_rewound {α : Type} {mk : UInt64 → UInt8 → α} {args : α} (hsize : 2 ≤ r.size)
    (h : readReply mk r = some (args, r')) : Rewound r 2 r' := by
  obtain ⟨⟨len, b⟩, hlen, h⟩ := Option.bind_eq_some_iff.mp h
  obtain rfl := getBytes_taken hsize hlen
  obtain ⟨⟨term, _⟩, -, h⟩ := Option.bind_eq_some_iff.mp h
  obtain ⟨⟨flag, bytes⟩, hlast, h⟩ := Option.bind_eq_some_iff.mp h
  obtain ⟨-, rfl⟩ := Prod.mk.inj (Option.some.inj h)
  exact rewound_rewind _ hlast

/-- The second length is taken too, if it is there. -/
theorem readAppendEntriesArgs_rewound {args₀ args : AppendEntriesArgs} (hsize : 2 ≤ r.size)
    (h : readAppendEntriesArgs args₀ r = some (args, r')) : Rewound r 2 r' ∨ Rewound r 4 r' := by
  obtain ⟨⟨len, b⟩, hlen, h⟩ := Option.bind_eq_some_iff.mp h
  obtain rfl := getBytes_taken hsize hlen
  obtain ⟨⟨term, _⟩, -, h⟩ := Option.bind_eq_some_iff.mp h
  obtain ⟨⟨leaderId, _⟩, -, h⟩ := Option.bind_eq_some_iff.mp h
  obtain ⟨⟨prevLogIndex, _⟩, -, h⟩ := Option.bind_eq_some_iff.mp h
  obtain ⟨⟨prevLogTerm, _⟩, -, h⟩ := Option.bind_eq_some_iff.mp h
  obtain ⟨⟨leaderCommit, bytes⟩, hlast, h⟩ := Option.bind_eq_some_iff.mp h
  obtain ⟨⟨len2, b⟩, hlen2, h⟩ := Option.bind_eq_some_iff.mp h
  obtain ⟨-, rfl⟩ := Prod.mk.inj (Option.some.inj h)
  rcases getBytes_cases hlen2 with ⟨-, rfl⟩ | rfl
  · exact Or.inl (rewound_rewind _ hlast)
  · right
    have htwice : taken (taken r 2) 2 = taken r 4 := by simp [taken, Nat.add_assoc]
    have := rewound_rewind (b := r) (k := 4) 0 hlast
    rw [← htwice] at this
    exact this

theorem readLog_rewound {args : Log} (hsize : 2 ≤ r.size)
    (h : readLog r = some (args, r')) : Rewound r 1 r' := by
  obtain ⟨⟨len, b⟩, hlen, h⟩ := Option.bind_eq_some_iff.mp h
  obtain ⟨⟨index, _⟩, -, h⟩ := Option.bind_eq_some_iff.mp h
  obtain ⟨⟨term, bytes⟩, hlast, h⟩ := Option.bind_eq_some_iff.mp h
  obtain ⟨-, rfl⟩ := Prod.mk.inj (Option.some.inj h)
  rcases get_cases hlen with ⟨he, -⟩ | rfl
  · rw [size_of_empty he] at hsize
    omega
  · exact rewound_rewind _ hlast

/-- No reader takes or puts back what the message is long. -/
theorem read_rewound (hsize : 2 ≤ r.size) (h : m₀.read r = some (m, r')) :
    ∃ k, 0 < k ∧ k ≤ m.lengths ∧ Rewound r k r' := by
  cases m₀ with
  | requestVoteArgs _ =>
    obtain ⟨⟨args, b⟩, hread, heq⟩ := Option.map_eq_some_iff.mp h
    obtain ⟨rfl, rfl⟩ := Prod.mk.inj heq
    exact ⟨2, by norm_num, le_rfl, readRequestVoteArgs_rewound hsize hread⟩
  | requestVoteReply _ =>
    obtain ⟨⟨args, b⟩, hread, heq⟩ := Option.map_eq_some_iff.mp h
    obtain ⟨rfl, rfl⟩ := Prod.mk.inj heq
    exact ⟨2, by norm_num, le_rfl, readReply_rewound hsize hread⟩
  | appendEntriesArgs _ =>
    obtain ⟨⟨args, b⟩, hread, heq⟩ := Option.map_eq_some_iff.mp h
    obtain ⟨rfl, rfl⟩ := Prod.mk.inj heq
    rcases readAppendEntriesArgs_rewound hsize hread with hr | hr
    · exact ⟨2, by norm_num, by simp [Message.lengths], hr⟩
    · exact ⟨4, by norm_num, le_rfl, hr⟩
  | appendEntriesReply _ =>
    obtain ⟨⟨args, b⟩, hread, heq⟩ := Option.map_eq_some_iff.mp h
    obtain ⟨rfl, rfl⟩ := Prod.mk.inj heq
    exact ⟨2, by norm_num, le_rfl, readReply_rewound hsize hread⟩
  | log _ =>
    obtain ⟨⟨args, b⟩, hread, heq⟩ := Option.map_eq_some_iff.mp h
    obtain ⟨rfl, rfl⟩ := Prod.mk.inj heq
    exact ⟨1, by norm_num, le_rfl, readLog_rewound hsize hread⟩

/-- `2 ^ 64` is 1 more than a multiple of the default size, so an `unget` that passes the start of
the array goes one cell too few back. -/
theorem unget_tail {t s : ℕ} (ht : t < 65535) (hs : s ≤ 12) :
    (s ≤ t ∧ ((t + 2 ^ 64 - s) % 2 ^ 64) % 65535 = t - s) ∨
      (t < s ∧ ((t + 2 ^ 64 - s) % 2 ^ 64) % 65535 = (t + 65536 - s) % 65535) := by
  rcases le_or_gt s t with h | h
  · refine Or.inl ⟨h, ?_⟩
    have : t + 2 ^ 64 - s = 2 ^ 64 + (t - s) := by omega
    rw [this, Nat.add_mod_left]
    omega
  · refine Or.inr ⟨h, ?_⟩
    have : t + 2 ^ 64 - s < 2 ^ 64 := by omega
    rw [Nat.mod_eq_of_lt this]
    omega

/-- On a ring of the default size, taking a few characters and putting a few back never amounts
to taking a whole message. -/
theorem Rewound.size_ne {n : ℕ} (h : Rewound r k r') (hr : r.Valid)
    (hcap : r.maxSize = defaultBufferSize) (hk : 0 < k) (hkn : k < n) (hn : n ≤ 2000)
    (hsize : r.size = n + rest) : r'.size ≠ rest := by
  have hhead := hr.head
  have htail := hr.tail
  have hfull := hr.full
  rw [hcap, defaultBufferSize] at hhead htail
  have hpos : r.head = (r.tail + n + rest) % 65535 := by
    unfold Buffer.size at hsize
    rw [hcap, defaultBufferSize] at hsize
    split at hsize
    · next hf =>
      have := hfull hf
      omega
    · split at hsize <;> omega
  have hsmall : n + rest ≤ 65535 := by
    unfold Buffer.size at hsize
    rw [hcap, defaultBufferSize] at hsize
    split at hsize
    · omega
    · split at hsize <;> omega
  have htaken : (taken r k).size ≠ rest := by
    simp only [taken, Buffer.size, hcap, defaultBufferSize]
    split
    · simp_all
    · split <;> omega
  rcases h with rfl | ⟨bytes, hpos, hle, rfl⟩
  · exact htaken
  · unfold unget
    split
    · exact htaken
    · have ht : (r.tail + k) % 65535 < 65535 := Nat.mod_lt _ (by norm_num)
      simp only [taken, Buffer.size, hcap, defaultBufferSize, Bool.false_eq_true, if_false]
      rcases unget_tail ht (by omega : bytes + 2 ≤ 12) with ⟨hge, heq⟩ | ⟨hlt, heq⟩
      · rw [heq]
        split <;> omega
      · rw [heq]
        split <;> omega

/-- Written to `w` and read from `r` into an object `m₀`, the message is the same, and just `rest`
is left to read. -/
def RoundTrips (stack : ℕ → UInt8) (m : Message) (w : Buffer) (m₀ : Message) (r : Buffer)
    (rest : List UInt8) : Prop :=
  ∃ w' r', m.write stack w = some w' ∧ m₀.read r = some (m, r') ∧ r'.contents = rest

/-- No message of any type ever makes the round trip, whatever follows it. -/
theorem not_roundTrips {rest : List UInt8} (hw : w.Valid) (hempty : w.empty = true)
    (hcap : w.maxSize = defaultBufferSize) (hr : r.Valid) (hrcap : r.maxSize = defaultBufferSize)
    (hheld : ∀ w', m.write stack w = some w' → r.contents = w'.contents ++ rest) :
    ¬RoundTrips stack m w m₀ r rest := by
  rintro ⟨w', r', hwrite, hread, hrest⟩
  obtain ⟨hlt, hle⟩ := write_size (holding_of_empty hw hempty hcap) hwrite
  have hsize : r.size = w'.size + rest.length := by
    have := congrArg List.length (hheld w' hwrite)
    simpa using this
  have hpos : 0 < m.lengths := by
    cases m <;> simp [Message.lengths]
  obtain ⟨k, hk, hkle, hrewound⟩ := read_rewound (by omega) hread
  apply hrewound.size_ne hr hrcap hk (hkle.trans_lt hlt) hle hsize
  rw [← hrest, length_contents]

/-- A connection's buffer with nothing in it. -/
def cleared : Buffer := ⟨fun _ => 0, false, 0, 0, defaultBufferSize⟩

theorem cleared_valid : cleared.Valid := ⟨by decide, by decide, by decide⟩

/-- A request with one entry, and a byte behind it. -/
theorem not_roundTrips_one_entry :
    ∃ w' r, Message.write (fun _ => 0) (.appendEntriesArgs ⟨1, 2, 3, 1, 2, [⟨4, 1⟩]⟩) cleared =
        some w' ∧ r.contents = w'.contents ++ [9] ∧
      ¬RoundTrips (fun _ => 0) (.appendEntriesArgs ⟨1, 2, 3, 1, 2, [⟨4, 1⟩]⟩) cleared
        (.appendEntriesArgs ⟨0, 0, 0, 0, 0, []⟩) r [9] := by
  have h : ((Message.write (fun _ => 0) (.appendEntriesArgs ⟨1, 2, 3, 1, 2, [⟨4, 1⟩]⟩)
      cleared).bind fun w => (w.put 9).map fun r => (w, r)).any (fun x =>
        x.2.contents = x.1.contents ++ [9] ∧ x.2.full = false ∧ x.2.head < x.2.maxSize ∧
          x.2.tail < x.2.maxSize ∧ x.2.maxSize = defaultBufferSize) = true := by
    decide +kernel
  obtain ⟨⟨w', r⟩, hx, hp⟩ := (Option.any_eq_true _ _).mp h
  obtain ⟨w₁, hw, hput⟩ := Option.bind_eq_some_iff.mp hx
  obtain ⟨r₁, -, heq⟩ := Option.map_eq_some_iff.mp hput
  obtain ⟨rfl, rfl⟩ := Prod.mk.inj heq
  obtain ⟨hheld, hfull, hhead, htail, hcap⟩ := of_decide_eq_true hp
  refine ⟨_, _, hw, hheld, ?_⟩
  have hvalid : r₁.Valid :=
    ⟨hhead, htail, fun hf => absurd (hfull.symm.trans hf) (by decide)⟩
  refine not_roundTrips cleared_valid rfl rfl hvalid hcap ?_
  intro w'' hw''
  rw [hw] at hw''
  obtain rfl := Option.some.inj hw''
  exact hheld

/-- A granted vote of term 1 is written as a length, the last field and a byte of the stack; it is
read from that byte on, as no vote in term 0, and the byte is left over. -/
theorem reply_misread :
    ∃ w' r', Message.write (fun _ => 0) (.requestVoteReply ⟨1, 1⟩) cleared = some w' ∧
      w'.contents = [2, 1, 0] ∧
      Message.read w' (.requestVoteReply ⟨0, 0⟩) = some (.requestVoteReply ⟨0, 0⟩, r') ∧
      r'.contents = [0] ∧
      ¬RoundTrips (fun _ => 0) (.requestVoteReply ⟨1, 1⟩) cleared (.requestVoteReply ⟨0, 0⟩) w'
        [] := by
  have h : ((Message.write (fun _ => 0) (.requestVoteReply ⟨1, 1⟩) cleared).bind fun w =>
      (Message.read w (.requestVoteReply ⟨0, 0⟩)).map fun r => (w, r)).any (fun x =>
        x.1.contents = [2, 1, 0] ∧ x.2.1 = .requestVoteReply ⟨0, 0⟩ ∧ x.2.2.contents = [0]) =
      true := by
    decide +kernel
  obtain ⟨⟨w', m, r'⟩, hx, hp⟩ := (Option.any_eq_true _ _).mp h
  obtain ⟨w₁, hw, hmap⟩ := Option.bind_eq_some_iff.mp hx
  obtain ⟨x, hread, heq⟩ := Option.map_eq_some_iff.mp hmap
  obtain ⟨rfl, rfl⟩ := Prod.mk.inj heq
  obtain ⟨hwritten, rfl, hleft⟩ := of_decide_eq_true hp
  refine ⟨_, r', hw, hwritten, hread, hleft, ?_⟩
  rintro ⟨w'', r'', -, hread', -⟩
  rw [hread] at hread'
  simp at hread'

end AlphaDb.Raft.Rpc
