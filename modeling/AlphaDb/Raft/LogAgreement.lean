import AlphaDb.Raft.AppendEntries

/-! How far the log of a follower agrees with its leader's, and what an accepted request says
about that. -/
namespace AlphaDb.Raft

open RaftServer

theorem mem_of_mapM_eq_some {α β : Type} {f : α → Option β} {l : List α} {bs : List β} {b : β}
    (h : l.mapM f = some bs) (hb : b ∈ bs) : ∃ a ∈ l, f a = some b := by
  induction l generalizing bs with
  | nil =>
    obtain rfl : [] = bs := by simpa using h
    simp at hb
  | cons a l ih =>
    rw [List.mapM_cons] at h
    obtain ⟨c, hc, h⟩ := Option.bind_eq_some_iff.mp h
    obtain ⟨cs, hcs, h⟩ := Option.bind_eq_some_iff.mp h
    obtain rfl := Option.some.inj h
    rcases List.mem_cons.mp hb with rfl | hb
    · exact ⟨a, List.mem_cons_self, hc⟩
    · obtain ⟨a', ha', hf⟩ := ih hcs hb
      exact ⟨a', List.mem_cons_of_mem _ ha', hf⟩

section Messages

variable {peers : ℕ} {s t : RaftServer peers} {args : AppendEntriesArgs}
  {reply r : AppendEntriesReply} {leader log log' : List LogEntry} {p q n : ℕ}

/-- A message of the leader: an entry of its log, and what follows there. -/
structure SentFrom (leader : List LogEntry) (args : AppendEntriesArgs) : Prop where
  prev : Continues leader args
  entries : ∀ (j : ℕ) e, args.logEntries[j]? = some e →
    leader[args.prevLogIndex + 1 + j]? = some e

/-- A leader's log: each entry at its index, indexes and terms in the range of `int`. -/
structure LeaderLog (log : List LogEntry) : Prop where
  indexed : Indexed log
  length : log.length < 2 ^ 31
  terms : ∀ e ∈ log, e.term < 2 ^ 31

/-- No entry stands at `p`, or one that belongs somewhere else. -/
def Unaligned (log : List LogEntry) (p : ℕ) : Prop := ∀ e, log[p]? = some e → e.index ≠ p

/-- From `q` on, where it differed from the leader's, the log has been replaced by entries that
stand at wrong places. -/
structure CutAt (leader log log' : List LogEntry) (q : ℕ) : Prop where
  pos : 0 < q
  differs : log[q]? ≠ leader[q]?
  kept : ∀ p < q, log'[p]? = log[p]?
  lost : ∀ p, q ≤ p → Unaligned log' p

theorem SentFrom.append {new : List LogEntry} (h : SentFrom leader args) :
    SentFrom (leader ++ new) args := by
  have hleft : ∀ (i : ℕ) e, leader[i]? = some e → (leader ++ new)[i]? = some e := by
    intro i e he
    rw [List.getElem?_append_left (List.getElem?_eq_some_iff.mp he).1, he]
  obtain ⟨e, he, hterm⟩ := Option.map_eq_some_iff.mp h.prev
  refine ⟨?_, fun j e he => hleft _ e (h.entries j e he)⟩
  rw [Continues, hleft _ e he, Option.map_some, hterm]

theorem LeaderLog.append {log : List LogEntry} {term : ℕ} (h : LeaderLog log)
    (hlen : log.length + 1 < 2 ^ 31) (hterm : term < 2 ^ 31) :
    LeaderLog (log ++ [⟨log.length, term⟩]) := by
  refine ⟨?_, by simpa using hlen, ?_⟩
  · intro j e he
    rcases lt_or_ge j log.length with hj | hj
    · rw [List.getElem?_append_left hj] at he
      exact h.indexed j e he
    · rw [List.getElem?_append_right hj] at he
      obtain ⟨hlt, rfl⟩ := List.getElem?_eq_some_iff.mp he
      have : j = log.length := by
        simp at hlt
        omega
      simp [this]
  · intro e he
    rcases List.mem_append.mp he with he | he
    · exact h.terms e he
    · obtain rfl := List.mem_singleton.mp he
      exact hterm

theorem SentFrom.consecutive (h : SentFrom leader args) (hl : Indexed leader) :
    Consecutive args :=
  fun j e he => hl _ e (h.entries j e he)

theorem SentFrom.length_lt (h : SentFrom leader args) :
    args.prevLogIndex + args.logEntries.length < leader.length := by
  obtain ⟨e, he, -⟩ := Option.map_eq_some_iff.mp h.prev
  have hprev := (List.getElem?_eq_some_iff.mp he).1
  by_cases hnil : args.logEntries.length = 0
  · omega
  · have hlast := h.entries (args.logEntries.length - 1) _
      (List.getElem?_eq_getElem (by omega))
    have := (List.getElem?_eq_some_iff.mp hlast).1
    omega

/-- What `send_append_entries_args` puts into a message. -/
theorem appendEntriesArgs_sentFrom {i : Fin peers} (hl : Indexed s.logEntries)
    (h : s.appendEntriesArgs i = some args) :
    args.term = s.currentTerm ∧ SentFrom s.logEntries args := by
  unfold RaftServer.appendEntriesArgs at h
  split at h
  · simp at h
  · next hpos =>
    obtain ⟨e, he, rfl⟩ := Option.map_eq_some_iff.mp h
    have hindex := hl _ e he
    refine ⟨rfl, ?_, ?_⟩
    · simp only [Continues, hindex, he, Option.map_some]
    · intro j x hx
      rw [List.getElem?_drop] at hx
      rw [← hx]
      congr 1
      dsimp only
      omega

theorem sendAppendEntriesArgs_sentFrom {sent : List (Fin peers × AppendEntriesArgs)}
    {i : Fin peers} (hl : Indexed s.logEntries) (h : s.sendAppendEntriesArgs = some sent)
    (hi : (i, args) ∈ sent) : args.term = s.currentTerm ∧ SentFrom s.logEntries args := by
  unfold RaftServer.sendAppendEntriesArgs at h
  split at h
  · obtain rfl := Option.some.inj h
    simp at hi
  · obtain ⟨k, -, hk⟩ := mem_of_mapM_eq_some h hi
    obtain ⟨args', hargs, heq⟩ := Option.map_eq_some_iff.mp hk
    obtain ⟨-, rfl⟩ := Prod.mk.inj heq
    exact appendEntriesArgs_sentFrom hl hargs

/-- A follower leaves its log alone, or cuts it where it differs from the leader's. What it then
appends never lands at its own index. -/
theorem appendEntries_log (hl : LeaderLog leader) (hsent : SentFrom leader args)
    (h : s.appendEntries args reply = some (t, r)) :
    (t.logEntries = s.logEntries ∨ ∃ q, CutAt leader s.logEntries t.logEntries q) ∧
    (r = ⟨args.term, false⟩ ∨ (r = reply ∧ Continues s.logEntries args)) := by
  by_cases hold : args.term < s.currentTerm
  · obtain ⟨rfl, rfl⟩ := RaftServer.appendEntries_of_lt hold h
    exact ⟨Or.inl rfl, Or.inl rfl⟩
  have hargs := hsent.consecutive hl.indexed
  have hlen := hsent.length_lt
  have hsize := hl.length
  obtain ⟨-, rfl, rfl⟩ | ⟨hc, rfl, index, h0, hle, hcase⟩ :=
    appendEntries_eq_some (not_lt.mp hold) h
  · exact ⟨Or.inl rfl, Or.inl rfl⟩
  refine ⟨?_, Or.inr ⟨rfl, hc⟩⟩
  rcases hcase with ⟨-, hlast, hlog⟩ | ⟨pre, e, post, he, -, hstop, hindex, hlog⟩
  · -- the index of the last entry is an offset of the message only if that starts at entry 1
    left
    have hne : args.logEntries ≠ [] := by
      intro hnil
      simp [hnil, lastIndex] at hlast
    rw [lastIndex_of_consecutive hargs hne (by omega)] at hlast
    have hindex := Option.some.inj hlast
    rw [hlog, List.drop_eq_nil_of_le (by omega), List.append_nil]
  · right
    have hej : args.logEntries[pre.length]? = some e := by simp [he]
    have hq : e.index = args.prevLogIndex + 1 + pre.length := hargs _ e hej
    have hleader := hsent.entries _ e hej
    have hlt := (List.getElem?_eq_some_iff.mp hleader).1
    have hint : toInt e.index = (e.index : ℤ) := toInt_of_lt (by omega)
    obtain ⟨-, x, hx, hterm⟩ := hstop
    rw [hint, Int.toNat_natCast] at hx
    rw [ofInt_toInt (hl.terms e (List.mem_of_getElem? hleader))] at hterm
    rw [← hindex, hint, Int.toNat_natCast] at hlog
    have hxlt := (List.getElem?_eq_some_iff.mp hx).1
    refine ⟨e.index, by omega, ?_, ?_, ?_⟩
    · rw [hx, hq, hleader]
      intro heq
      exact hterm (congrArg LogEntry.term (Option.some.inj heq))
    · intro p hp
      rw [hlog, List.getElem?_append_left (by rw [List.length_take]; omega),
        List.getElem?_take_of_lt hp]
    · intro p hp y hy
      rw [hlog, List.getElem?_append_right (by rw [List.length_take]; omega),
        List.getElem?_drop, List.length_take] at hy
      have := hargs _ y hy
      omega

/-- The follower's log equals the leader's up to index `n`. -/
def EqualUpTo (leader log : List LogEntry) (n : ℕ) : Prop :=
  n < leader.length ∧ leader.take (n + 1) = log.take (n + 1)

instance : Decidable (EqualUpTo leader log n) := inferInstanceAs (Decidable (_ ∧ _))

theorem equalUpTo_iff :
    EqualUpTo leader log n ↔ n < leader.length ∧ ∀ p ≤ n, leader[p]? = log[p]? := by
  refine and_congr_right fun _ => ?_
  constructor
  · intro h p hp
    have := congrArg (·[p]?) h
    simpa [List.getElem?_take_of_lt (Nat.lt_succ_of_le hp)] using this
  · intro h
    apply List.ext_getElem?
    intro p
    by_cases hp : p ≤ n
    · rw [List.getElem?_take_of_lt (Nat.lt_succ_of_le hp),
        List.getElem?_take_of_lt (Nat.lt_succ_of_le hp), h p hp]
    · rw [List.getElem?_take_eq_none (by omega), List.getElem?_take_eq_none (by omega)]

theorem EqualUpTo.mono (h : EqualUpTo leader log n) (hp : p ≤ n) : EqualUpTo leader log p := by
  obtain ⟨hlt, heq⟩ := equalUpTo_iff.mp h
  exact equalUpTo_iff.mpr ⟨by omega, fun k hk => heq k (hk.trans hp)⟩

theorem EqualUpTo.append {new : List LogEntry} (h : EqualUpTo leader log n) :
    EqualUpTo (leader ++ new) log n := by
  obtain ⟨hlt, heq⟩ := h
  refine ⟨by rw [List.length_append]; omega, ?_⟩
  rw [List.take_append_of_le_length (by omega), heq]

/-- A cut is behind everything that agrees. -/
theorem EqualUpTo.cut (h : EqualUpTo leader log n) (hcut : CutAt leader log log' q) :
    EqualUpTo leader log' n := by
  obtain ⟨hlt, heq⟩ := equalUpTo_iff.mp h
  refine equalUpTo_iff.mpr ⟨hlt, ?_⟩
  intro p hp
  have hpq : p < q := by
    by_contra hq
    exact hcut.differs (heq q (by omega)).symm
  rw [hcut.kept p hpq, heq p hp]

theorem EqualUpTo.aligned (h : EqualUpTo leader log n) (hl : Indexed leader) (hp : p ≤ n) :
    ¬Unaligned log p := by
  obtain ⟨hlt, heq⟩ := equalUpTo_iff.mp h
  obtain ⟨e, he⟩ : ∃ e, leader[p]? = some e := ⟨_, List.getElem?_eq_getElem (by omega)⟩
  intro hun
  exact hun e (heq p hp ▸ he) (hl p e he)

theorem Unaligned.cut (h : Unaligned log p) (hcut : CutAt leader log log' q) :
    Unaligned log' p := by
  by_cases hp : p < q
  · intro e he
    rw [hcut.kept p hp] at he
    exact h e he
  · exact hcut.lost p (not_lt.mp hp)

/-- An entry that the log shares with the leader's stays, or the log is damaged before it. -/
def Shares (log : List LogEntry) (p : ℕ) (e : LogEntry) : Prop :=
  log[p]? = some e ∨ ∃ q, 0 < q ∧ q < p ∧ Unaligned log q

theorem Shares.cut {e : LogEntry} (h : Shares log p e) (hleader : leader[p]? = some e)
    (hcut : CutAt leader log log' q) : Shares log' p e := by
  rcases h with h | ⟨k, hk, hkp, hun⟩
  · rcases lt_trichotomy p q with hp | rfl | hp
    · exact Or.inl ((hcut.kept p hp).trans h)
    · exact absurd (h.trans hleader.symm) hcut.differs
    · exact Or.inr ⟨q, hcut.pos, hp, hcut.lost q le_rfl⟩
  · exact Or.inr ⟨k, hk, hkp, hun.cut hcut⟩

end Messages

/-- A follower's reply, with the request it answers and the log that the request met. Only the
reply is sent; the rest says what it acknowledges. -/
structure Answer where
  reply : AppendEntriesReply
  args : AppendEntriesArgs
  log : List LogEntry
  deriving DecidableEq

/-- The request carried the entry after index `m`, and the follower's log had it. -/
def Answer.Acknowledges (a : Answer) (m : ℕ) : Prop :=
  a.args.prevLogIndex ≤ m ∧ m < a.args.prevLogIndex + a.args.logEntries.length ∧
    a.log[m + 1]? = a.args.logEntries[m - a.args.prevLogIndex]?

instance (a : Answer) (m : ℕ) : Decidable (a.Acknowledges m) :=
  inferInstanceAs (Decidable (_ ∧ _ ∧ _))

/-- What is known for good about an accepted request and the follower's log. -/
structure Answer.Valid (leader log : List LogEntry) (a : Answer) : Prop where
  sent : SentFrom leader a.args
  first : a.args.prevLogIndex = 0 → leader[0]? = log[0]?
  shares : ∀ (j : ℕ) e, a.args.logEntries[j]? = some e →
    a.log[a.args.prevLogIndex + 1 + j]? = some e → Shares log (a.args.prevLogIndex + 1 + j) e
  differs : ∀ (j : ℕ) e, a.args.logEntries[j]? = some e →
    a.log[a.args.prevLogIndex + 1 + j]? ≠ some e → log[a.args.prevLogIndex + 1 + j]? ≠ some e

section Answers

variable {peers : ℕ} {s t : RaftServer peers} {args : AppendEntriesArgs}
  {reply r : AppendEntriesReply} {leader log log' : List LogEntry} {a : Answer} {q m : ℕ}

theorem Answer.Valid.append {new : List LogEntry} (h : a.Valid leader log) :
    a.Valid (leader ++ new) log := by
  refine ⟨h.sent.append, ?_, h.shares, h.differs⟩
  intro hprev
  have := h.sent.length_lt
  rw [List.getElem?_append_left (by omega), h.first hprev]

theorem Answer.Valid.cut (h : a.Valid leader log) (hl : Indexed leader)
    (hcut : CutAt leader log log' q) : a.Valid leader log' := by
  refine ⟨h.sent, ?_, ?_, ?_⟩
  · intro hprev
    rw [hcut.kept 0 hcut.pos, h.first hprev]
  · intro j e he hlog
    exact (h.shares j e he hlog).cut (h.sent.entries j e he) hcut
  · intro j e he hlog hnew
    by_cases hp : a.args.prevLogIndex + 1 + j < q
    · rw [hcut.kept _ hp] at hnew
      exact h.differs j e he hlog hnew
    · exact hcut.lost _ (not_lt.mp hp) e hnew (hl _ e (h.sent.entries j e he))

/-- An answer is valid for the log as it was, before the request was handled. -/
theorem valid_of_continues (hl : Indexed leader) (hsent : SentFrom leader args)
    (hc : Continues log args) (hhead : ∀ e, log[0]? = some e → e.index = 0) :
    (Answer.mk reply args log).Valid leader log := by
  refine ⟨hsent, ?_, fun j e _ hlog => Or.inl hlog, fun j e _ hlog => hlog⟩
  intro hprev
  obtain ⟨x, hx, hxt⟩ := Option.map_eq_some_iff.mp hc
  obtain ⟨y, hy, hyt⟩ := Option.map_eq_some_iff.mp hsent.prev
  dsimp only at hprev
  rw [hprev] at hx hy
  have hxi := hhead x hx
  have hyi := hl 0 y hy
  rw [hx, hy]
  cases x
  cases y
  simp_all

/-- A reply that acknowledges the next entry is rightly counted. -/
theorem Answer.Acknowledges.equalUpTo (hack : a.Acknowledges m) (h : a.Valid leader log)
    (hl : Indexed leader) (hm : m = 0 ∨ EqualUpTo leader log m) :
    EqualUpTo leader log (m + 1) := by
  obtain ⟨hle, hlt, heq⟩ := hack
  obtain ⟨e, he⟩ : ∃ e, a.args.logEntries[m - a.args.prevLogIndex]? = some e :=
    ⟨_, List.getElem?_eq_getElem (by omega)⟩
  have hpos : a.args.prevLogIndex + 1 + (m - a.args.prevLogIndex) = m + 1 := by omega
  have hleader := h.sent.entries _ e he
  have hshares := h.shares _ e he (by rw [hpos, heq, he])
  rw [hpos] at hleader hshares
  have hlast : log[m + 1]? = some e := by
    rcases hshares with hlast | ⟨q, hq, hqm, hun⟩
    · exact hlast
    · have hm := hm.resolve_left (by omega)
      exact absurd hun (hm.aligned hl (by omega))
  refine equalUpTo_iff.mpr ⟨(List.getElem?_eq_some_iff.mp hleader).1, ?_⟩
  intro p hp
  rcases Nat.lt_or_eq_of_le hp with hp | rfl
  · rcases hm with rfl | hm
    · obtain rfl : p = 0 := by omega
      exact h.first (by omega)
    · exact (equalUpTo_iff.mp hm).2 p (by omega)
  · rw [hleader, hlast]

/-- If the request carried the entry and the follower has it now, it had it then. -/
theorem Answer.Valid.acknowledges (h : a.Valid leader log) (hle : a.args.prevLogIndex ≤ m)
    (hlt : m < a.args.prevLogIndex + a.args.logEntries.length)
    (heq : EqualUpTo leader log (m + 1)) : a.Acknowledges m := by
  refine ⟨hle, hlt, ?_⟩
  obtain ⟨e, he⟩ : ∃ e, a.args.logEntries[m - a.args.prevLogIndex]? = some e :=
    ⟨_, List.getElem?_eq_getElem (by omega)⟩
  have hpos : a.args.prevLogIndex + 1 + (m - a.args.prevLogIndex) = m + 1 := by omega
  have hleader := h.sent.entries _ e he
  have hdiffers := h.differs _ e he
  rw [hpos] at hleader hdiffers
  rw [he]
  by_contra hne
  exact hdiffers hne (((equalUpTo_iff.mp heq).2 (m + 1) le_rfl).symm.trans hleader)

end Answers

end AlphaDb.Raft
