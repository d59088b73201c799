import AlphaDb.Lib.Trace
import AlphaDb.Raft.LogAgreement

/-! One leader's term: what it counts, what it commits, and what its followers have. -/
namespace AlphaDb.Raft

open Trace RaftServer

section Commit

variable {peers : ℕ} {s t : RaftServer peers} {k n : ℕ}

/-- In the range of `int` the search starts behind the commit index. -/
theorem updateCommitIndex_cases (h : s.commitIndex + 1 < 2 ^ 31) :
    ∃ k, s.updateCommitIndex = { s with commitIndex := k } ∧
      (k = s.commitIndex ∨
        (s.commitIndex < k ∧ k < s.logEntries.length ∧ s.majority ≤ s.matching k)) := by
  obtain ⟨k, hk, hcase⟩ := foldl_commitRound
    (List.range' (s.commitIndex + 1) (s.logEntries.length - (s.commitIndex + 1))) s
  refine ⟨k, ?_, ?_⟩
  · unfold updateCommitIndex
    rw [← hk, toInt_of_lt h]
    rfl
  · rcases hcase with rfl | ⟨hmem, hmaj⟩
    · exact Or.inl rfl
    · rw [List.mem_range'_1] at hmem
      exact Or.inr ⟨by omega, by omega, hmaj⟩

end Commit

/-- A leader and its followers. Requests and answers are never taken out, so that each may be
lost, late, or delivered twice. -/
structure Replication (peers : ℕ) where
  leader : RaftServer peers
  follower : Fin peers → RaftServer peers
  requests : List (Fin peers × AppendEntriesArgs)
  answers : List (Fin peers × Answer)

inductive ReplicationStep (peers : ℕ)
  | replicate
  | send
  | appendEntries (i : Fin peers) (args : AppendEntriesArgs)
  | receiveReply (i : Fin peers) (a : Answer)

namespace Replication

variable {peers : ℕ} {c d : Replication peers} {i : Fin peers} {n k : ℕ}

/-- One step of the term. A follower that accepts a request leaves the reply as it came, which is
a success. -/
def step (c : Replication peers) : ReplicationStep peers → Option (Replication peers)
  | .replicate => c.leader.replicate.map fun s => { c with leader := s }
  | .send => c.leader.sendAppendEntriesArgs.map fun sent =>
    { c with requests := sent ++ c.requests }
  | .appendEntries i args =>
    if (i, args) ∈ c.requests then
      ((c.follower i).appendEntries args ⟨args.term, true⟩).map fun x =>
        { c with
          follower := Function.update c.follower i x.1
          answers := (i, ⟨x.2, args, (c.follower i).logEntries⟩) :: c.answers }
    else none
  | .receiveReply i a =>
    if (i, a) ∈ c.answers then
      (c.leader.receiveAppendEntriesReply i a.reply).map fun x =>
        { c with leader := x.1, requests := x.2 ++ c.requests }
    else none

/-- A success is counted only for an entry that it acknowledges; indexes stay in the range of
`int`. -/
def CountsRightly (c : Replication peers) : ReplicationStep peers → Prop
  | .replicate => c.leader.logEntries.length + 1 < 2 ^ 31
  | .receiveReply i a => a.reply.success = true → a.Acknowledges (c.leader.matchIndex i).toNat
  | _ => True

instance : ∀ (c : Replication peers) (a : ReplicationStep peers), Decidable (c.CountsRightly a)
  | _, .replicate => inferInstanceAs (Decidable (_ < _))
  | _, .receiveReply .. => inferInstanceAs (Decidable (_ → _))
  | _, .send | _, .appendEntries .. => inferInstanceAs (Decidable True)

/-- The leader has just been elected; the followers have any logs that start with an entry 0. -/
structure Elected (c : Replication peers) : Prop where
  leader : ∃ s : RaftServer peers, c.leader = s.convertTo .leader (-1)
  log : LeaderLog c.leader.logEntries
  term : c.leader.currentTerm < 2 ^ 31
  commit : c.leader.commitIndex + 1 < 2 ^ 31
  heads : ∀ i e, (c.follower i).logEntries[0]? = some e → e.index = 0
  silent : c.requests = [] ∧ c.answers = []

/-- The followers whose log equals the leader's up to index `n`. -/
def holders (c : Replication peers) (n : ℕ) : Finset (Fin peers) :=
  Finset.univ.filter fun i => EqualUpTo c.leader.logEntries (c.follower i).logEntries n

/-- Index `n` is stored on the leader and enough followers, more than half of all servers. -/
def StoredOnMajority (c : Replication peers) (n : ℕ) : Prop :=
  n < c.leader.logEntries.length ∧ peers + 1 < 2 * (1 + (c.holders n).card)

/-- No follower is counted for more than it has, and what has been committed since the start of
the term is stored on a majority. -/
structure Accounted (start : ℕ) (c : Replication peers) : Prop where
  matched : ∀ i, ∃ m : ℕ, c.leader.matchIndex i = m ∧
    (m = 0 ∨ EqualUpTo c.leader.logEntries (c.follower i).logEntries m)
  stored : ∀ n, start < n → n ≤ c.leader.commitIndex → c.StoredOnMajority n

/-- The invariant of a term: also every message is about the leader's log. -/
structure Tracked (start : ℕ) (c : Replication peers) : Prop extends Accounted start c where
  role : c.leader.role = .leader
  log : LeaderLog c.leader.logEntries
  term : c.leader.currentTerm < 2 ^ 31
  commit : c.leader.commitIndex + 1 < 2 ^ 31
  heads : ∀ i e, (c.follower i).logEntries[0]? = some e → e.index = 0
  requests : ∀ i args, (i, args) ∈ c.requests →
    args.term = c.leader.currentTerm ∧ SentFrom c.leader.logEntries args
  answers : ∀ i a, (i, a) ∈ c.answers → a.reply.term = c.leader.currentTerm ∧
    (a.reply.success = true → a.Valid c.leader.logEntries (c.follower i).logEntries)

theorem Elected.tracked (h : Elected c) : Tracked c.leader.commitIndex c := by
  obtain ⟨s, hs⟩ := h.leader
  obtain ⟨hreq, hans⟩ := h.silent
  refine ⟨⟨?_, ?_⟩, ?_, h.log, h.term, h.commit, h.heads, ?_, ?_⟩
  · exact fun i => ⟨0, by rw [hs]; rfl, Or.inl rfl⟩
  · intro n hlt hle
    omega
  · rw [hs]
    rfl
  · simp [hreq]
  · simp [hans]

theorem StoredOnMajority.mono (h : c.StoredOnMajority k) (hn : n ≤ k) : c.StoredOnMajority n := by
  obtain ⟨hlt, hcard⟩ := h
  have hsub : c.holders k ⊆ c.holders n := by
    intro i hi
    simp only [holders, Finset.mem_filter, Finset.mem_univ, true_and] at hi ⊢
    exact hi.mono hn
  have := Finset.card_le_card hsub
  exact ⟨by omega, by omega⟩

/-- More is stored if every follower agrees as far as before. -/
theorem StoredOnMajority.of_equalUpTo (h : c.StoredOnMajority n)
    (hlen : c.leader.logEntries.length ≤ d.leader.logEntries.length)
    (heq : ∀ i, EqualUpTo c.leader.logEntries (c.follower i).logEntries n →
      EqualUpTo d.leader.logEntries (d.follower i).logEntries n) : d.StoredOnMajority n := by
  obtain ⟨hlt, hcard⟩ := h
  have hsub : c.holders n ⊆ d.holders n := by
    intro i hi
    simp only [holders, Finset.mem_filter, Finset.mem_univ, true_and] at hi ⊢
    exact heq i hi
  have := Finset.card_le_card hsub
  exact ⟨by omega, by omega⟩

/-- The followers that the leader counts, and the leader itself, are a majority. -/
theorem Tracked.storedOnMajority {start : ℕ} (h : Tracked start c) (hn : 0 < n)
    (hlt : n < c.leader.logEntries.length) (hmaj : c.leader.majority ≤ c.leader.matching n) :
    c.StoredOnMajority n := by
  have hsub : (Finset.univ.filter fun i => (n : ℤ) ≤ c.leader.matchIndex i) ⊆ c.holders n := by
    intro i hi
    simp only [holders, Finset.mem_filter, Finset.mem_univ, true_and] at hi ⊢
    obtain ⟨m, hm, hcase⟩ := h.matched i
    have hnm : n ≤ m := by omega
    exact (hcase.resolve_left (by omega)).mono hnm
  have hcard := Finset.card_le_card hsub
  simp only [majority, matching] at hmaj
  exact ⟨hlt, by omega⟩

variable {start : ℕ} {s : RaftServer peers}

/-- The leader changes nothing but what it knows of its followers. -/
theorem Tracked.setMatch (h : Tracked start c) (next : Fin peers → ℤ) {m : ℕ}
    (hm : m = 0 ∨ EqualUpTo c.leader.logEntries (c.follower i).logEntries m) :
    Tracked start { c with
      leader := { c.leader with
        nextIndex := next
        matchIndex := Function.update c.leader.matchIndex i (m : ℤ) } } := by
  refine ⟨⟨?_, h.stored⟩, h.role, h.log, h.term, h.commit, h.heads, h.requests, h.answers⟩
  intro j
  by_cases hj : j = i
  · subst hj
    exact ⟨m, by simp, hm⟩
  · obtain ⟨m', hm', hcase⟩ := h.matched j
    exact ⟨m', by simpa [hj] using hm', hcase⟩

theorem Tracked.updateCommitIndex (h : Tracked start c) :
    Tracked start { c with leader := c.leader.updateCommitIndex } := by
  obtain ⟨k, hk, hcase⟩ := updateCommitIndex_cases h.commit
  rw [hk]
  have hsize := h.log.length
  refine ⟨⟨h.matched, ?_⟩, h.role, h.log, h.term, ?_, h.heads, h.requests, h.answers⟩
  · intro n hlt hle
    rcases hcase with rfl | ⟨hgt, hk, hmaj⟩
    · exact h.stored n hlt hle
    · exact (h.storedOnMajority (by omega) hk hmaj).mono hle
  · have := h.commit
    dsimp only
    rcases hcase with rfl | ⟨-, hk, -⟩ <;> omega

/-- New messages about the leader's log. -/
theorem Tracked.addRequests (h : Tracked start c) {sent : List (Fin peers × AppendEntriesArgs)}
    (hsent : ∀ i args, (i, args) ∈ sent →
      args.term = c.leader.currentTerm ∧ SentFrom c.leader.logEntries args) :
    Tracked start { c with requests := sent ++ c.requests } := by
  refine ⟨⟨h.matched, h.stored⟩, h.role, h.log, h.term, h.commit, h.heads, ?_, h.answers⟩
  intro i args hi
  rcases List.mem_append.mp hi with hi | hi
  · exact hsent i args hi
  · exact h.requests i args hi

/-- A leader appends a client's entry at its index. -/
theorem replicate_log (hrole : s.role = .leader) {t : RaftServer peers}
    (h : s.replicate = some t) :
    ∃ k, t = { s with
      logEntries := s.logEntries ++ [⟨s.logEntries.length, s.currentTerm⟩]
      lastApplied := k } := by
  obtain ⟨hne, -⟩ | ⟨-, h⟩ := RaftServer.replicate_cases h
  · exact absurd hrole hne
  · obtain ⟨k, rfl⟩ := applyToStatemachine_eq h
    exact ⟨k, rfl⟩

theorem tracked_replicate (h : Tracked start c) (hlen : c.leader.logEntries.length + 1 < 2 ^ 31)
    (hs : c.leader.replicate = some s) : Tracked start { c with leader := s } := by
  obtain ⟨k, rfl⟩ := replicate_log h.role hs
  refine ⟨⟨?_, ?_⟩, h.role, h.log.append hlen h.term, h.term, h.commit, h.heads, ?_, ?_⟩
  · intro i
    obtain ⟨m, hm, hcase⟩ := h.matched i
    exact ⟨m, hm, hcase.imp_right EqualUpTo.append⟩
  · intro n hlt hle
    exact (h.stored n hlt hle).of_equalUpTo (by simp) fun _ => EqualUpTo.append
  · intro i args hi
    obtain ⟨hterm, hsent⟩ := h.requests i args hi
    exact ⟨hterm, hsent.append⟩
  · intro i a ha
    obtain ⟨hterm, hvalid⟩ := h.answers i a ha
    exact ⟨hterm, fun hs => (hvalid hs).append⟩

theorem tracked_appendEntries (h : Tracked start c) {args : AppendEntriesArgs}
    {r : AppendEntriesReply} (hreq : (i, args) ∈ c.requests)
    (hs : (c.follower i).appendEntries args ⟨args.term, true⟩ = some (s, r)) :
    Tracked start { c with
      follower := Function.update c.follower i s
      answers := (i, ⟨r, args, (c.follower i).logEntries⟩) :: c.answers } := by
  obtain ⟨hterm, hsent⟩ := h.requests i args hreq
  obtain ⟨hlog, hreply⟩ := appendEntries_log h.log hsent hs
  -- what holds for the follower's old log and survives a cut holds for the new one
  have hafter : ∀ P : List LogEntry → Prop, P (c.follower i).logEntries →
      (∀ q log, CutAt c.leader.logEntries (c.follower i).logEntries log q → P log) →
      P s.logEntries := by
    intro P hold hcut
    rcases hlog with hlog | ⟨q, hq⟩
    · rwa [hlog]
    · exact hcut q _ hq
  have hequal : ∀ n j, EqualUpTo c.leader.logEntries (c.follower j).logEntries n →
      EqualUpTo c.leader.logEntries (Function.update c.follower i s j).logEntries n := by
    intro n
    refine (Function.forall_update_iff c.follower fun j t =>
      EqualUpTo c.leader.logEntries (c.follower j).logEntries n →
        EqualUpTo c.leader.logEntries t.logEntries n).mpr ⟨?_, fun j _ hj => hj⟩
    exact fun hj => hafter (EqualUpTo c.leader.logEntries · n) hj fun q log hq => hj.cut hq
  have hvalid : ∀ a : Answer, a.Valid c.leader.logEntries (c.follower i).logEntries →
      a.Valid c.leader.logEntries s.logEntries :=
    fun a ha => hafter (a.Valid c.leader.logEntries) ha
      fun q log hq => ha.cut h.log.indexed hq
  have hhead : ∀ e, s.logEntries[0]? = some e → e.index = 0 := by
    refine hafter (fun log => ∀ e, log[0]? = some e → e.index = 0) (h.heads i) ?_
    intro q log hq e he
    exact h.heads i e ((hq.kept 0 hq.pos).symm.trans he)
  refine ⟨⟨?_, ?_⟩, h.role, h.log, h.term, h.commit, ?_, h.requests, ?_⟩
  · intro j
    obtain ⟨m, hm, hcase⟩ := h.matched j
    exact ⟨m, hm, hcase.imp_right (hequal m j)⟩
  · intro n hlt hle
    exact (h.stored n hlt hle).of_equalUpTo le_rfl (hequal n)
  · exact (Function.forall_update_iff c.follower fun _ t =>
      ∀ e, t.logEntries[0]? = some e → e.index = 0).mpr ⟨hhead, fun j _ => h.heads j⟩
  · intro j a ha
    dsimp only
    rcases List.mem_cons.mp ha with heq | ha
    · obtain ⟨rfl, rfl⟩ := Prod.mk.inj heq
      rw [Function.update_self]
      rcases hreply with rfl | ⟨rfl, hc⟩
      · exact ⟨hterm, fun hf => absurd hf (by simp)⟩
      · exact ⟨hterm, fun _ => hvalid _ (valid_of_continues h.log.indexed hsent hc (h.heads j))⟩
    · obtain ⟨hterm, hold⟩ := h.answers j a ha
      refine ⟨hterm, fun hok => ?_⟩
      by_cases hj : j = i
      · subst hj
        rw [Function.update_self]
        exact hvalid a (hold hok)
      · rw [Function.update_of_ne hj]
        exact hold hok

/-- A reply of the leader's term is counted, or the message is sent again from one entry
earlier. -/
theorem receiveAppendEntriesReply_current {reply : AppendEntriesReply} {t : RaftServer peers}
    {sent : List (Fin peers × AppendEntriesArgs)} (hrole : s.role = .leader)
    (hterm : reply.term = s.currentTerm)
    (h : s.receiveAppendEntriesReply i reply = some (t, sent)) :
    (reply.success = true ∧ sent = [] ∧ ∃ next, t =
      { s with
        nextIndex := next
        matchIndex := Function.update s.matchIndex i (s.matchIndex i + 1) }.updateCommitIndex) ∨
    (reply.success = false ∧ ∃ next,
      { s with nextIndex := next }.sendAppendEntriesArgs = some sent ∧
      t = { s with nextIndex := next }.updateCommitIndex) := by
  obtain ⟨hne, -⟩ | ⟨-, o, next, ho, hcase⟩ := receiveAppendEntriesReply_cases h
  · exact absurd hrole hne
  · rw [observe_of_le hterm.le] at ho
    rw [ho] at hcase
    rcases hcase with ⟨hok, hsent, ht⟩ | ⟨hfail, hsent, ht⟩
    · exact Or.inl ⟨hok, hsent, next, ht⟩
    · exact Or.inr ⟨hfail, next, hsent, ht⟩

theorem receiveAppendEntriesReply_counted {reply : AppendEntriesReply} {t : RaftServer peers}
    {sent : List (Fin peers × AppendEntriesArgs)} (hrole : s.role = .leader)
    (hterm : reply.term = s.currentTerm) (hok : reply.success = true)
    (h : s.receiveAppendEntriesReply i reply = some (t, sent)) :
    t.matchIndex i = s.matchIndex i + 1 ∧ t.logEntries = s.logEntries := by
  obtain ⟨-, -, next, heq⟩ | ⟨hfail, -⟩ := receiveAppendEntriesReply_current hrole hterm h
  · obtain ⟨k, hk⟩ := updateCommitIndex_eq { s with
      nextIndex := next
      matchIndex := Function.update s.matchIndex i (s.matchIndex i + 1) }
    rw [heq, hk]
    exact ⟨Function.update_self .., rfl⟩
  · rw [hok] at hfail
    simp at hfail

theorem tracked_receiveReply (h : Tracked start c) {a : Answer}
    {sent : List (Fin peers × AppendEntriesArgs)} (ha : (i, a) ∈ c.answers)
    (hcount : a.reply.success = true → a.Acknowledges (c.leader.matchIndex i).toNat)
    (hs : c.leader.receiveAppendEntriesReply i a.reply = some (s, sent)) :
    Tracked start { c with leader := s, requests := sent ++ c.requests } := by
  obtain ⟨hterm, hvalid⟩ := h.answers i a ha
  obtain ⟨m, hm, hcase⟩ := h.matched i
  obtain ⟨hok, rfl, next, heq⟩ | ⟨-, next, hsent, heq⟩ :=
    receiveAppendEntriesReply_current h.role hterm hs
  · have hack := hcount hok
    rw [hm, Int.toNat_natCast] at hack
    have hnew := hack.equalUpTo (hvalid hok) h.log.indexed hcase
    have hcounted := (h.setMatch next (Or.inr hnew)).updateCommitIndex
    rw [heq, hm]
    exact hcounted
  · have hkept := h.setMatch next hcase
    rw [← hm, Function.update_eq_self] at hkept
    have hsent : ∀ j args, (j, args) ∈ sent →
        args.term = c.leader.currentTerm ∧ SentFrom c.leader.logEntries args := by
      intro j args hj
      exact sendAppendEntriesArgs_sentFrom (s := { c.leader with nextIndex := next })
        h.log.indexed hsent hj
    rw [heq]
    exact (hkept.addRequests hsent).updateCommitIndex

theorem tracked_step :
    TrInv (Guarded CountsRightly step) (fun c : Replication peers => Tracked start c) := by
  rintro c a d ⟨hcount, hs⟩ h
  cases a with
  | replicate =>
    obtain ⟨s, hr, rfl⟩ := Option.map_eq_some_iff.mp hs
    exact tracked_replicate h hcount hr
  | send =>
    obtain ⟨sent, hsent, rfl⟩ := Option.map_eq_some_iff.mp hs
    exact h.addRequests fun i args hi =>
      sendAppendEntriesArgs_sentFrom h.log.indexed hsent hi
  | appendEntries i args =>
    simp only [step] at hs
    split at hs
    · next hreq =>
      obtain ⟨⟨s, r⟩, hr, rfl⟩ := Option.map_eq_some_iff.mp hs
      exact tracked_appendEntries h hreq hr
    · simp at hs
  | receiveReply i a =>
    simp only [step] at hs
    split at hs
    · next ha =>
      obtain ⟨⟨s, sent⟩, hr, rfl⟩ := Option.map_eq_some_iff.mp hs
      exact tracked_receiveReply h ha hcount hr
    · simp at hs

/-- After such a run a success whose request carried the next entry is counted rightly only if the
follower's log had it: the condition cannot be weakened for these requests. -/
theorem accounted_iff_acknowledges {steps : List (ReplicationStep peers)} {e : Replication peers}
    {a : Answer} (hc : Elected c) (hrun : MTr (Guarded CountsRightly step) c steps d)
    (hok : a.reply.success = true) (hle : a.args.prevLogIndex ≤ (d.leader.matchIndex i).toNat)
    (hlt : (d.leader.matchIndex i).toNat < a.args.prevLogIndex + a.args.logEntries.length)
    (hstep : step d (.receiveReply i a) = some e) :
    Accounted c.leader.commitIndex e ↔ a.Acknowledges (d.leader.matchIndex i).toNat := by
  have h := mTr_trInv tracked_step hrun hc.tracked
  simp only [step] at hstep
  split at hstep
  · next ha =>
    obtain ⟨⟨s, sent⟩, hs, rfl⟩ := Option.map_eq_some_iff.mp hstep
    obtain ⟨hterm, hvalid⟩ := h.answers i a ha
    obtain ⟨m, hm, -⟩ := h.matched i
    constructor
    · intro hacc
      obtain ⟨hcount, hlog⟩ := receiveAppendEntriesReply_counted h.role hterm hok hs
      rw [hm, Int.toNat_natCast] at hle hlt ⊢
      rw [hm] at hcount
      obtain ⟨m', hm', hcase⟩ := hacc.matched i
      dsimp only at hm' hcase
      rw [hcount] at hm'
      rw [hlog] at hcase
      obtain rfl : m' = m + 1 := by omega
      exact (hvalid hok).acknowledges hle hlt (hcase.resolve_left (by omega))
    · exact fun hack => (tracked_receiveReply h ha (fun _ => hack) hs).toAccounted
  · simp at hstep

/-- A leader and one follower at the start of a term; the follower's last entry, of another term,
is not the leader's. -/
def twoServers (term other : ℕ) : Replication 1 where
  leader := (restored 0 term [⟨0, 0⟩, ⟨1, 1⟩]).convertTo .leader (-1)
  follower _ := restored 1 0 [⟨0, 0⟩, ⟨1, 1⟩, ⟨2, other⟩]
  requests := []
  answers := []

/-- The follower has another entry 2. -/
def refusal (term other : ℕ) : Answer :=
  ⟨⟨term, false⟩, ⟨term, 0, 2, term, 0, []⟩, [⟨0, 0⟩, ⟨1, 1⟩, ⟨2, other⟩]⟩

/-- The follower has entry 1, and cuts its log at entry 2. -/
def acceptance (term other : ℕ) : Answer :=
  ⟨⟨term, true⟩, ⟨term, 0, 0, 0, 0, [⟨1, 1⟩, ⟨2, term⟩]⟩, [⟨0, 0⟩, ⟨1, 1⟩, ⟨2, other⟩]⟩

/-- A client's entry, a message that is refused, the refusal arriving twice, and the message from
entry 1 on that is accepted. -/
def upToAcceptance (term other : ℕ) : List (ReplicationStep 1) :=
  [.replicate, .send, .appendEntries 0 (refusal term other).args,
    .receiveReply 0 (refusal term other), .receiveReply 0 (refusal term other),
    .appendEntries 0 (acceptance term other).args]

theorem twoServers_elected {term : ℕ} (other : ℕ) (h : term < 2 ^ 31) :
    Elected (twoServers term other) where
  leader := ⟨_, rfl⟩
  log := ⟨indexed_of_map rfl, by simp [twoServers, restored, convertTo], by
    simp [twoServers, restored, convertTo]⟩
  term := h
  commit := by simp [twoServers, restored, convertTo]
  heads := by simp [twoServers, restored]
  silent := ⟨rfl, rfl⟩

end Replication

end AlphaDb.Raft
