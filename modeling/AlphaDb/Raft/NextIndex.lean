import AlphaDb.Lib.Trace
import AlphaDb.Raft.Calls

/-! Where a leader looks up its log for a follower (`next_index_`): it starts behind the log, and
moves with every reply, whatever was sent. -/
namespace AlphaDb.Raft

open Trace RaftServer

/-- What a leader does: it takes an entry, sends to its followers, or gets a reply. -/
inductive LeaderStep (peers : ℕ)
  | replicate (func : LogEntry → Bool)
  | send
  | reply (i : Fin peers) (reply : AppendEntriesReply)

/-- A leader, with what has happened since it was elected: the size that its log had then, how many
entries it has appended, and the replies of each follower that it has counted. -/
structure Leadership (peers : ℕ) where
  server : RaftServer peers
  start : ℕ
  appended : ℕ
  successes : Fin peers → ℕ
  failures : Fin peers → ℕ

namespace Leadership

variable {peers : ℕ} {s u : RaftServer peers} {r r' : Leadership peers} {a : LeaderStep peers}
  {i : Fin peers}

/-- Every `next_index_` is in the range of an `int`. -/
def Fits (s : RaftServer peers) : Prop :=
  ∀ i, -2 ^ 31 ≤ s.nextIndex i ∧ s.nextIndex i < 2 ^ 31

instance (s : RaftServer peers) : Decidable (Fits s) := inferInstanceAs (Decidable (∀ _, _))

/-- A server is elected. -/
def elect (s : RaftServer peers) : Option (Leadership peers) :=
  if Fits (s.convertTo .leader (-1)) then
    some ⟨s.convertTo .leader (-1), s.logEntries.length, 0, fun _ => 0, fun _ => 0⟩
  else none

/-- The counters after a call; a server that has stepped down counts nothing. -/
def count (r : Leadership peers) (s : RaftServer peers) : LeaderStep peers → Leadership peers
  | .replicate _ => { r with server := s, appended := r.appended + 1 }
  | .send => { r with server := s }
  | .reply i reply =>
    if reply.success then
      { r with server := s, successes := Function.update r.successes i (r.successes i + 1) }
    else { r with server := s, failures := Function.update r.failures i (r.failures i + 1) }

/-- The server after a call, where the source is defined. -/
def call (s : RaftServer peers) : LeaderStep peers → Option (RaftServer peers)
  | .replicate func => (s.setApplyFunc func).replicate
  | .send => s.sendAppendEntriesArgs.map fun _ => s
  | .reply i reply => (s.receiveAppendEntriesReply i reply).map Prod.fst

def step (r : Leadership peers) (a : LeaderStep peers) : Option (Leadership peers) :=
  (call r.server a).bind fun s =>
    if Fits s then some (if r.server.role = .leader then r.count s a else { r with server := s })
    else none

/-- The server as it is when the step calls `send_append_entries_args`, if it does. -/
def sender (s : RaftServer peers) : LeaderStep peers → Option (RaftServer peers)
  | .replicate _ => none
  | .send => some s
  | .reply i reply =>
    if s.role ≠ .leader then none
    else
      let s := s.observe reply.term
      if reply.success then none
      else some { s with nextIndex := Function.update s.nextIndex i (s.nextIndex i - 1) }

/-- When a leader sends and has a log, every `next_index_` is from one to the size of the log. -/
def SendsInRange (s : RaftServer peers) (a : LeaderStep peers) : Prop :=
  ∀ u ∈ sender s a, u.role = .leader → u.logEntries ≠ [] →
    ∀ i, 1 ≤ u.nextIndex i ∧ u.nextIndex i ≤ u.logEntries.length

/-- The failures of each follower that are counted when the step sends. -/
def failuresAt (r : Leadership peers) : LeaderStep peers → Fin peers → ℕ
  | .reply i _ => Function.update r.failures i (r.failures i + 1)
  | _ => r.failures

/-- When a leader sends and has a log, the size of the log at the election, as an `int`, and the
successes of a follower are together no fewer than its failures, and fewer than these and the
entries of the log together. -/
def Balanced (r : Leadership peers) (a : LeaderStep peers) : Prop :=
  ∀ u ∈ sender r.server a, u.role = .leader → u.logEntries ≠ [] →
    ∀ i, r.failuresAt a i ≤ toInt r.start + r.successes i ∧
      toInt r.start + r.successes i < r.failuresAt a i + (r.start + r.appended)

/-- The log has grown by what was appended, and `next_index_` has followed the replies. -/
structure Counted (r : Leadership peers) : Prop where
  length : r.server.logEntries.length = r.start + r.appended
  next : ∀ i, r.server.nextIndex i = toInt r.start + 1 + r.successes i - r.failures i

theorem exists_mapM_eq_some {α β : Type} {f : α → Option β} {l : List α} :
    (∃ bs, l.mapM f = some bs) ↔ ∀ a ∈ l, ∃ b, f a = some b := by
  induction l with
  | nil => simp
  | cons a l ih =>
    rw [List.forall_mem_cons, ← ih]
    constructor
    · rintro ⟨bs, h⟩
      rw [List.mapM_cons] at h
      obtain ⟨b, hb, h⟩ := Option.bind_eq_some_iff.mp h
      obtain ⟨cs, hcs, -⟩ := Option.bind_eq_some_iff.mp h
      exact ⟨⟨b, hb⟩, cs, hcs⟩
    · rintro ⟨⟨b, hb⟩, cs, hcs⟩
      exact ⟨b :: cs, by rw [List.mapM_cons, hb, hcs]; rfl⟩

/-- What a leader looks up is inside its log exactly if every `next_index_` is in range. -/
theorem sendAppendEntriesArgs_defined (hrole : u.role = .leader) :
    (∃ sent, u.sendAppendEntriesArgs = some sent) ↔
      ∀ i, 1 ≤ u.nextIndex i ∧ u.nextIndex i ≤ u.logEntries.length := by
  rw [sendAppendEntriesArgs, if_neg (not_not.mpr hrole), exists_mapM_eq_some]
  have hone : ∀ i, (∃ b, (u.appendEntriesArgs i).map (fun args => (i, args)) = some b) ↔
      1 ≤ u.nextIndex i ∧ u.nextIndex i ≤ u.logEntries.length := by
    intro i
    unfold appendEntriesArgs
    split
    · next hle =>
      refine iff_of_false (by simp) ?_
      omega
    · next hpos =>
      rw [Option.map_map]
      constructor
      · rintro ⟨b, hb⟩
        obtain ⟨e, he, -⟩ := Option.map_eq_some_iff.mp hb
        have := (List.getElem?_eq_some_iff.mp he).1
        omega
      · rintro ⟨-, hle⟩
        have hlt : (u.nextIndex i - 1).toNat < u.logEntries.length := by omega
        rw [List.getElem?_eq_getElem hlt]
        exact ⟨_, rfl⟩
  constructor
  · intro h i
    exact (hone i).mp (h i (List.mem_finRange i))
  · intro h i _
    exact (hone i).mpr (h i)

theorem counted_elect (h : elect s = some r) : Counted r := by
  unfold elect at h
  split at h
  · obtain rfl := Option.some.inj h
    exact ⟨rfl, fun _ => by simp [convertTo]⟩
  · cases h

theorem update_add {M : Type} [AddMonoid M] (f : Fin peers → M) (i j : Fin peers) (d : M) :
    Function.update f i (f i + d) j = f j + if j = i then d else 0 := by
  obtain rfl | hne := eq_or_ne j i
  · rw [Function.update_self, if_pos rfl]
  · rw [Function.update_of_ne hne, if_neg hne, add_zero]

theorem observe_eq (s : RaftServer peers) (term : ℕ) :
    (s.observe term).logEntries = s.logEntries ∧ (s.observe term).nextIndex = s.nextIndex := by
  unfold observe
  split <;> exact ⟨rfl, rfl⟩

theorem updateCommitIndex_keeps (s : RaftServer peers) :
    s.updateCommitIndex.logEntries = s.logEntries ∧
      s.updateCommitIndex.nextIndex = s.nextIndex := by
  obtain ⟨k, hk⟩ := s.updateCommitIndex_eq
  rw [hk]
  exact ⟨rfl, rfl⟩

/-- A leader that sends has the log and the counts of the state before the step. -/
theorem sender_counted (h : Counted r) (hu : sender r.server a = some u) :
    u.logEntries.length = r.start + r.appended ∧
      ∀ i, u.nextIndex i = toInt r.start + 1 + r.successes i - r.failuresAt a i := by
  cases a with
  | replicate func => cases hu
  | send =>
    obtain rfl := Option.some.inj hu
    exact ⟨h.length, h.next⟩
  | reply k reply =>
    simp only [sender] at hu
    split at hu
    · cases hu
    · split at hu
      · cases hu
      · obtain rfl := Option.some.inj hu
        obtain ⟨hlog, hnext⟩ := observe_eq r.server reply.term
        refine ⟨by dsimp only; rw [hlog, h.length], ?_⟩
        intro i
        dsimp only [failuresAt]
        rw [hnext, sub_eq_add_neg, update_add, update_add, h.next]
        split <;> omega

/-- A reply that a leader counts leaves the log, and moves one `next_index_`. -/
theorem receiveAppendEntriesReply_nextIndex {t : RaftServer peers} {reply : AppendEntriesReply}
    {sent : List (Fin peers × AppendEntriesArgs)} (hrole : s.role = .leader)
    (h : s.receiveAppendEntriesReply i reply = some (t, sent)) :
    t.logEntries = s.logEntries ∧ t.nextIndex = Function.update s.nextIndex i
      (if reply.success then s.nextIndex i + 1 else s.nextIndex i - 1) := by
  obtain ⟨hlog, hnext⟩ := observe_eq s reply.term
  unfold receiveAppendEntriesReply at h
  rw [if_neg (not_not.mpr hrole)] at h
  dsimp only at h
  split at h
  · next hok =>
    obtain ⟨rfl, -⟩ := Prod.mk.inj (Option.some.inj h)
    obtain ⟨hlog', hnext'⟩ := updateCommitIndex_keeps { s.observe reply.term with
      nextIndex := Function.update (s.observe reply.term).nextIndex i
        ((s.observe reply.term).nextIndex i + 1)
      matchIndex := Function.update (s.observe reply.term).matchIndex i
        ((s.observe reply.term).matchIndex i + 1) }
    rw [hlog', hnext', if_pos hok, ← hnext]
    exact ⟨hlog, rfl⟩
  · next hfail =>
    obtain ⟨sent', -, heq⟩ := Option.map_eq_some_iff.mp h
    obtain ⟨rfl, -⟩ := Prod.mk.inj heq
    obtain ⟨hlog', hnext'⟩ := updateCommitIndex_keeps { s.observe reply.term with
      nextIndex := Function.update (s.observe reply.term).nextIndex i
        ((s.observe reply.term).nextIndex i - 1) }
    rw [hlog', hnext', if_neg hfail, ← hnext]
    exact ⟨hlog, rfl⟩

/-- A server that is not a leader any more keeps its log and its `next_index_`. -/
theorem call_of_not_leader {t : RaftServer peers} (hrole : s.role ≠ .leader)
    (h : call s a = some t) : t.logEntries = s.logEntries ∧ t.nextIndex = s.nextIndex := by
  cases a with
  | replicate func =>
    obtain ⟨-, rfl⟩ | ⟨hleader, -⟩ := replicate_cases h
    · exact ⟨rfl, rfl⟩
    · exact absurd hleader hrole
  | send =>
    obtain ⟨-, -, rfl⟩ := Option.map_eq_some_iff.mp h
    exact ⟨rfl, rfl⟩
  | reply i reply =>
    obtain ⟨⟨_, sent⟩, hreply, rfl⟩ := Option.map_eq_some_iff.mp h
    obtain ⟨-, rfl, -⟩ | ⟨hleader, -⟩ := receiveAppendEntriesReply_cases hreply
    · exact ⟨rfl, rfl⟩
    · exact absurd hleader hrole

theorem counted_step (h : Counted r) (hs : r.step a = some r') : Counted r' := by
  obtain ⟨t, hcall, hs⟩ := Option.bind_eq_some_iff.mp hs
  obtain rfl := Option.some.inj (Option.ite_none_right_eq_some.mp hs).2
  by_cases hrole : r.server.role = .leader
  · rw [if_pos hrole]
    cases a with
    | replicate func =>
      obtain ⟨hother, -⟩ | ⟨-, hpush⟩ := replicate_cases hcall
      · exact absurd hrole hother
      · obtain ⟨k, rfl⟩ := applyToStatemachine_eq hpush
        refine ⟨?_, h.next⟩
        dsimp only [count, pushEntry, setApplyFunc]
        rw [List.length_append, h.length, List.length_singleton, Nat.add_assoc]
    | send =>
      obtain ⟨-, -, rfl⟩ := Option.map_eq_some_iff.mp hcall
      exact h
    | reply i reply =>
      obtain ⟨⟨_, sent⟩, hreply, rfl⟩ := Option.map_eq_some_iff.mp hcall
      obtain ⟨hlog, hnext⟩ := receiveAppendEntriesReply_nextIndex hrole hreply
      dsimp only [count]
      split
      · next hok =>
        rw [if_pos hok] at hnext
        refine ⟨(congrArg List.length hlog).trans h.length, ?_⟩
        intro j
        dsimp only
        rw [hnext, update_add, update_add, h.next]
        split <;> omega
      · next hfail =>
        rw [if_neg hfail] at hnext
        refine ⟨(congrArg List.length hlog).trans h.length, ?_⟩
        intro j
        dsimp only
        rw [hnext, sub_eq_add_neg, update_add, update_add, h.next]
        split <;> omega
  · rw [if_neg hrole]
    obtain ⟨hlog, hnext⟩ := call_of_not_leader hrole hcall
    exact ⟨(congrArg List.length hlog).trans h.length, fun i => by dsimp only; rw [hnext, h.next]⟩

theorem counted_run {r₀ : Leadership peers} {xs : List (LeaderStep peers)}
    (he : elect s = some r₀) (h : MTr (fun r a r' => step r a = some r') r₀ xs r) : Counted r :=
  mTr_trInv (fun _ _ _ hs hr => counted_step hr hs) h (counted_elect he)

/-- Whether a step sends in range depends on the counts alone. -/
theorem Counted.balanced_iff (h : Counted r) : SendsInRange r.server a ↔ r.Balanced a := by
  unfold SendsInRange Balanced
  apply forall_congr'
  intro u
  apply forall_congr'
  intro hu
  obtain ⟨hlen, hnext⟩ := sender_counted h hu
  refine imp_congr_right fun _ => imp_congr_right fun _ => forall_congr' fun i => ?_
  rw [hnext i, hlen]
  push_cast
  omega

/-- In every state that a run from an election leads to, whatever replies came in whatever order, a
step sends in range exactly if the replies and the appended entries are balanced. -/
theorem sendsInRange_iff {r₀ : Leadership peers} {xs : List (LeaderStep peers)}
    (he : elect s = some r₀) (h : MTr (fun r a r' => step r a = some r') r₀ xs r)
    (a : LeaderStep peers) : SendsInRange r.server a ↔ r.Balanced a :=
  (counted_run he h).balanced_iff

/-- After one entry has been appended. -/
theorem sendsInRange_iff_appended : ∃ r₀ r : Leadership 1,
    elect (.restored 0 1 [⟨0, 0⟩]) = some r₀ ∧
    MTr (fun r a r' => step r a = some r') r₀ [.replicate fun _ => true] r ∧
    SendsInRange r.server .send := by
  obtain ⟨r₀, he, h⟩ : ∃ r₀, elect (.restored 0 1 [⟨0, 0⟩] : RaftServer 1) = some r₀ ∧
      (exec step r₀ [.replicate fun _ => true]).any (fun r =>
        r.start = 1 ∧ r.appended = 1 ∧ ∀ i, r.successes i = 0 ∧ r.failures i = 0) = true :=
    ⟨_, if_pos (by decide), by decide⟩
  obtain ⟨r, hrun, hp⟩ := exists_mTr_of_exec h
  obtain ⟨hstart, happended, hcounts⟩ := of_decide_eq_true hp
  refine ⟨r₀, r, he, hrun, (sendsInRange_iff he hrun .send).mpr ?_⟩
  intro u _ _ _ i
  have := hcounts i
  dsimp only [failuresAt]
  rw [hstart, toInt_of_lt (by decide)]
  omega

/-- The heartbeat right after the election looks behind the end of the log. -/
theorem not_sendsInRange : ¬ ∀ (s : RaftServer 1) r₀ xs r a, elect s = some r₀ →
    MTr (fun r a r' => step r a = some r') r₀ xs r → SendsInRange r.server a := by
  intro hclaim
  have hsend := hclaim (.restored 0 1 [⟨0, 0⟩]) _ [] _ .send (if_pos (by decide)) .refl _ rfl rfl
    (by simp [convertTo, restored]) 0
  exact absurd hsend.2 (by decide)

end Leadership

end AlphaDb.Raft
