import AlphaDb.Lib.Trace
import AlphaDb.Raft.SelfLocking

/-! A cluster of servers with their mutexes, from followers on: nobody is ever elected. -/
namespace AlphaDb.Raft

open Trace Mutex

/-- What one call carries, with the server that made the call. -/
structure Packet (n : ℕ) (α : Type) where
  caller : Fin n
  content : α
  deriving DecidableEq

/-- The servers, which of them have a thread that waits for itself, and the messages sent so far;
none of them is ever taken out. -/
structure LockedCluster (n : ℕ) where
  server : Fin n → RaftServer (n - 1)
  stuck : Fin n → Bool
  requests : List (Packet n RequestVoteArgs)
  replies : List (Packet n RequestVoteReply)
  appends : List (Packet n AppendEntriesArgs)
  appendReplies : List (Packet n AppendEntriesReply)

/-- An election timeout, as `convert_to` and as `reschedule_election` and the timer of a candidate
have it; a handler, with what its reply object held; a heartbeat; a client's entry. -/
inductive LockedStep (n : ℕ)
  | timeout (i : Fin n)
  | sendRequests (i : Fin n)
  | retry (i : Fin n)
  | requestVote (j i : Fin n) (args : RequestVoteArgs) (raw : RequestVoteReply)
  | receiveReply (i : Fin n) (reply : RequestVoteReply)
  | heartbeat (i : Fin n)
  | appendEntries (j i : Fin n) (args : AppendEntriesArgs) (raw : AppendEntriesReply)
  | receiveAppendReply (i : Fin n) (peer : Fin (n - 1)) (reply : AppendEntriesReply)
  | replicate (i : Fin n)
  deriving DecidableEq

namespace LockedCluster

variable {n : ℕ} {c d : LockedCluster n} {i j : Fin n} {a : LockedStep n} {α : Type}

def setServer (c : LockedCluster n) (i : Fin n) (s : RaftServer (n - 1)) : LockedCluster n :=
  { c with server := Function.update c.server i s }

/-- A server that waits for its own mutex. -/
def setStuck (c : LockedCluster n) (i : Fin n) : LockedCluster n :=
  { c with stuck := Function.update c.stuck i true }

/-- A thread of a server runs code that begins without the mutex, and sends what `send` makes of
its result. Where another thread has the mutex for good, nothing is run. -/
def run (c : LockedCluster n) (i : Fin n) (x : Code (RaftServer (n - 1)) α)
    (send : LockedCluster n → α → LockedCluster n) : Option (LockedCluster n) :=
  if c.stuck i then none
  else
    match x false (c.server i) with
    | .ok a s => some (send (c.setServer i s) a)
    | .error .waits s => some ((c.setServer i s).setStuck i)
    | .error .undefined _ => none

def sendRequest (i : Fin n) (c : LockedCluster n) (args : RequestVoteArgs) : LockedCluster n :=
  { c with requests := ⟨i, args⟩ :: c.requests }

def sendReply (i : Fin n) (c : LockedCluster n) (reply : RequestVoteReply) : LockedCluster n :=
  { c with replies := ⟨i, reply⟩ :: c.replies }

def sendAppends (i : Fin n) (c : LockedCluster n) (sent : List (Fin (n - 1) × AppendEntriesArgs)) :
    LockedCluster n :=
  { c with appends := (sent.map fun x => ⟨i, x.2⟩) ++ c.appends }

def sendAppendReply (i : Fin n) (c : LockedCluster n) (reply : AppendEntriesReply) :
    LockedCluster n :=
  { c with appendReplies := ⟨i, reply⟩ :: c.appendReplies }

/-- One thread of one server. A message is handled only after it was sent, but any number of
times. -/
def step (c : LockedCluster n) : LockedStep n → Option (LockedCluster n)
  | .timeout i => c.run i (Locked.convertTo .candidate (-1)) fun c args =>
      args.elim c (sendRequest i c)
  | .sendRequests i => c.run i Locked.sendRequestVoteArgs (sendRequest i)
  | .retry i => c.run i Locked.retryElection fun c args => args.elim c (sendRequest i c)
  | .requestVote j i args raw =>
    if ⟨i, args⟩ ∈ c.requests ∧ j ≠ i then
      c.run j (Locked.requestVote args raw) (sendReply i)
    else none
  | .receiveReply i reply =>
    if ⟨i, reply⟩ ∈ c.replies then
      c.run i (Locked.receiveRequestVoteReply reply) fun c _ => c
    else none
  | .heartbeat i => c.run i Locked.sendAppendEntriesArgs (sendAppends i)
  | .appendEntries j i args raw =>
    if ⟨i, args⟩ ∈ c.appends ∧ j ≠ i then
      c.run j (Locked.appendEntries args raw) (sendAppendReply i)
    else none
  | .receiveAppendReply i peer reply =>
    if ⟨i, reply⟩ ∈ c.appendReplies then
      c.run i (Locked.receiveAppendEntriesReply peer reply) (sendAppends i)
    else none
  | .replicate i => c.run i Locked.replicate fun c _ => c

/-- Followers with any terms, votes and logs; no message is on its way. -/
structure Starts (c : LockedCluster n) : Prop where
  followers : ∀ i, (c.server i).role = .follower
  terms : ∀ i, (c.server i).currentTerm < 2 ^ 64
  silent : c.appends = [] ∧ c.appendReplies = []

/-- What holds after the steps `xs` from `c₀`: no leader, no append, the logs as they were, and each
term further by the own timeouts. -/
structure Leaderless (c₀ : LockedCluster n) (xs : List (LockedStep n)) (c : LockedCluster n) :
    Prop where
  roles : ∀ i, (c.server i).role ≠ .leader
  silent : c.appends = [] ∧ c.appendReplies = []
  logs : ∀ i, (c.server i).logEntries = (c₀.server i).logEntries ∧
    (c.server i).commitIndex = (c₀.server i).commitIndex ∧
    (c.server i).lastApplied = (c₀.server i).lastApplied
  terms : ∀ i, (c.server i).currentTerm =
    ((c₀.server i).currentTerm + xs.count (.timeout i)) % 2 ^ 64

theorem run_eq_some {x : Code (RaftServer (n - 1)) α}
    {send : LockedCluster n → α → LockedCluster n} (h : c.run i x send = some d) :
    (∃ a s, x false (c.server i) = .ok a s ∧ d = send (c.setServer i s) a) ∨
      ∃ s, x false (c.server i) = .error .waits s ∧ d = (c.setServer i s).setStuck i := by
  unfold run at h
  split at h
  · simp at h
  · split at h
    · next a s hx => exact Or.inl ⟨a, s, hx, (Option.some.inj h).symm⟩
    · next s hx => exact Or.inr ⟨s, hx, (Option.some.inj h).symm⟩
    · simp at h

/-- All but the vote of a server and its count of votes. -/
def Unmoved {peers : ℕ} (s t : RaftServer peers) : Prop :=
  t.role = s.role ∧ t.currentTerm = s.currentTerm ∧ t.logEntries = s.logEntries ∧
    t.commitIndex = s.commitIndex ∧ t.lastApplied = s.lastApplied

/-- A computation that comes to an end, or to a lock that it has, moves nothing. -/
def Keeps {peers : ℕ} (x : Code (RaftServer peers) α) (s : RaftServer peers) : Prop :=
  (∀ a t, x false s = .ok a t → Unmoved s t) ∧ ∀ t, x false s = .error .waits t → Unmoved s t

section Handlers

variable {peers : ℕ} {s t : RaftServer peers}

theorem unmoved_refl : Unmoved s s := ⟨rfl, rfl, rfl, rfl, rfl⟩

theorem keeps_sendRequestVoteArgs : Keeps Locked.sendRequestVoteArgs s := by
  refine ⟨?_, fun t h => absurd h Locked.sendRequestVoteArgs_ne_waits⟩
  intro args t h
  obtain ⟨-, rfl⟩ := Locked.sendRequestVoteArgs_ok_iff.mp h
  exact unmoved_refl

theorem keeps_retryElection : Keeps Locked.retryElection s := by
  have hend : Locked.retryElection false s =
      if s.role = .candidate then .error .waits s else .ok none s := by
    simp only [Locked.retryElection, withLock_free, get_bind]
    split
    · exact withLock_bind_held
    · rfl
  unfold Keeps
  rw [hend]
  split
  · exact ⟨by simp, by rintro t ⟨⟩; exact unmoved_refl⟩
  · exact ⟨by rintro a t ⟨⟩; exact unmoved_refl, by simp⟩

theorem keeps_requestVote {args : RequestVoteArgs} {raw : RequestVoteReply} :
    Keeps (Locked.requestVote args raw) s := by
  refine ⟨?_, ?_⟩
  · intro r t h
    rw [Locked.requestVote_of_le (Locked.requestVote_ok_iff.mp h).1] at h
    split at h
    · obtain ⟨-, rfl⟩ := EStateM.Result.ok.inj h
      exact unmoved_refl
    · have h := attempt_ok_iff.mp h
      split at h
      · obtain ⟨e, -, h⟩ := Option.map_eq_some_iff.mp h
        split at h
        · obtain ⟨-, rfl⟩ := Prod.mk.inj h
          exact ⟨rfl, rfl, rfl, rfl, rfl⟩
        · obtain ⟨-, rfl⟩ := Prod.mk.inj h
          exact unmoved_refl
      · obtain ⟨-, rfl⟩ := Prod.mk.inj (Option.some.inj h)
        exact unmoved_refl
  · intro t h
    obtain ⟨-, rfl⟩ := Locked.requestVote_waits_iff.mp h
    exact unmoved_refl

theorem keeps_receiveRequestVoteReply {reply : RequestVoteReply} :
    Keeps (Locked.receiveRequestVoteReply reply) s := by
  unfold Keeps
  rw [Locked.receiveRequestVoteReply_apply]
  split
  · exact ⟨by rintro a t ⟨⟩; exact unmoved_refl, by simp⟩
  · split
    · exact ⟨by simp, by rintro t ⟨⟩; exact unmoved_refl⟩
    · split
      · exact ⟨by simp, by rintro t ⟨⟩; exact ⟨rfl, rfl, rfl, rfl, rfl⟩⟩
      · exact ⟨by rintro a t ⟨⟩; exact unmoved_refl, by simp⟩

theorem keeps_replicate (h : s.role ≠ .leader) : Keeps Locked.replicate s := by
  unfold Keeps
  rw [Locked.replicate_of_ne h]
  exact ⟨by rintro a t ⟨⟩; exact unmoved_refl, by simp⟩

/-- A heartbeat of a server that is not the leader is sent to nobody. -/
theorem sendAppendEntriesArgs_of_ne (h : s.role ≠ .leader) :
    Locked.sendAppendEntriesArgs false s = .ok [] s := by
  refine Locked.sendAppendEntriesArgs_ok_iff.mpr ⟨?_, rfl⟩
  rw [RaftServer.sendAppendEntriesArgs, if_pos h]

/-- A timeout that comes to its end makes a candidate of the next term; it never waits. -/
theorem convertTo_candidate :
    (∀ a t, Locked.convertTo .candidate (-1) false s = .ok a t →
      t = s.convertTo .candidate (-1)) ∧
    ∀ t, Locked.convertTo .candidate (-1) false s ≠ .error .waits t := by
  have hsend : Locked.convertTo .candidate (-1) false s =
      (Locked.sendRequestVoteArgs >>= fun args => pure (some args)) false
        (s.convertTo .candidate (-1)) :=
    bind_of_ok (a := ⟨⟩) (t := s.convertTo .candidate (-1)) rfl
  rw [hsend]
  constructor
  · intro a t h
    obtain ⟨args, u, hu, ht⟩ := EStateM.bind_ok_iff.mp h
    obtain ⟨-, rfl⟩ := EStateM.Result.ok.inj ht
    exact (Locked.sendRequestVoteArgs_ok_iff.mp hu).2
  · intro t h
    rcases EStateM.bind_error_iff.mp h with h | ⟨args, u, -, h⟩
    · exact absurd h Locked.sendRequestVoteArgs_ne_waits
    · simp at h

end Handlers

variable {c₀ : LockedCluster n} {xs ys : List (LockedStep n)} {s : RaftServer (n - 1)}

theorem leaderless_of_starts (h : Starts c) : Leaderless c [] c := by
  refine ⟨?_, h.silent, fun _ => ⟨rfl, rfl, rfl⟩, ?_⟩
  · intro i
    simp [h.followers i]
  · intro i
    exact (Nat.mod_eq_of_lt (h.terms i)).symm

/-- A step that moves one server by its own timeouts only. -/
theorem Leaderless.step_server (h : Leaderless c₀ xs c)
    (hserver : d.server = Function.update c.server i s)
    (hsilent : d.appends = c.appends ∧ d.appendReplies = c.appendReplies)
    (hrole : s.role ≠ .leader) (hlog : s.logEntries = (c.server i).logEntries ∧
      s.commitIndex = (c.server i).commitIndex ∧ s.lastApplied = (c.server i).lastApplied)
    (hterm : s.currentTerm =
      ((c.server i).currentTerm + [a].count (.timeout i)) % 2 ^ 64)
    (hother : ∀ j, j ≠ i → a ≠ .timeout j) : Leaderless c₀ (xs ++ [a]) d := by
  refine ⟨?_, ?_, ?_, ?_⟩
  · rw [hserver]
    exact (Function.forall_update_iff c.server fun _ t => t.role ≠ .leader).mpr
      ⟨hrole, fun j _ => h.roles j⟩
  · rw [hsilent.1, hsilent.2]
    exact h.silent
  · rw [hserver]
    refine (Function.forall_update_iff c.server fun j t =>
      t.logEntries = (c₀.server j).logEntries ∧ t.commitIndex = (c₀.server j).commitIndex ∧
        t.lastApplied = (c₀.server j).lastApplied).mpr ⟨?_, fun j _ => h.logs j⟩
    obtain ⟨hl, hc, ha⟩ := h.logs i
    exact ⟨hlog.1.trans hl, hlog.2.1.trans hc, hlog.2.2.trans ha⟩
  · rw [hserver]
    refine (Function.forall_update_iff c.server fun j t => t.currentTerm =
      ((c₀.server j).currentTerm + (xs ++ [a]).count (.timeout j)) % 2 ^ 64).mpr ⟨?_, ?_⟩
    · rw [hterm, h.terms i, List.count_append]
      omega
    · intro j hj
      have hcount : [a].count (.timeout j) = 0 :=
        List.count_eq_zero.mpr (by simpa using (hother j hj).symm)
      rw [h.terms j, List.count_append, hcount]
      rfl

/-- A step of a server in which nothing is moved. -/
theorem Leaderless.step_keeps {x : Code (RaftServer (n - 1)) α}
    {send : LockedCluster n → α → LockedCluster n} (h : Leaderless c₀ xs c)
    (hx : Keeps x (c.server i)) (hr : c.run i x send = some d)
    (hsend : ∀ c a, (send c a).server = c.server ∧ (send c a).appends = c.appends ∧
      (send c a).appendReplies = c.appendReplies)
    (ha : ∀ j, a ≠ .timeout j) : Leaderless c₀ (xs ++ [a]) d := by
  have hmove : ∀ s, Unmoved (c.server i) s → d.server = Function.update c.server i s →
      d.appends = c.appends ∧ d.appendReplies = c.appendReplies →
      Leaderless c₀ (xs ++ [a]) d := by
    rintro s ⟨hrole, hterm, hl, hc, happlied⟩ hserver hsilent
    refine h.step_server hserver hsilent (hrole ▸ h.roles i) ⟨hl, hc, happlied⟩ ?_
      fun j _ => ha j
    have hcount : [a].count (.timeout i) = 0 :=
      List.count_eq_zero.mpr (by simpa using (ha i).symm)
    rw [hterm, hcount, h.terms i]
    omega
  rcases run_eq_some hr with ⟨v, s, hs, rfl⟩ | ⟨s, hs, rfl⟩
  · obtain ⟨hserver, hsilent⟩ := hsend (c.setServer i s) v
    exact hmove s (hx.1 v s hs) hserver hsilent
  · exact hmove s (hx.2 s hs) rfl ⟨rfl, rfl⟩

theorem leaderless_timeout (h : Leaderless c₀ xs c) (hs : step c (.timeout i) = some d) :
    Leaderless c₀ (xs ++ [.timeout i]) d := by
  simp only [step] at hs
  rcases run_eq_some hs with ⟨args, s, hx, rfl⟩ | ⟨s, hx, -⟩
  · obtain rfl := convertTo_candidate.1 args s hx
    have hserver : (args.elim (c.setServer i ((c.server i).convertTo .candidate (-1)))
        (sendRequest i (c.setServer i ((c.server i).convertTo .candidate (-1))))).server =
          Function.update c.server i ((c.server i).convertTo .candidate (-1)) := by
      cases args <;> rfl
    refine h.step_server hserver ?_ (by simp [RaftServer.convertTo]) ⟨rfl, rfl, rfl⟩ ?_ ?_
    · cases args <;> exact ⟨rfl, rfl⟩
    · simp [RaftServer.convertTo]
    · intro j hj
      simpa using hj.symm
  · exact absurd hx (convertTo_candidate.2 s)

theorem leaderless_step (h : Leaderless c₀ xs c) (hs : step c a = some d) :
    Leaderless c₀ (xs ++ [a]) d := by
  cases a with
  | timeout i => exact leaderless_timeout h hs
  | sendRequests i =>
    exact h.step_keeps keeps_sendRequestVoteArgs hs (fun _ _ => ⟨rfl, rfl, rfl⟩) (by simp)
  | retry i =>
    simp only [step] at hs
    refine h.step_keeps keeps_retryElection hs (fun c args => ?_) (by simp)
    cases args <;> exact ⟨rfl, rfl, rfl⟩
  | requestVote j i args raw =>
    obtain ⟨-, hs⟩ := Option.ite_none_right_eq_some.mp hs
    exact h.step_keeps keeps_requestVote hs (fun _ _ => ⟨rfl, rfl, rfl⟩) (by simp)
  | receiveReply i reply =>
    obtain ⟨-, hs⟩ := Option.ite_none_right_eq_some.mp hs
    exact h.step_keeps keeps_receiveRequestVoteReply hs (fun _ _ => ⟨rfl, rfl, rfl⟩) (by simp)
  | heartbeat i =>
    have hsent := sendAppendEntriesArgs_of_ne (h.roles i)
    rcases run_eq_some hs with ⟨sent, s, hx, rfl⟩ | ⟨s, hx, -⟩
    · obtain ⟨rfl, rfl⟩ := EStateM.Result.ok.inj (hsent.symm.trans hx)
      refine h.step_server (i := i) (s := c.server i) rfl ⟨rfl, rfl⟩ (h.roles i)
        ⟨rfl, rfl, rfl⟩ ?_ (by simp)
      rw [List.count_eq_zero.mpr (by simp), h.terms i]
      omega
    · rw [hsent] at hx
      simp at hx
  | appendEntries j i args raw =>
    obtain ⟨⟨hmem, -⟩, -⟩ := Option.ite_none_right_eq_some.mp hs
    simp [h.silent.1] at hmem
  | receiveAppendReply i peer reply =>
    obtain ⟨hmem, -⟩ := Option.ite_none_right_eq_some.mp hs
    simp [h.silent.2] at hmem
  | replicate i =>
    simp only [step] at hs
    exact h.step_keeps (keeps_replicate (h.roles i)) hs (fun _ _ => ⟨rfl, rfl, rfl⟩) (by simp)

theorem leaderless_run (h : Leaderless c₀ xs c) (hr : MTr (fun c a d => step c a = some d) c ys d) :
    Leaderless c₀ (xs ++ ys) d := by
  induction hr generalizing xs with
  | refl => simpa using h
  | @stepL c u d a ys hs _ ih => simpa using ih (leaderless_step h hs)

/-- With mutexes that a thread cannot lock twice, no run of any cluster that starts with followers
elects a leader: no entry is ever taken from a client, sent, committed or applied, and the term of
a server counts its own election timeouts. -/
theorem run_no_leader (hc : Starts c) (h : MTr (fun c a d => step c a = some d) c ys d) :
    (∀ i, (d.server i).role ≠ .leader ∧ Locked.replicate false (d.server i) =
      .ok false (d.server i)) ∧
    d.appends = [] ∧
    (∀ i, (d.server i).logEntries = (c.server i).logEntries ∧
      (d.server i).commitIndex = (c.server i).commitIndex ∧
      (d.server i).lastApplied = (c.server i).lastApplied) ∧
    ∀ i, (d.server i).currentTerm =
      ((c.server i).currentTerm + ys.count (.timeout i)) % 2 ^ 64 := by
  have hl : Leaderless c ys d := by simpa using leaderless_run (leaderless_of_starts hc) h
  exact ⟨fun i => ⟨hl.roles i, Locked.replicate_of_ne (hl.roles i)⟩, hl.silent.1, hl.logs,
    hl.terms⟩

/-- Three new servers. -/
def fresh : LockedCluster 3 where
  server i := .restored i 0 [⟨0, 0⟩]
  stuck _ := false
  requests := []
  replies := []
  appends := []
  appendReplies := []

theorem fresh_starts : Starts fresh where
  followers _ := rfl
  terms _ := by simp [fresh, RaftServer.restored]
  silent := ⟨rfl, rfl⟩

/-- Server 0 gets a vote of its old term, and stands in term 1: server 1 takes over the later term
and waits for itself. -/
theorem run_no_leader_three : ∃ d : LockedCluster 3,
    MTr (fun c a d => step c a = some d) fresh
      [.sendRequests 0, .requestVote 2 0 ⟨0, 0, 0, 0⟩ ⟨0, false⟩, .timeout 0,
        .receiveReply 0 ⟨0, true⟩, .requestVote 1 0 ⟨1, 0, 0, 0⟩ ⟨1, false⟩, .heartbeat 0] d ∧
    d.stuck 1 = true ∧
    (∀ i, (d.server i).role ≠ .leader ∧ Locked.replicate false (d.server i) =
      .ok false (d.server i)) ∧
    d.appends = [] ∧
    (∀ i, (d.server i).logEntries = (fresh.server i).logEntries ∧
      (d.server i).commitIndex = (fresh.server i).commitIndex ∧
      (d.server i).lastApplied = (fresh.server i).lastApplied) ∧
    ∀ i, (d.server i).currentTerm = ((fresh.server i).currentTerm +
      List.count (LockedStep.timeout i)
        [.sendRequests 0, .requestVote 2 0 ⟨0, 0, 0, 0⟩ ⟨0, false⟩, .timeout 0,
          .receiveReply 0 ⟨0, true⟩, .requestVote 1 0 ⟨1, 0, 0, 0⟩ ⟨1, false⟩, .heartbeat 0]) %
            2 ^ 64 := by
  have h : (exec step fresh
      [.sendRequests 0, .requestVote 2 0 ⟨0, 0, 0, 0⟩ ⟨0, false⟩, .timeout 0,
        .receiveReply 0 ⟨0, true⟩, .requestVote 1 0 ⟨1, 0, 0, 0⟩ ⟨1, false⟩, .heartbeat 0]).any
          (fun d => d.stuck 1) = true := by
    decide +kernel
  obtain ⟨d, hd, hp⟩ := exists_mTr_of_exec h
  exact ⟨d, hd, hp, run_no_leader fresh_starts hd⟩

end LockedCluster

end AlphaDb.Raft
