import AlphaDb.Lib.Mutex
import AlphaDb.Raft.Server

/-! The handlers of a server with its mutex. `convert_to`, `majority` and the functions that send
lock it themselves, and handlers that have it call them. -/
namespace AlphaDb.Raft.Locked

open Mutex

variable {peers : ℕ} {s t : RaftServer peers}

def majority : Code (RaftServer peers) ℤ :=
  withLock do
    let s ← get
    return s.majority

/-- The request goes to every peer. -/
def sendRequestVoteArgs : Code (RaftServer peers) RequestVoteArgs :=
  withLock (inspect RaftServer.requestVoteArgs)

/-- What a new candidate sends is returned; the timers are left out. -/
def convertTo (r : Role) (term : ℤ) : Code (RaftServer peers) (Option RequestVoteArgs) :=
  match r with
  | .follower => do
    withLock (modify fun s => s.convertTo .follower term)
    return none
  | .candidate => do
    withLock (modify fun s => s.convertTo .candidate term)
    let args ← sendRequestVoteArgs
    return some args
  | .leader => do
    withLock (modify fun s => s.convertTo .leader term)
    return none

/-- The timer that `send_request_vote_args` starts. -/
def retryElection : Code (RaftServer peers) (Option RequestVoteArgs) :=
  withLock do
    let s ← get
    if s.role = .candidate then do
      let args ← sendRequestVoteArgs
      return some args
    else return none

/-- The end of `request_vote`, in the term of the request. -/
def grant (args : RequestVoteArgs) (reply : RequestVoteReply) :
    Code (RaftServer peers) RequestVoteReply :=
  attempt fun s =>
    if s.votedFor = -1 ∨ (s.votedFor % 2 ^ 32).toNat = args.candidateId then
      s.logEntries.getLast?.map fun e =>
        if e.index = args.lastLogIndex ∧ e.term = args.lastLogTerm then
          ({ reply with voteGranted := true }, { s with votedFor := toInt args.candidateId })
        else (⟨args.term, false⟩, s)
    else some (⟨args.term, false⟩, s)

def requestVote (args : RequestVoteArgs) (reply : RequestVoteReply) :
    Code (RaftServer peers) RequestVoteReply :=
  withLock do
    let s ← get
    if args.term < s.currentTerm then return ⟨args.term, false⟩
    else if s.currentTerm < args.term then do
      let _ ← convertTo .follower (toInt args.term)
      grant args reply
    else grant args reply

/-- The end of `receive_request_vote_reply`. -/
def countVote (reply : RequestVoteReply) : Code (RaftServer peers) Unit := do
  let s ← get
  if reply.term = s.currentTerm ∧ reply.voteGranted then do
    modify fun s => { s with votes := s.votes + 1 }
    let m ← majority
    let s ← get
    if m ≤ s.votes then do
      let _ ← convertTo .leader (-1)
      return ()
    else return ()
  else return ()

def receiveRequestVoteReply (reply : RequestVoteReply) : Code (RaftServer peers) Unit :=
  withLock do
    let s ← get
    if s.role ≠ .candidate then return ()
    else if s.currentTerm < reply.term then do
      let _ ← convertTo .follower (toInt reply.term)
      countVote reply
    else countVote reply

def sendAppendEntriesArgs : Code (RaftServer peers) (List (Fin peers × AppendEntriesArgs)) :=
  withLock (inspect RaftServer.sendAppendEntriesArgs)

def appendEntries (args : AppendEntriesArgs) (reply : AppendEntriesReply) :
    Code (RaftServer peers) AppendEntriesReply :=
  withLock (attempt fun s => (s.appendEntries args reply).map Prod.swap)

/-- The loop of `update_commit_index`. -/
def commitRounds : List ℕ → Code (RaftServer peers) Unit
  | [] => return ()
  | n :: rounds => do
    let m ← majority
    modify fun s =>
      if m ≤ s.matching n ∧ s.logEntries[n]?.map LogEntry.term = some s.currentTerm then
        { s with commitIndex := n }
      else s
    commitRounds rounds

/-- The indexes that the loop of `update_commit_index` goes through. -/
def rounds (s : RaftServer peers) : List ℕ :=
  let n := toInt (s.commitIndex + 1)
  if n < 0 then [] else List.range' n.toNat (s.logEntries.length - n.toNat)

def updateCommitIndex : Code (RaftServer peers) Unit := do
  let s ← get
  commitRounds (rounds s)

/-- The follower behind a connection has taken what it was sent. -/
def accepted (id : Fin peers) (s : RaftServer peers) : RaftServer peers :=
  { s with
    nextIndex := Function.update s.nextIndex id (s.nextIndex id + 1)
    matchIndex := Function.update s.matchIndex id (s.matchIndex id + 1) }

/-- The end of `receive_append_entries_reply`. -/
def countReply (id : Fin peers) (reply : AppendEntriesReply) :
    Code (RaftServer peers) (List (Fin peers × AppendEntriesArgs)) :=
  if reply.success then do
    modify (accepted id)
    updateCommitIndex
    return []
  else do
    modify fun s => { s with nextIndex := Function.update s.nextIndex id (s.nextIndex id - 1) }
    let sent ← sendAppendEntriesArgs
    updateCommitIndex
    return sent

def receiveAppendEntriesReply (id : Fin peers) (reply : AppendEntriesReply) :
    Code (RaftServer peers) (List (Fin peers × AppendEntriesArgs)) :=
  withLock do
    let s ← get
    if s.role ≠ .leader then return []
    else if s.currentTerm < reply.term then do
      let _ ← convertTo .follower (toInt reply.term)
      countReply id reply
    else countReply id reply

/-- Whether the entry was taken; the state machine is applied without the mutex. -/
def replicate : Code (RaftServer peers) Bool := do
  let taken ← withLock do
    let s ← get
    if s.role ≠ .leader then return false
    else do
      set s.pushEntry
      return true
  if taken then do
    attempt fun s => s.applyToStatemachine.map fun t => ((), t)
    return true
  else return false

theorem sendRequestVoteArgs_ok_iff {args : RequestVoteArgs} :
    sendRequestVoteArgs false s = .ok args t ↔ s.requestVoteArgs = some args ∧ t = s := by
  rw [sendRequestVoteArgs, withLock_free, inspect_ok_iff]

theorem sendRequestVoteArgs_ne_waits : sendRequestVoteArgs false s ≠ .error .waits t := by
  rw [sendRequestVoteArgs, withLock_free, ne_eq, inspect_error_iff]
  simp

theorem sendAppendEntriesArgs_ok_iff {sent : List (Fin peers × AppendEntriesArgs)} :
    sendAppendEntriesArgs false s = .ok sent t ↔ s.sendAppendEntriesArgs = some sent ∧ t = s := by
  rw [sendAppendEntriesArgs, withLock_free, inspect_ok_iff]

section Vote

variable {args : RequestVoteArgs} {reply r : RequestVoteReply} {e : Stop}

theorem grant_ok_iff (h : s.currentTerm = args.term) :
    grant args reply false s = .ok r t ↔ s.requestVote args reply = some (t, r) := by
  unfold RaftServer.requestVote
  have hlt : ¬ args.term < s.currentTerm := h.le.not_gt
  simp only [grant, attempt_ok_iff, if_neg hlt, RaftServer.observe_of_le h.ge]
  by_cases hfree : s.votedFor = -1 ∨ (s.votedFor % 2 ^ 32).toNat = args.candidateId
  · rw [if_pos hfree, if_pos hfree]
    cases s.logEntries.getLast? with
    | none => simp
    | some x =>
      by_cases hx : x.index = args.lastLogIndex ∧ x.term = args.lastLogTerm
      · simp [hx, and_comm]
      · simp [hx, and_comm]
  · rw [if_neg hfree, if_neg hfree]
    simp [and_comm]

theorem grant_ne_waits : grant args reply false s ≠ .error .waits t := by
  simp [grant]

/-- A request of a later term is never answered. -/
theorem requestVote_of_lt (h : s.currentTerm < args.term) :
    requestVote args reply false s = .error .waits s := by
  simp only [requestVote, withLock_free, get_bind, if_neg h.not_gt, if_pos h, convertTo]
  exact bind_of_error withLock_bind_held

theorem requestVote_of_le (h : args.term ≤ s.currentTerm) :
    requestVote args reply false s =
      if args.term < s.currentTerm then .ok ⟨args.term, false⟩ s
      else grant args reply true s := by
  simp only [requestVote, withLock_free, get_bind, if_neg h.not_gt]
  split <;> rfl

/-- A vote request is answered exactly if it is not of a later term, and then as by a handler that
is one step. -/
theorem requestVote_ok_iff : requestVote args reply false s = .ok r t ↔
    args.term ≤ s.currentTerm ∧ s.requestVote args reply = some (t, r) := by
  rcases lt_trichotomy args.term s.currentTerm with hlt | heq | hlt
  · rw [requestVote_of_le hlt.le, if_pos hlt, RaftServer.requestVote, if_pos hlt]
    simp [hlt.le, and_comm]
  · rw [requestVote_of_le heq.le, if_neg heq.not_lt]
    exact (grant_ok_iff heq.symm).trans (and_iff_right heq.le).symm
  · simp [requestVote_of_lt hlt, hlt]

theorem requestVote_waits_iff : requestVote args reply false s = .error .waits t ↔
    s.currentTerm < args.term ∧ t = s := by
  rcases lt_or_ge s.currentTerm args.term with hlt | hle
  · simp [requestVote_of_lt hlt, hlt, eq_comm]
  · rw [requestVote_of_le hle]
    refine iff_of_false ?_ fun h => absurd h.1 hle.not_gt
    split
    · simp
    · exact grant_ne_waits

/-- A vote that counts is never counted to the end: the majority is computed under the mutex. -/
theorem receiveRequestVoteReply_apply : receiveRequestVoteReply reply false s =
    if s.role ≠ .candidate then .ok () s
    else if s.currentTerm < reply.term then .error .waits s
    else if reply.term = s.currentTerm ∧ reply.voteGranted then
      .error .waits { s with votes := s.votes + 1 }
    else .ok () s := by
  simp only [receiveRequestVoteReply, withLock_free, get_bind]
  split
  · rfl
  · split
    · simp only [convertTo]
      exact bind_of_error withLock_bind_held
    · simp only [countVote, get_bind, majority]
      split
      · simp only [modify_bind]
        exact withLock_bind_held
      · rfl

theorem receiveRequestVoteReply_ok_iff : receiveRequestVoteReply reply false s = .ok () t ↔
    (s.role = .candidate →
      reply.term ≤ s.currentTerm ∧ ¬ (reply.term = s.currentTerm ∧ reply.voteGranted)) ∧
    t = s.receiveRequestVoteReply reply := by
  rw [receiveRequestVoteReply_apply]
  unfold RaftServer.receiveRequestVoteReply
  by_cases hrole : s.role = .candidate
  · simp only [hrole, ne_eq, not_true_eq_false, if_false, forall_const]
    by_cases hlt : s.currentTerm < reply.term
    · simp [hlt]
    · have hle := not_lt.mp hlt
      rw [if_neg hlt, RaftServer.observe_of_le hle]
      by_cases hcount : reply.term = s.currentTerm ∧ reply.voteGranted
      · simp [hcount]
      · simpa [hcount, hle] using ⟨Eq.symm, Eq.symm⟩
  · simpa [hrole] using ⟨Eq.symm, Eq.symm⟩

end Vote

section Append

variable {id : Fin peers} {args : AppendEntriesArgs} {reply r : AppendEntriesReply}
  {sent : List (Fin peers × AppendEntriesArgs)}

theorem appendEntries_ok_iff : appendEntries args reply false s = .ok r t ↔
    s.appendEntries args reply = some (t, r) := by
  simp only [appendEntries, withLock_free, attempt_ok_iff, Option.map_eq_some_iff]
  constructor
  · rintro ⟨⟨_, _⟩, h, ⟨⟩⟩
    exact h
  · exact fun h => ⟨_, h, rfl⟩

theorem commitRounds_nil : commitRounds [] true s = .ok () s := rfl

theorem commitRounds_cons {n : ℕ} {l : List ℕ} :
    commitRounds (n :: l) true s = .error .waits s :=
  withLock_bind_held

theorem updateCommitIndex_eq_foldl :
    s.updateCommitIndex = (rounds s).foldl RaftServer.commitRound s := by
  unfold RaftServer.updateCommitIndex rounds
  dsimp only
  split <;> rfl

theorem rounds_congr (hc : t.commitIndex = s.commitIndex) (hl : t.logEntries = s.logEntries) :
    rounds t = rounds s := by
  unfold rounds
  rw [hc, hl]

theorem rounds_accepted (id : Fin peers) (s : RaftServer peers) :
    rounds (accepted id s) = rounds s := rounds_congr rfl rfl

theorem updateCommitIndex_apply {held : Bool} :
    updateCommitIndex held s = commitRounds (rounds s) held s := by
  rw [updateCommitIndex, get_bind]

theorem updateCommitIndex_of_nil (h : rounds s = []) :
    updateCommitIndex true s = .ok () s := by
  rw [updateCommitIndex_apply, h]
  exact commitRounds_nil

theorem updateCommitIndex_of_ne_nil (h : rounds s ≠ []) :
    updateCommitIndex true s = .error .waits s := by
  obtain ⟨n, l, hl⟩ := List.exists_cons_of_ne_nil h
  rw [updateCommitIndex_apply, hl]
  exact commitRounds_cons

/-- The reply to an append is handled to the end only if there is no index to look at. -/
theorem countReply_ok_iff : countReply id reply true s = .ok sent t ↔
    reply.success = true ∧ rounds s = [] ∧ sent = [] ∧ t = accepted id s := by
  unfold countReply
  split
  · next hok =>
    rw [modify_bind]
    by_cases hl : rounds s = []
    · have hdone := updateCommitIndex_of_nil ((rounds_accepted id s).trans hl)
      rw [bind_of_ok hdone, pure_apply, EStateM.Result.ok.injEq]
      exact ⟨fun h => ⟨hok, hl, h.1.symm, h.2.symm⟩, fun h => ⟨h.2.2.1.symm, h.2.2.2.symm⟩⟩
    · have hne : rounds (accepted id s) ≠ [] := by rwa [rounds_accepted]
      rw [bind_of_error (updateCommitIndex_of_ne_nil hne)]
      simp [hl]
  · next hfail =>
    rw [modify_bind]
    refine iff_of_false ?_ fun h => hfail h.1
    rw [sendAppendEntriesArgs, withLock_bind_held]
    simp

theorem receiveAppendEntriesReply_apply : receiveAppendEntriesReply id reply false s =
    if s.role ≠ .leader then .ok [] s
    else if s.currentTerm < reply.term then .error .waits s
    else countReply id reply true s := by
  simp only [receiveAppendEntriesReply, withLock_free, get_bind]
  split
  · rfl
  · split
    · simp only [convertTo]
      exact bind_of_error withLock_bind_held
    · rfl

theorem receiveAppendEntriesReply_ok_iff :
    receiveAppendEntriesReply id reply false s = .ok sent t ↔
      (s.role = .leader →
        reply.term ≤ s.currentTerm ∧ reply.success = true ∧ rounds s = []) ∧
      s.receiveAppendEntriesReply id reply = some (t, sent) := by
  rw [receiveAppendEntriesReply_apply]
  unfold RaftServer.receiveAppendEntriesReply
  by_cases hrole : s.role = .leader
  · simp only [hrole, ne_eq, not_true_eq_false, if_false, forall_const]
    by_cases hlt : s.currentTerm < reply.term
    · simp [hlt]
    · have hle := not_lt.mp hlt
      rw [if_neg hlt, RaftServer.observe_of_le hle, countReply_ok_iff]
      cases hok : reply.success with
      | false => simp
      | true =>
        have hcommit := updateCommitIndex_eq_foldl (s := accepted id s)
        rw [rounds_accepted] at hcommit
        simp only [hle, true_and, if_true]
        change _ ↔ _ ∧ some ((accepted id s).updateCommitIndex, _) = _
        rw [hcommit]
        constructor
        · rintro ⟨hl, rfl, rfl⟩
          exact ⟨hl, by rw [hl]; rfl⟩
        · rintro ⟨hl, h⟩
          rw [hl] at h
          obtain ⟨rfl, rfl⟩ := Prod.mk.inj (Option.some.inj h)
          exact ⟨hl, rfl, rfl⟩
  · simp [hrole, and_comm]

end Append

theorem replicate_of_ne (h : s.role ≠ .leader) : replicate false s = .ok false s := by
  refine bind_of_ok (a := false) (t := s) ?_
  rw [withLock_free, get_bind, if_pos h]
  rfl

theorem replicate_ok_iff {b : Bool} : replicate false s = .ok b t ↔
    (b = true ↔ s.role = .leader) ∧ s.replicate = some t := by
  unfold RaftServer.replicate
  by_cases hrole : s.role = .leader
  · have htake : replicate false s = (attempt (fun s : RaftServer peers =>
        s.applyToStatemachine.map fun t => ((), t)) >>= fun _ => pure true) false
          s.pushEntry := by
      refine bind_of_ok (a := true) (t := s.pushEntry) ?_
      rw [withLock_free, get_bind, if_neg (by simp [hrole])]
      rfl
    rw [htake, if_neg (by simp [hrole])]
    change _ ↔ _ ∧ s.pushEntry.applyToStatemachine = some t
    cases happly : s.pushEntry.applyToStatemachine with
    | none =>
      rw [bind_of_error (e := .undefined) (t := s.pushEntry) (by simp [happly])]
      simp
    | some u =>
      rw [bind_of_ok (a := ()) (t := u) (by simp [happly])]
      simp [hrole, eq_comm]
  · rw [replicate_of_ne hrole, if_pos hrole]
    simp [hrole, eq_comm]

/-- When the handlers return, for every state and message, and that they then do what they do as
single steps: no handler that changes the term, counts a vote, meets a refusal or looks for a
commit index comes to its end. -/
theorem handlers_return_iff (s : RaftServer peers) :
    (∀ args reply r t, requestVote args reply false s = .ok r t ↔
      args.term ≤ s.currentTerm ∧ s.requestVote args reply = some (t, r)) ∧
    (∀ reply t, receiveRequestVoteReply reply false s = .ok () t ↔
      (s.role = .candidate →
        reply.term ≤ s.currentTerm ∧ ¬ (reply.term = s.currentTerm ∧ reply.voteGranted)) ∧
      t = s.receiveRequestVoteReply reply) ∧
    (∀ args reply r t, appendEntries args reply false s = .ok r t ↔
      s.appendEntries args reply = some (t, r)) ∧
    (∀ id reply sent t, receiveAppendEntriesReply id reply false s = .ok sent t ↔
      (s.role = .leader →
        reply.term ≤ s.currentTerm ∧ reply.success = true ∧ rounds s = []) ∧
      s.receiveAppendEntriesReply id reply = some (t, sent)) ∧
    ∀ b t, replicate false s = .ok b t ↔
      (b = true ↔ s.role = .leader) ∧ s.replicate = some t :=
  ⟨fun _ _ _ _ => requestVote_ok_iff, fun _ _ => receiveRequestVoteReply_ok_iff,
    fun _ _ _ _ => appendEntries_ok_iff, fun _ _ _ _ => receiveAppendEntriesReply_ok_iff,
    fun _ _ => replicate_ok_iff⟩

end AlphaDb.Raft.Locked
