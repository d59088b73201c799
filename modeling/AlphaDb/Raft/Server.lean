import Mathlib

/-! A consensus server (`consensus/raft/raft_server`): its state, its timeouts and its handlers.
Unsigned integers are natural numbers; a handler returns nothing where the source is undefined
(an index outside a vector, an uninitialised local). -/
namespace AlphaDb.Raft

structure LogEntry where
  index : ℕ
  term : ℕ
  deriving DecidableEq, Repr

structure RequestVoteArgs where
  term : ℕ
  candidateId : ℕ
  lastLogIndex : ℕ
  lastLogTerm : ℕ
  deriving DecidableEq, Repr

structure RequestVoteReply where
  term : ℕ
  voteGranted : Bool
  deriving DecidableEq, Repr

structure AppendEntriesArgs where
  term : ℕ
  leaderId : ℕ
  prevLogIndex : ℕ
  prevLogTerm : ℕ
  leaderCommit : ℕ
  logEntries : List LogEntry
  deriving DecidableEq, Repr

structure AppendEntriesReply where
  term : ℕ
  success : Bool
  deriving DecidableEq, Repr

inductive Role
  | follower
  | candidate
  | leader
  deriving DecidableEq, Repr

/-- A 64-bit value stored in an `int`. -/
def toInt (v : ℕ) : ℤ := (v : ℤ).bmod (2 ^ 32)

/-- An `int` converted to 64 bits without sign. -/
def ofInt (v : ℤ) : ℕ := (v % 2 ^ 64).toNat

theorem toInt_of_lt {v : ℕ} (h : v < 2 ^ 31) : toInt v = v := by
  unfold toInt
  rw [Int.bmod_def]
  split <;> omega

theorem ofInt_toInt {v : ℕ} (h : v < 2 ^ 31) : ofInt (toInt v) = v := by
  rw [toInt_of_lt h, ofInt]
  omega

/-- A server with `peers` connections; `next_index_` and `match_index_` have a cell for each. -/
structure RaftServer (peers : ℕ) where
  id : ℤ
  role : Role
  votes : ℤ
  currentTerm : ℕ
  votedFor : ℤ
  logEntries : List LogEntry
  commitIndex : ℕ
  lastApplied : ℕ
  nextIndex : Fin peers → ℤ
  matchIndex : Fin peers → ℤ
  applyFunc : LogEntry → Bool

namespace RaftServer

variable {peers : ℕ}

/-- A follower with the term and the log that it has read from disk, and else as it is
constructed. -/
def restored (id : ℤ) (term : ℕ) (log : List LogEntry) : RaftServer peers where
  id := id
  role := .follower
  votes := 0
  currentTerm := term
  votedFor := -1
  logEntries := log
  commitIndex := 0
  lastApplied := 0
  nextIndex _ := 0
  matchIndex _ := 0
  applyFunc _ := true

def majority (_ : RaftServer peers) : ℤ := ((peers + 1) / 2 : ℕ)

/-- The state change of `convert_to`; what it sends is a step of its own. -/
def convertTo (s : RaftServer peers) (r : Role) (term : ℤ) : RaftServer peers :=
  match r with
  | .follower => { s with role := .follower, currentTerm := ofInt term, votedFor := -1 }
  | .candidate =>
    { s with
      role := .candidate
      currentTerm := (s.currentTerm + 1) % 2 ^ 64
      votedFor := s.id
      votes := 1 }
  | .leader =>
    { s with
      role := .leader
      nextIndex := fun _ => toInt s.logEntries.length + 1
      matchIndex := fun _ => 0 }

/-- The arguments that `send_request_vote_args` sends to every peer. -/
def requestVoteArgs (s : RaftServer peers) : Option RequestVoteArgs :=
  s.logEntries.getLast?.map fun e =>
    ⟨s.currentTerm, (s.id % 2 ^ 32).toNat, e.index, e.term⟩

/-- A request of a later term makes the server a follower of that term first. -/
def observe (s : RaftServer peers) (term : ℕ) : RaftServer peers :=
  if s.currentTerm < term then s.convertTo .follower (toInt term) else s

theorem observe_of_le {s : RaftServer peers} {term : ℕ} (h : term ≤ s.currentTerm) :
    s.observe term = s :=
  if_neg (not_lt.mpr h)

@[simp] theorem observe_id (s : RaftServer peers) (term : ℕ) : (s.observe term).id = s.id := by
  unfold observe
  split <;> rfl

/-- The handler of a vote request. A granted reply keeps the term it came with: the source
compares it with `args.term` where it means to assign. -/
def requestVote (s : RaftServer peers) (args : RequestVoteArgs) (reply : RequestVoteReply) :
    Option (RaftServer peers × RequestVoteReply) :=
  if args.term < s.currentTerm then some (s, ⟨args.term, false⟩)
  else
    let s := s.observe args.term
    if s.votedFor = -1 ∨ (s.votedFor % 2 ^ 32).toNat = args.candidateId then
      match s.logEntries.getLast? with
      | none => none
      | some e =>
        if e.index = args.lastLogIndex ∧ e.term = args.lastLogTerm then
          some ({ s with votedFor := toInt args.candidateId }, { reply with voteGranted := true })
        else some (s, ⟨args.term, false⟩)
    else some (s, ⟨args.term, false⟩)

def receiveRequestVoteReply (s : RaftServer peers) (reply : RequestVoteReply) :
    RaftServer peers :=
  if s.role ≠ .candidate then s
  else
    let s := s.observe reply.term
    if reply.term = s.currentTerm ∧ reply.voteGranted then
      if s.majority ≤ s.votes + 1 then { s with votes := s.votes + 1 }.convertTo .leader (-1)
      else { s with votes := s.votes + 1 }
    else s

def applyToStatemachine (s : RaftServer peers) : Option (RaftServer peers) :=
  if s.lastApplied < s.commitIndex then
    s.logEntries[s.lastApplied + 1]?.map fun e =>
      if s.applyFunc e then { s with lastApplied := s.lastApplied + 1 } else s
  else some s

theorem applyToStatemachine_eq {s t : RaftServer peers} (h : s.applyToStatemachine = some t) :
    ∃ k, t = { s with lastApplied := k } := by
  unfold applyToStatemachine at h
  split at h
  · obtain ⟨e, -, rfl⟩ := Option.map_eq_some_iff.mp h
    split
    · exact ⟨s.lastApplied + 1, rfl⟩
    · exact ⟨s.lastApplied, rfl⟩
  · obtain rfl := Option.some.inj h
    exact ⟨s.lastApplied, rfl⟩

/-- Only a leader takes a client's entry, under its own index and term. -/
def replicate (s : RaftServer peers) : Option (RaftServer peers) :=
  if s.role ≠ .leader then some s
  else
    let entry : LogEntry := ⟨s.logEntries.length, s.currentTerm⟩
    { s with logEntries := s.logEntries ++ [entry] }.applyToStatemachine

/-- The entry that a leader makes of a client's. -/
def newEntry (s : RaftServer peers) : LogEntry := ⟨s.logEntries.length, s.currentTerm⟩

def pushEntry (s : RaftServer peers) : RaftServer peers :=
  { s with logEntries := s.logEntries ++ [s.newEntry] }

theorem replicate_cases {s t : RaftServer peers} (h : s.replicate = some t) :
    (s.role ≠ .leader ∧ t = s) ∨
    (s.role = .leader ∧ s.pushEntry.applyToStatemachine = some t) := by
  unfold replicate at h
  split at h
  · next hrole =>
    obtain rfl := Option.some.inj h
    exact Or.inl ⟨hrole, rfl⟩
  · next hrole => exact Or.inr ⟨not_not.mp hrole, h⟩

/-- The message for peer `i`; it is the same for a heartbeat. -/
def appendEntriesArgs (s : RaftServer peers) (i : Fin peers) : Option AppendEntriesArgs :=
  if s.nextIndex i ≤ 0 then none
  else
    s.logEntries[(s.nextIndex i - 1).toNat]?.map fun e =>
      { term := s.currentTerm
        leaderId := (s.id % 2 ^ 8).toNat
        prevLogIndex := e.index
        prevLogTerm := e.term
        leaderCommit := s.commitIndex
        logEntries := s.logEntries.drop (s.nextIndex i).toNat }

/-- The messages of `send_append_entries_args`, one for every peer. -/
def sendAppendEntriesArgs (s : RaftServer peers) : Option (List (Fin peers × AppendEntriesArgs)) :=
  if s.role ≠ .leader then some []
  else (List.finRange peers).mapM fun i => (s.appendEntriesArgs i).map fun args => (i, args)

/-- The loop that looks for a conflict: what is left of the log, and the last value of the local
`index`, which an empty message leaves uninitialised. -/
def findConflict (log : List LogEntry) (index : Option ℤ) :
    List LogEntry → Option (List LogEntry × Option ℤ)
  | [] => some (log, index)
  | e :: entries =>
    if toInt e.index < 0 then none
    else
      match log[(toInt e.index).toNat]? with
      | none => none
      | some x =>
        if x.term ≠ ofInt (toInt e.term) then
          some (log.take (toInt e.index).toNat, some (toInt e.index))
        else findConflict log (some (toInt e.index)) entries

/-- The entries that are appended: the message from offset `index` on. -/
def newEntries (entries : List LogEntry) : Option ℤ → Option (List LogEntry)
  | none => none
  | some index =>
    if 0 ≤ index ∧ index ≤ entries.length then some (entries.drop index.toNat) else none

/-- The handler of `append_entries`; accepting leaves the reply as it came. -/
def appendEntries (s : RaftServer peers) (args : AppendEntriesArgs) (reply : AppendEntriesReply) :
    Option (RaftServer peers × AppendEntriesReply) :=
  if args.term < s.currentTerm then some (s, ⟨args.term, false⟩)
  else if s.logEntries.length < args.prevLogIndex then some (s, ⟨args.term, false⟩)
  else
    match s.logEntries[args.prevLogIndex]? with
    | none => none
    | some e =>
      if e.term ≠ args.prevLogTerm then some (s, ⟨args.term, false⟩)
      else
        (findConflict s.logEntries none args.logEntries).bind fun x =>
          (newEntries args.logEntries x.2).map fun entries =>
            let log := x.1 ++ entries
            ({ s with
                logEntries := log
                commitIndex :=
                  if s.commitIndex < args.leaderCommit then
                    min args.leaderCommit (ofInt ((log.length : ℤ) - 1))
                  else s.commitIndex },
              reply)

/-- A message is refused and changes nothing, or what the loop leaves of the log goes on with new
entries. -/
theorem appendEntries_cases {s t : RaftServer peers} {args : AppendEntriesArgs}
    {reply r : AppendEntriesReply} (h : s.appendEntries args reply = some (t, r)) :
    ((s.currentTerm ≤ args.term →
        s.logEntries[args.prevLogIndex]?.map LogEntry.term ≠ some args.prevLogTerm) ∧
      t = s ∧ r = ⟨args.term, false⟩) ∨
    (s.currentTerm ≤ args.term ∧
      s.logEntries[args.prevLogIndex]?.map LogEntry.term = some args.prevLogTerm ∧ r = reply ∧
      ∃ log index new, findConflict s.logEntries none args.logEntries = some (log, index) ∧
        newEntries args.logEntries index = some new ∧
        t = { s with
          logEntries := log ++ new
          commitIndex :=
            if s.commitIndex < args.leaderCommit then
              min args.leaderCommit (ofInt (((log ++ new).length : ℤ) - 1))
            else s.commitIndex }) := by
  unfold appendEntries at h
  split at h
  · next hlt =>
    obtain ⟨rfl, rfl⟩ := Prod.mk.inj (Option.some.inj h)
    exact Or.inl ⟨fun hle => absurd hlt (not_lt.mpr hle), rfl, rfl⟩
  · next hlt =>
    split at h
    · next hshort =>
      obtain ⟨rfl, rfl⟩ := Prod.mk.inj (Option.some.inj h)
      exact Or.inl ⟨fun _ => by simp [List.getElem?_eq_none hshort.le], rfl, rfl⟩
    · split at h
      · simp at h
      · next x hx =>
        split at h
        · next hne =>
          obtain ⟨rfl, rfl⟩ := Prod.mk.inj (Option.some.inj h)
          exact Or.inl ⟨fun _ => by simpa [hx] using hne, rfl, rfl⟩
        · next heq =>
          obtain ⟨⟨log, index⟩, hfind, h⟩ := Option.bind_eq_some_iff.mp h
          obtain ⟨new, hnew, h⟩ := Option.map_eq_some_iff.mp h
          obtain ⟨rfl, rfl⟩ := Prod.mk.inj h
          exact Or.inr ⟨not_lt.mp hlt, by simpa [hx] using heq, rfl, log, index, new, hfind, hnew,
            rfl⟩

theorem appendEntries_of_lt {s t : RaftServer peers} {args : AppendEntriesArgs}
    {reply r : AppendEntriesReply} (hlt : args.term < s.currentTerm)
    (h : s.appendEntries args reply = some (t, r)) : t = s ∧ r = ⟨args.term, false⟩ := by
  obtain ⟨-, ht⟩ | ⟨hle, -⟩ := appendEntries_cases h
  · exact ht
  · exact absurd hlt (not_lt.mpr hle)

/-- Followers whose `match_index_` has reached `n`. -/
def matching (s : RaftServer peers) (n : ℕ) : ℕ :=
  (Finset.univ.filter fun i => (n : ℤ) ≤ s.matchIndex i).card

/-- One round of the loop of `update_commit_index`. -/
def commitRound (s : RaftServer peers) (n : ℕ) : RaftServer peers :=
  if s.majority ≤ s.matching n ∧ s.logEntries[n]?.map LogEntry.term = some s.currentTerm then
    { s with commitIndex := n }
  else s

/-- The loop starts at an `int`; a negative one compares as larger than any size. -/
def updateCommitIndex (s : RaftServer peers) : RaftServer peers :=
  let n := toInt (s.commitIndex + 1)
  if n < 0 then s
  else (List.range' n.toNat (s.logEntries.length - n.toNat)).foldl commitRound s

/-- The commit index stays, or moves on to an index that enough followers have reached. -/
theorem foldl_commitRound (l : List ℕ) (s : RaftServer peers) :
    ∃ k, l.foldl commitRound s = { s with commitIndex := k } ∧
      (k = s.commitIndex ∨ (k ∈ l ∧ s.majority ≤ s.matching k)) := by
  induction l generalizing s with
  | nil => exact ⟨s.commitIndex, rfl, Or.inl rfl⟩
  | cons n l ih =>
    obtain ⟨k, hk, hcase⟩ := ih (s.commitRound n)
    refine ⟨k, ?_, ?_⟩
    · rw [List.foldl_cons, hk]
      unfold commitRound
      split <;> rfl
    · unfold commitRound at hcase
      split at hcase
      · next hn =>
        rcases hcase with rfl | ⟨hmem, hmaj⟩
        · exact Or.inr ⟨List.mem_cons_self, hn.1⟩
        · exact Or.inr ⟨List.mem_cons_of_mem _ hmem, hmaj⟩
      · rcases hcase with rfl | ⟨hmem, hmaj⟩
        · exact Or.inl rfl
        · exact Or.inr ⟨List.mem_cons_of_mem _ hmem, hmaj⟩

theorem updateCommitIndex_eq (s : RaftServer peers) :
    ∃ k, s.updateCommitIndex = { s with commitIndex := k } := by
  unfold updateCommitIndex
  dsimp only
  split
  · exact ⟨s.commitIndex, rfl⟩
  · obtain ⟨k, hk, -⟩ := foldl_commitRound (List.range' (toInt (s.commitIndex + 1)).toNat
      (s.logEntries.length - (toInt (s.commitIndex + 1)).toNat)) s
    exact ⟨k, hk⟩

/-- The handler of a reply, with the messages it sends. -/
def receiveAppendEntriesReply (s : RaftServer peers) (id : Fin peers)
    (reply : AppendEntriesReply) :
    Option (RaftServer peers × List (Fin peers × AppendEntriesArgs)) :=
  if s.role ≠ .leader then some (s, [])
  else
    let s := s.observe reply.term
    if reply.success then
      let s := { s with
        nextIndex := Function.update s.nextIndex id (s.nextIndex id + 1)
        matchIndex := Function.update s.matchIndex id (s.matchIndex id + 1) }
      some (s.updateCommitIndex, [])
    else
      let s := { s with nextIndex := Function.update s.nextIndex id (s.nextIndex id - 1) }
      s.sendAppendEntriesArgs.map fun sent => (s.updateCommitIndex, sent)

/-- A leader takes over a later term, and then counts a success, or asks again after a failure. -/
theorem receiveAppendEntriesReply_cases {s t : RaftServer peers} {id : Fin peers}
    {reply : AppendEntriesReply} {sent : List (Fin peers × AppendEntriesArgs)}
    (h : s.receiveAppendEntriesReply id reply = some (t, sent)) :
    (s.role ≠ .leader ∧ t = s ∧ sent = []) ∨
    (s.role = .leader ∧ ∃ o next, o = s.observe reply.term ∧
      ((reply.success = true ∧ sent = [] ∧ t =
        { o with
          nextIndex := next
          matchIndex := Function.update o.matchIndex id (o.matchIndex id + 1)
          }.updateCommitIndex) ∨
      (reply.success = false ∧ { o with nextIndex := next }.sendAppendEntriesArgs = some sent ∧
        t = { o with nextIndex := next }.updateCommitIndex))) := by
  unfold receiveAppendEntriesReply at h
  split at h
  · next hrole =>
    obtain ⟨rfl, rfl⟩ := Prod.mk.inj (Option.some.inj h)
    exact Or.inl ⟨hrole, rfl, rfl⟩
  · next hrole =>
    refine Or.inr ⟨not_not.mp hrole, s.observe reply.term, ?_⟩
    dsimp only at h
    split at h
    · next hok =>
      obtain ⟨rfl, rfl⟩ := Prod.mk.inj (Option.some.inj h)
      exact ⟨_, rfl, Or.inl ⟨hok, rfl, rfl⟩⟩
    · next hfail =>
      obtain ⟨sent', hsent, h⟩ := Option.map_eq_some_iff.mp h
      obtain ⟨rfl, rfl⟩ := Prod.mk.inj h
      exact ⟨_, rfl, Or.inr ⟨by simpa using hfail, hsent, rfl⟩⟩

end RaftServer

end AlphaDb.Raft
