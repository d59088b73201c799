import AlphaDb.Raft.Votes

/-! One server between two restarts: the calls it gets, in any order and with any arguments. -/
namespace AlphaDb.Raft

/-- `apply_func_` may answer differently every time, so a call that uses it comes with it. -/
inductive Call (peers : ℕ)
  | convertToCandidate
  | requestVote (args : RequestVoteArgs) (reply : RequestVoteReply)
  | receiveRequestVoteReply (reply : RequestVoteReply)
  | appendEntries (args : AppendEntriesArgs) (reply : AppendEntriesReply)
  | receiveAppendEntriesReply (id : Fin peers) (reply : AppendEntriesReply)
  | replicate (func : LogEntry → Bool)
  | applyToStatemachine (func : LogEntry → Bool)

namespace RaftServer

variable {peers : ℕ} {s t : RaftServer peers}

def setApplyFunc (s : RaftServer peers) (func : LogEntry → Bool) : RaftServer peers :=
  { s with applyFunc := func }

/-- `request_vote` where the comparison with the last entry of an empty log fails. -/
def answerVote (s : RaftServer peers) (args : RequestVoteArgs) (reply : RequestVoteReply) :
    RaftServer peers × RequestVoteReply :=
  (s.requestVote args reply).getD (s.observe args.term, ⟨args.term, false⟩)

/-- The server after a call. -/
def call (s : RaftServer peers) : Call peers → Option (RaftServer peers)
  | .convertToCandidate => some (s.convertTo .candidate (-1))
  | .requestVote args reply => some (s.answerVote args reply).1
  | .receiveRequestVoteReply reply => some (s.receiveRequestVoteReply reply)
  | .appendEntries args reply => (s.appendEntries args reply).map Prod.fst
  | .receiveAppendEntriesReply id reply => (s.receiveAppendEntriesReply id reply).map Prod.fst
  | .replicate func => (s.setApplyFunc func).replicate
  | .applyToStatemachine func => (s.setApplyFunc func).applyToStatemachine

/-- A vote is refused, in the old term or in the one taken over, or it is granted. -/
theorem answerVote_cases (args : RequestVoteArgs) (reply : RequestVoteReply) :
    ((s.answerVote args reply).2.voteGranted = false ∧
      ((s.answerVote args reply).1 = s ∨ (s.answerVote args reply).1 = s.observe args.term)) ∨
    ((s.answerVote args reply).2.voteGranted = true ∧ s.currentTerm ≤ args.term ∧
      ∃ o, o = s.observe args.term ∧
        (s.answerVote args reply).1 = { o with votedFor := toInt args.candidateId } ∧
        (o.votedFor = -1 ∨ (o.votedFor % 2 ^ 32).toNat = args.candidateId)) := by
  unfold answerVote
  cases h : s.requestVote args reply with
  | none => exact Or.inl ⟨rfl, Or.inr rfl⟩
  | some x =>
    obtain ⟨t, r⟩ := x
    obtain ⟨rfl, ht⟩ | ⟨rfl, hle, ho⟩ := requestVote_cases h
    · exact Or.inl ⟨rfl, ht⟩
    · exact Or.inr ⟨rfl, hle, ho⟩

/-- A vote that comes in changes the term as any reply does. -/
theorem receiveRequestVoteReply_cases (reply : RequestVoteReply) :
    (s.role ≠ .candidate ∧ s.receiveRequestVoteReply reply = s) ∨
    s.role = .candidate ∧ ∃ o, o = s.observe reply.term ∧
      (s.receiveRequestVoteReply reply).id = o.id ∧
      (s.receiveRequestVoteReply reply).currentTerm = o.currentTerm ∧
      (s.receiveRequestVoteReply reply).votedFor = o.votedFor ∧
      (s.receiveRequestVoteReply reply).logEntries = o.logEntries ∧
      (s.receiveRequestVoteReply reply).commitIndex = o.commitIndex ∧
      (s.receiveRequestVoteReply reply).lastApplied = o.lastApplied := by
  unfold receiveRequestVoteReply
  split
  · next hrole => exact Or.inl ⟨hrole, rfl⟩
  · next hrole =>
    refine Or.inr ⟨not_not.mp hrole, _, rfl, ?_⟩
    dsimp only
    split
    · split <;> exact ⟨rfl, rfl, rfl, rfl, rfl, rfl⟩
    · exact ⟨rfl, rfl, rfl, rfl, rfl, rfl⟩

end RaftServer

end AlphaDb.Raft
