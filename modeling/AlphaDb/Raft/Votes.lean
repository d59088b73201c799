import AlphaDb.Raft.Server

/-! What the handlers of a server do to its term, its role and its vote. -/
namespace AlphaDb.Raft

variable {peers : ℕ} {s t : RaftServer peers}

/-- What an election looks at is unchanged. -/
def SameVote (s t : RaftServer peers) : Prop :=
  t.id = s.id ∧ t.role = s.role ∧ t.currentTerm = s.currentTerm ∧ t.votedFor = s.votedFor

theorem replicate_sameVote (h : s.replicate = some t) : SameVote s t := by
  obtain ⟨-, rfl⟩ | ⟨-, h⟩ := RaftServer.replicate_cases h
  · exact ⟨rfl, rfl, rfl, rfl⟩
  · obtain ⟨k, rfl⟩ := RaftServer.applyToStatemachine_eq h
    exact ⟨rfl, rfl, rfl, rfl⟩

theorem appendEntries_sameVote {args : AppendEntriesArgs} {reply r : AppendEntriesReply}
    (h : s.appendEntries args reply = some (t, r)) : SameVote s t := by
  obtain ⟨-, rfl, -⟩ | ⟨-, -, -, log, index, new, -, -, rfl⟩ := RaftServer.appendEntries_cases h
  · exact ⟨rfl, rfl, rfl, rfl⟩
  · exact ⟨rfl, rfl, rfl, rfl⟩

theorem updateCommitIndex_sameVote (s : RaftServer peers) : SameVote s s.updateCommitIndex := by
  obtain ⟨k, hk⟩ := s.updateCommitIndex_eq
  rw [hk]
  exact ⟨rfl, rfl, rfl, rfl⟩

/-- The reply of a follower is seen first, and changes the vote as a later term does. -/
theorem receiveAppendEntriesReply_sameVote {id : Fin peers} {reply : AppendEntriesReply}
    {sent : List (Fin peers × AppendEntriesArgs)}
    (h : s.receiveAppendEntriesReply id reply = some (t, sent)) :
    SameVote s t ∨ SameVote (s.observe reply.term) t := by
  obtain ⟨-, rfl, -⟩ | ⟨-, o, next, ho, hcase⟩ := RaftServer.receiveAppendEntriesReply_cases h
  · exact Or.inl ⟨rfl, rfl, rfl, rfl⟩
  · right
    rw [← ho]
    rcases hcase with ⟨-, -, ht⟩ | ⟨-, -, ht⟩
    · rw [ht]
      exact updateCommitIndex_sameVote { o with
        nextIndex := next, matchIndex := Function.update o.matchIndex id _ }
    · rw [ht]
      exact updateCommitIndex_sameVote { o with nextIndex := next }

/-- In the range of `int` a later term is taken over as it is. -/
theorem observe_cases {term : ℕ} (h : term < 2 ^ 31) :
    (s.currentTerm < term ∧ s.observe term =
      { s with role := .follower, currentTerm := term, votedFor := -1 }) ∨
    (term ≤ s.currentTerm ∧ s.observe term = s) := by
  by_cases hlt : s.currentTerm < term
  · left
    rw [RaftServer.observe, if_pos hlt, RaftServer.convertTo, ofInt_toInt h]
    exact ⟨hlt, rfl⟩
  · exact Or.inr ⟨not_lt.mp hlt, RaftServer.observe_of_le (not_lt.mp hlt)⟩

/-- A vote is refused, or granted after the term has been taken over. -/
theorem requestVote_cases {args : RequestVoteArgs} {reply r : RequestVoteReply}
    (h : s.requestVote args reply = some (t, r)) :
    (r = ⟨args.term, false⟩ ∧ (t = s ∨ t = s.observe args.term)) ∨
    (r = { reply with voteGranted := true } ∧ s.currentTerm ≤ args.term ∧
      ∃ o, o = s.observe args.term ∧ t = { o with votedFor := toInt args.candidateId } ∧
        (o.votedFor = -1 ∨ (o.votedFor % 2 ^ 32).toNat = args.candidateId)) := by
  unfold RaftServer.requestVote at h
  split at h
  · obtain ⟨rfl, rfl⟩ := Prod.mk.inj (Option.some.inj h)
    exact Or.inl ⟨rfl, Or.inl rfl⟩
  · next hterm =>
    dsimp only at h
    split at h
    · next hvoted =>
      split at h
      · simp at h
      · split at h
        · obtain ⟨rfl, rfl⟩ := Prod.mk.inj (Option.some.inj h)
          exact Or.inr ⟨rfl, not_lt.mp hterm, _, rfl, rfl, hvoted⟩
        · obtain ⟨rfl, rfl⟩ := Prod.mk.inj (Option.some.inj h)
          exact Or.inl ⟨rfl, Or.inr rfl⟩
    · obtain ⟨rfl, rfl⟩ := Prod.mk.inj (Option.some.inj h)
      exact Or.inl ⟨rfl, Or.inr rfl⟩

/-- A server that has not seen the term of a request votes for its sender. -/
theorem requestVote_of_lt {args : RequestVoteArgs} {reply : RequestVoteReply}
    (h : s.currentTerm < args.term) (hfit : args.term < 2 ^ 31)
    (hlast : s.logEntries.getLast? = some ⟨args.lastLogIndex, args.lastLogTerm⟩) :
    s.requestVote args reply =
      some ({ s with
        role := .follower
        currentTerm := args.term
        votedFor := toInt args.candidateId }, { reply with voteGranted := true }) := by
  obtain ⟨-, ho⟩ | ⟨hge, -⟩ := observe_cases (s := s) hfit
  · simp [RaftServer.requestVote, ho, hlast, h.le]
  · omega

theorem RaftServer.majority_eq (s t : RaftServer peers) : s.majority = t.majority := rfl

/-- Every granted reply of the term counts, also one that has been counted before. -/
theorem receiveRequestVoteReply_granted {r : RequestVoteReply} (hrole : s.role = .candidate)
    (hterm : r.term = s.currentTerm) (hg : r.voteGranted = true) :
    (s.receiveRequestVoteReply r).currentTerm = s.currentTerm ∧
    (s.majority ≤ s.votes + 1 → (s.receiveRequestVoteReply r).role = .leader) ∧
    (¬s.majority ≤ s.votes + 1 → (s.receiveRequestVoteReply r).role = .candidate ∧
      (s.receiveRequestVoteReply r).votes = s.votes + 1) := by
  have ho : s.observe s.currentTerm = s := RaftServer.observe_of_le le_rfl
  by_cases h : s.majority ≤ s.votes + 1
  · simp [RaftServer.receiveRequestVoteReply, RaftServer.convertTo, ho, hrole, hterm, hg, h]
  · simp [RaftServer.receiveRequestVoteReply, ho, hrole, hterm, hg, h]

end AlphaDb.Raft
