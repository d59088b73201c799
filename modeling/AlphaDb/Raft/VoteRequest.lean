import AlphaDb.Raft.Votes

/-! The answer to one vote request, against what a voter should do with it. -/
namespace AlphaDb.Raft

namespace RaftServer

variable {peers : ℕ} {s t : RaftServer peers} {args : RequestVoteArgs}
  {reply r : RequestVoteReply} {e : LogEntry}

/-- The vote of the term of the request has gone to somebody else. -/
def VotedForAnother (s : RaftServer peers) (args : RequestVoteArgs) : Prop :=
  args.term = s.currentTerm ∧ s.votedFor ≠ -1 ∧ (s.votedFor % 2 ^ 32).toNat ≠ args.candidateId

/-- The last entry of the candidate is of a later term than this one, or of the same term and not
before it. -/
def UpToDate (args : RequestVoteArgs) (e : LogEntry) : Prop :=
  e.term < args.lastLogTerm ∨ e.term = args.lastLogTerm ∧ e.index ≤ args.lastLogIndex

instance (args : RequestVoteArgs) (e : LogEntry) : Decidable (UpToDate args e) :=
  inferInstanceAs (Decidable (_ ∨ _))

/-- When a voter should grant its vote; nothing is ahead of an empty log. -/
def Grantable (s : RaftServer peers) (args : RequestVoteArgs) : Prop :=
  s.currentTerm ≤ args.term ∧ ¬ VotedForAnother s args ∧
    ∀ e ∈ s.logEntries.getLast?, UpToDate args e

/-- What a voter should do with a request, given the reply object it fills in. -/
def VotesAsSpecified (s : RaftServer peers) (args : RequestVoteArgs) (reply : RequestVoteReply) :
    Prop :=
  ∃ t r, requestVote s args reply = some (t, r) ∧
    (r.voteGranted = true ↔ Grantable s args) ∧
    (r.voteGranted = true → t.votedFor = toInt args.candidateId) ∧
    r.term = t.currentTerm ∧
    (s.currentTerm < args.term → t.role = .follower ∧ t.currentTerm = args.term)

/-- A request that the code answers as it should: the term is not old, and survives the `int` of
`convert_to`; and the vote is given away, or the candidate's last entry is strictly behind, or it
is the same and the reply object came with the term that is never assigned to it. -/
def AnsweredRight (s : RaftServer peers) (args : RequestVoteArgs) (reply : RequestVoteReply) :
    Prop :=
  s.currentTerm ≤ args.term ∧ (s.currentTerm < args.term → ofInt (toInt args.term) = args.term) ∧
    (VotedForAnother s args ∨ ∃ e, s.logEntries.getLast? = some e ∧
      (¬ UpToDate args e ∨
        e.index = args.lastLogIndex ∧ e.term = args.lastLogTerm ∧ reply.term = args.term))

theorem observe_of_lt {term : ℕ} (h : s.currentTerm < term) : s.observe term =
    { s with role := .follower, currentTerm := ofInt (toInt term), votedFor := -1 } := by
  rw [observe, if_pos h, convertTo]

/-- The vote is free after the term has been taken over, unless it has gone to somebody else. -/
theorem observe_free_iff (h : s.currentTerm ≤ args.term) :
    ((s.observe args.term).votedFor = -1 ∨
      ((s.observe args.term).votedFor % 2 ^ 32).toNat = args.candidateId) ↔
    ¬ VotedForAnother s args := by
  unfold VotedForAnother
  by_cases hlt : s.currentTerm < args.term
  · simp [observe_of_lt hlt, hlt.ne']
  · have heq : args.term = s.currentTerm := by omega
    rw [observe_of_le heq.le]
    simp only [heq, true_and, not_and, not_not]
    exact Decidable.or_iff_not_imp_left

/-- The term after a request that is not old. -/
theorem observe_currentTerm (h : s.currentTerm ≤ args.term) :
    (s.observe args.term).currentTerm = args.term ↔
      (s.currentTerm < args.term → ofInt (toInt args.term) = args.term) := by
  by_cases hlt : s.currentTerm < args.term
  · simp only [observe_of_lt hlt, hlt, forall_const]
  · have heq : args.term = s.currentTerm := by omega
    rw [observe_of_le heq.le]
    simp [heq]

theorem observe_role (h : s.currentTerm < args.term) :
    (s.observe args.term).role = .follower := by
  rw [observe_of_lt h]

@[simp] theorem observe_logEntries (term : ℕ) : (s.observe term).logEntries = s.logEntries := by
  unfold observe
  split <;> rfl

/-- A vote that is given away is refused before the log is looked at. -/
theorem requestVote_of_given (h : s.currentTerm ≤ args.term) (hv : VotedForAnother s args) :
    requestVote s args reply = some (s.observe args.term, ⟨args.term, false⟩) := by
  rw [requestVote, if_neg (not_lt.mpr h)]
  exact if_neg fun hfree => (observe_free_iff h).mp hfree hv

theorem requestVote_of_last (h : s.currentTerm ≤ args.term) (hv : ¬ VotedForAnother s args)
    (he : s.logEntries.getLast? = some e) :
    requestVote s args reply =
      if e.index = args.lastLogIndex ∧ e.term = args.lastLogTerm then
        some ({ s.observe args.term with votedFor := toInt args.candidateId },
          { reply with voteGranted := true })
      else some (s.observe args.term, ⟨args.term, false⟩) := by
  rw [requestVote, if_neg (not_lt.mpr h)]
  dsimp only
  rw [if_pos ((observe_free_iff h).mpr hv), observe_logEntries, he]

/-- The last entry of an empty log is undefined. -/
theorem requestVote_of_empty (h : s.currentTerm ≤ args.term) (hv : ¬ VotedForAnother s args)
    (he : s.logEntries.getLast? = none) : requestVote s args reply = none := by
  rw [requestVote, if_neg (not_lt.mpr h)]
  dsimp only
  rw [if_pos ((observe_free_iff h).mpr hv), observe_logEntries, he]

/-- A refusal with the term of the request is right if there was reason to refuse, and the term has
arrived. -/
theorem votesAsSpecified_refused (h : s.currentTerm ≤ args.term)
    (hr : requestVote s args reply = some (s.observe args.term, ⟨args.term, false⟩)) :
    VotesAsSpecified s args reply ↔
      ¬ Grantable s args ∧ (s.currentTerm < args.term → ofInt (toInt args.term) = args.term) := by
  rw [← observe_currentTerm h]
  constructor
  · rintro ⟨t, r, ht, hgrant, -, hterm, -⟩
    obtain ⟨rfl, rfl⟩ := Prod.mk.inj (Option.some.inj (hr.symm.trans ht))
    exact ⟨fun hg => absurd (hgrant.mpr hg) (by simp), hterm.symm⟩
  · rintro ⟨hno, hterm⟩
    exact ⟨_, _, hr, iff_of_false (by simp) hno, fun hg => absurd hg (by simp), hterm.symm,
      fun hlt => ⟨observe_role hlt, hterm⟩⟩

/-- A vote that is granted to a candidate with the same last entry: the reply keeps its term. -/
theorem votesAsSpecified_granted (h : s.currentTerm ≤ args.term) (hg : Grantable s args)
    (hr : requestVote s args reply =
      some ({ s.observe args.term with votedFor := toInt args.candidateId },
        { reply with voteGranted := true })) :
    VotesAsSpecified s args reply ↔
      (s.currentTerm < args.term → ofInt (toInt args.term) = args.term) ∧
        reply.term = args.term := by
  have hrole : s.currentTerm < args.term → (s.observe args.term).role = .follower := observe_role
  have hsame : ¬ s.currentTerm < args.term → (s.observe args.term).currentTerm = args.term := by
    intro hlt
    have heq : args.term = s.currentTerm := by omega
    rw [observe_of_le heq.le, heq]
  rw [← observe_currentTerm h]
  generalize s.observe args.term = o at hr hrole hsame
  constructor
  · rintro ⟨t, r, ht, -, -, hterm, hfollow⟩
    obtain ⟨rfl, rfl⟩ := Prod.mk.inj (Option.some.inj (hr.symm.trans ht))
    have hcur : o.currentTerm = args.term := by
      by_cases hlt : s.currentTerm < args.term
      · exact (hfollow hlt).2
      · exact hsame hlt
    exact ⟨hcur, hterm.trans hcur⟩
  · rintro ⟨hcur, hterm⟩
    refine ⟨_, _, hr, iff_of_true rfl hg, ?_, hterm.trans hcur.symm,
      fun hlt => ⟨hrole hlt, hcur⟩⟩
    simp

/-- A candidate whose log is ahead is refused. -/
example : ¬ VotesAsSpecified (.restored 1 1 [⟨0, 1⟩] : RaftServer 2) ⟨2, 2, 1, 2⟩ ⟨2, false⟩ := by
  rintro ⟨t, r, ht, hgrant, -⟩
  obtain ⟨rfl, rfl⟩ := Prod.mk.inj (Option.some.inj ht)
  refine absurd (hgrant.mpr ⟨by decide, by simp [VotedForAnother, restored], ?_⟩) (by decide)
  intro e he
  obtain rfl := Option.some.inj he
  exact Or.inl (by decide)

end RaftServer

end AlphaDb.Raft
