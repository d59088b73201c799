import AlphaDb.Lib.Trace
import AlphaDb.Raft.VoteRequest
import AlphaDb.Raft.Calls

/-! The term of a server between two restarts: 64 bits wide, but taken over through an `int`. -/
namespace AlphaDb.Raft

open Trace

/-- Which 64-bit terms survive the `int` of `convert_to`. -/
theorem ofInt_toInt_iff {term : ℕ} (h : term < 2 ^ 64) :
    ofInt (toInt term) = term ↔ term < 2 ^ 31 ∨ 2 ^ 64 - 2 ^ 31 ≤ term := by
  unfold ofInt toInt
  rw [Int.bmod_def]
  split <;> omega

namespace RaftServer

variable {peers : ℕ} {s t : RaftServer peers} {a : Call peers}

/-- The term of the message, if the server in its role looks at it. -/
def seenTerm (s : RaftServer peers) : Call peers → Option ℕ
  | .requestVote args _ => some args.term
  | .receiveRequestVoteReply reply => if s.role = .candidate then some reply.term else none
  | .receiveAppendEntriesReply _ reply => if s.role = .leader then some reply.term else none
  | .convertToCandidate | .appendEntries .. | .replicate _ | .applyToStatemachine _ => none

/-- A call does not lower the term, and a later term that it has seen is taken over as it is. -/
def TermKept (s : RaftServer peers) (a : Call peers) (t : RaftServer peers) : Prop :=
  s.currentTerm ≤ t.currentTerm ∧
    ∀ term, s.seenTerm a = some term → s.currentTerm < term → t.currentTerm = term

/-- A server that stands for election has room for one more term. -/
def HasRoom (s : RaftServer peers) : Call peers → Prop
  | .convertToCandidate => s.currentTerm + 1 < 2 ^ 64
  | .requestVote .. | .receiveRequestVoteReply _ | .appendEntries .. | .replicate _
  | .receiveAppendEntriesReply .. | .applyToStatemachine _ => True

instance : ∀ (s : RaftServer peers) (a : Call peers), Decidable (s.HasRoom a)
  | _, .convertToCandidate => inferInstanceAs (Decidable (_ < _))
  | _, .requestVote .. | _, .receiveRequestVoteReply _ | _, .appendEntries .. | _, .replicate _
  | _, .receiveAppendEntriesReply .. | _, .applyToStatemachine _ =>
    inferInstanceAs (Decidable True)

/-- A later term that is seen survives the `int`, and the own term has room. -/
def TermFits (s : RaftServer peers) (a : Call peers) : Prop :=
  s.HasRoom a ∧ ∀ term ∈ s.seenTerm a, s.currentTerm < term → ofInt (toInt term) = term

instance (s : RaftServer peers) (a : Call peers) : Decidable (s.TermFits a) :=
  inferInstanceAs (Decidable (_ ∧ ∀ _ ∈ _, _))

/-- Granting a vote leaves the term alone. -/
theorem grant_currentTerm (o : RaftServer peers) (v : ℤ) (c : Prop) [Decidable c]
    (x : RaftServer peers × RequestVoteReply) (r r' : RequestVoteReply) :
    ((if c then some ({ o with votedFor := v }, r) else some (o, r')).getD x).1.currentTerm =
      o.currentTerm := by
  split
  · rw [Option.getD_some]
  · rw [Option.getD_some]

theorem answerVote_currentTerm (args : RequestVoteArgs) (reply : RequestVoteReply) :
    (s.answerVote args reply).1.currentTerm = (s.observe args.term).currentTerm := by
  by_cases hle : s.currentTerm ≤ args.term
  swap
  · have hlt := not_le.mp hle
    rw [answerVote, requestVote, if_pos hlt, Option.getD_some, observe_of_le hlt.le]
  by_cases hv : VotedForAnother s args
  · rw [answerVote, requestVote_of_given hle hv, Option.getD_some]
  cases he : s.logEntries.getLast? with
  | none => rw [answerVote, requestVote_of_empty hle hv he, Option.getD_none]
  | some e =>
    rw [answerVote, requestVote_of_last hle hv he]
    exact grant_currentTerm ..

/-- What a call does to the term: to stand for election counts it up, a term that is seen is
observed, and all else leaves it alone. -/
theorem call_currentTerm (h : s.call a = some t) :
    (a = .convertToCandidate ∧ t.currentTerm = (s.currentTerm + 1) % 2 ^ 64) ∨
    (∃ term, s.seenTerm a = some term ∧ t.currentTerm = (s.observe term).currentTerm) ∨
    (s.seenTerm a = none ∧ t.currentTerm = s.currentTerm) := by
  cases a with
  | convertToCandidate =>
    obtain rfl := Option.some.inj h
    exact Or.inl ⟨rfl, rfl⟩
  | requestVote args reply =>
    right
    left
    have ht := answerVote_currentTerm (s := s) args reply
    rw [Option.some.inj h] at ht
    exact ⟨args.term, rfl, ht⟩
  | receiveRequestVoteReply reply =>
    right
    obtain rfl := Option.some.inj h
    obtain ⟨hrole, heq⟩ | ⟨hrole, o, rfl, -, hterm, -⟩ :=
      receiveRequestVoteReply_cases (s := s) reply
    · exact Or.inr ⟨if_neg hrole, by rw [heq]⟩
    · exact Or.inl ⟨reply.term, if_pos hrole, hterm⟩
  | receiveAppendEntriesReply id reply =>
    right
    obtain ⟨⟨u, sent⟩, hu, rfl⟩ := Option.map_eq_some_iff.mp h
    obtain ⟨hrole, rfl, -⟩ | ⟨hrole, o, next, ho, hcase⟩ := receiveAppendEntriesReply_cases hu
    · exact Or.inr ⟨if_neg hrole, rfl⟩
    · refine Or.inl ⟨reply.term, if_pos hrole, ?_⟩
      rw [← ho]
      rcases hcase with ⟨-, -, hu⟩ | ⟨-, -, hu⟩
      · rw [hu, (updateCommitIndex_sameVote _).2.2.1]
      · rw [hu, (updateCommitIndex_sameVote _).2.2.1]
  | appendEntries args reply =>
    obtain ⟨⟨u, r⟩, hu, rfl⟩ := Option.map_eq_some_iff.mp h
    exact Or.inr (Or.inr ⟨rfl, (appendEntries_sameVote hu).2.2.1⟩)
  | replicate func =>
    exact Or.inr (Or.inr ⟨rfl, (replicate_sameVote h).2.2.1⟩)
  | applyToStatemachine func =>
    obtain ⟨k, rfl⟩ := applyToStatemachine_eq h
    exact Or.inr (Or.inr ⟨rfl, rfl⟩)

theorem termKept_of_termFits (hfit : s.TermFits a) (h : s.call a = some t) : TermKept s a t := by
  obtain ⟨hroom, hterm⟩ := hfit
  obtain ⟨rfl, ht⟩ | ⟨term, hseen, ht⟩ | ⟨hseen, ht⟩ := call_currentTerm h
  · have hroom : s.currentTerm + 1 < 2 ^ 64 := hroom
    refine ⟨by omega, fun term hseen => ?_⟩
    simp [seenTerm] at hseen
  · by_cases hlt : s.currentTerm < term
    · have hkept := hterm term hseen hlt
      simp only [observe_of_lt hlt] at ht
      refine ⟨?_, fun term' hseen' _ => ?_⟩
      · exact hlt.le.trans (ht.trans hkept).ge
      · rw [ht, hkept, ← Option.some.inj (hseen.symm.trans hseen')]
    · rw [observe_of_le (not_lt.mp hlt)] at ht
      refine ⟨ht.ge, fun term' hseen' hlt' => ?_⟩
      rw [← Option.some.inj (hseen.symm.trans hseen')] at hlt'
      exact absurd hlt' hlt
  · refine ⟨ht.ge, fun term hseen' => ?_⟩
    rw [hseen] at hseen'
    simp at hseen'

/-- A call keeps the term exactly when the term fits. -/
theorem termKept_iff (hs : s.currentTerm < 2 ^ 64) (h : s.call a = some t) :
    TermKept s a t ↔ s.TermFits a := by
  refine ⟨fun hk => ⟨?_, ?_⟩, fun hfit => termKept_of_termFits hfit h⟩
  · cases a with
    | convertToCandidate =>
      obtain rfl := Option.some.inj h
      have hle : s.currentTerm ≤ (s.currentTerm + 1) % 2 ^ 64 := hk.1
      change s.currentTerm + 1 < 2 ^ 64
      omega
    | _ => trivial
  · intro term hseen hlt
    have ht := hk.2 term hseen hlt
    obtain ⟨rfl, -⟩ | ⟨term', hseen', ht'⟩ | ⟨hnone, -⟩ := call_currentTerm h
    · simp [seenTerm] at hseen
    · obtain rfl := Option.some.inj (hseen.symm.trans hseen')
      simp only [observe_of_lt hlt] at ht'
      exact ht'.symm.trans ht
    · rw [hnone] at hseen
      simp at hseen

/-- A server of this term with one entry. -/
def serverOf (term : ℕ) : RaftServer 2 := .restored 1 term [⟨0, 1⟩]

end RaftServer

end AlphaDb.Raft
