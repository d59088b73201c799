import AlphaDb.Lib.Trace
import AlphaDb.Raft.Calls

/-! A server grants at most one vote in a term. -/
namespace AlphaDb.Raft

open Trace

/-- A server, with the votes it has granted so far: term and candidate. -/
structure Ballot (peers : ℕ) where
  server : RaftServer peers
  granted : List (ℕ × ℤ)

namespace Ballot

variable {peers : ℕ} {b c : Ballot peers} {s t : RaftServer peers} {a : Call peers}

/-- The vote that a call grants; to stand for election is to vote for oneself. -/
def vote (s : RaftServer peers) : Call peers → Option (ℕ × ℤ)
  | .convertToCandidate => some ((s.currentTerm + 1) % 2 ^ 64, s.id)
  | .requestVote args reply =>
    if (s.answerVote args reply).2.voteGranted then some (args.term, args.candidateId) else none
  | _ => none

def step (b : Ballot peers) (a : Call peers) : Option (Ballot peers) :=
  (b.server.call a).map fun t => ⟨t, (vote b.server a).toList ++ b.granted⟩

/-- Terms and candidates of messages are in the range of `int`, and the 64-bit term of the server
does not wrap around. -/
def MessagesFit (b : Ballot peers) : Call peers → Prop
  | .convertToCandidate => b.server.currentTerm + 1 < 2 ^ 64
  | .requestVote args _ => args.term < 2 ^ 31 ∧ args.candidateId < 2 ^ 31
  | .receiveRequestVoteReply reply => reply.term < 2 ^ 31
  | .receiveAppendEntriesReply _ reply => reply.term < 2 ^ 31
  | _ => True

instance : ∀ (b : Ballot peers) (a : Call peers), Decidable (b.MessagesFit a)
  | _, .convertToCandidate => inferInstanceAs (Decidable (_ < _))
  | _, .requestVote .. => inferInstanceAs (Decidable (_ ∧ _))
  | _, .receiveRequestVoteReply _ => inferInstanceAs (Decidable (_ < _))
  | _, .receiveAppendEntriesReply .. => inferInstanceAs (Decidable (_ < _))
  | _, .appendEntries .. | _, .replicate _ | _, .applyToStatemachine _ =>
    inferInstanceAs (Decidable True)

/-- A server that has started, with any term, log and role; a vote that it has read from disk
counts as granted. -/
structure Starts (b : Ballot peers) : Prop where
  id : 0 ≤ b.server.id ∧ b.server.id < 2 ^ 31
  votedFor : -1 ≤ b.server.votedFor ∧ b.server.votedFor < 2 ^ 31
  granted : b.granted =
    if b.server.votedFor = -1 then [] else [(b.server.currentTerm, b.server.votedFor)]

/-- No two candidates have a vote of the same term. -/
def OneVote (b : Ballot peers) : Prop :=
  ∀ term x y, (term, x) ∈ b.granted → (term, y) ∈ b.granted → x = y

/-- The votes granted are of terms up to the current one, and `voted_for_` has the one of the
current term. -/
structure Recorded (b : Ballot peers) : Prop where
  id : 0 ≤ b.server.id ∧ b.server.id < 2 ^ 31
  votedFor : -1 ≤ b.server.votedFor ∧ b.server.votedFor < 2 ^ 31
  candidate : ∀ term x, (term, x) ∈ b.granted → 0 ≤ x
  past : ∀ term x, (term, x) ∈ b.granted → term ≤ b.server.currentTerm
  current : ∀ x, (b.server.currentTerm, x) ∈ b.granted → b.server.votedFor = x
  unique : OneVote b

theorem recorded_of_starts (h : Starts b) : Recorded b := by
  obtain ⟨hid, hvoted, hgranted⟩ := h
  have hmem : ∀ {term x}, (term, x) ∈ b.granted →
      term = b.server.currentTerm ∧ x = b.server.votedFor ∧ b.server.votedFor ≠ -1 := by
    intro term x hx
    rw [hgranted] at hx
    split at hx
    · simp at hx
    · next hne =>
      obtain ⟨rfl, rfl⟩ := Prod.mk.inj (List.mem_singleton.mp hx)
      exact ⟨rfl, rfl, hne⟩
  refine ⟨hid, hvoted, ?_, ?_, ?_, ?_⟩
  · intro term x hx
    obtain ⟨-, rfl, hne⟩ := hmem hx
    omega
  · intro term x hx
    exact (hmem hx).1.le
  · intro x hx
    exact (hmem hx).2.1.symm
  · intro term x y hx hy
    exact (hmem hx).2.1.trans (hmem hy).2.1.symm

/-- What a call can do to the vote: nothing; forget it for a later term; or grant one, in a later
term, or in the current one if there was none or the same. -/
inductive Turn (s t : RaftServer peers) : Option (ℕ × ℤ) → Prop
  | same : t.currentTerm = s.currentTerm → t.votedFor = s.votedFor → Turn s t none
  | forget : s.currentTerm < t.currentTerm → t.votedFor = -1 → Turn s t none
  | grant {x : ℤ} : 0 ≤ x → x < 2 ^ 31 → s.currentTerm ≤ t.currentTerm → t.votedFor = x →
      (t.currentTerm = s.currentTerm → s.votedFor = -1 ∨ s.votedFor = x) →
      Turn s t (some (t.currentTerm, x))

theorem turn_observe {term : ℕ} (hterm : term < 2 ^ 31)
    (hcur : t.currentTerm = (s.observe term).currentTerm)
    (hvoted : t.votedFor = (s.observe term).votedFor) : Turn s t none := by
  obtain ⟨hlt, ho⟩ | ⟨-, ho⟩ := observe_cases (s := s) hterm
  · rw [ho] at hcur hvoted
    exact .forget (hcur ▸ hlt) hvoted
  · rw [ho] at hcur hvoted
    exact .same hcur hvoted

theorem turn_sameVote (h : SameVote s t) : Turn s t none :=
  .same h.2.2.1 h.2.2.2

theorem turn_requestVote (h : Recorded b) {args : RequestVoteArgs} {reply : RequestVoteReply}
    (hterm : args.term < 2 ^ 31) (hcand : args.candidateId < 2 ^ 31) :
    Turn b.server (b.server.answerVote args reply).1 (vote b.server (.requestVote args reply)) := by
  obtain ⟨hg, ht⟩ | ⟨hg, hle, o, ho, ht, hfree⟩ :=
    RaftServer.answerVote_cases (s := b.server) args reply
  · simp only [vote, hg]
    rcases ht with ht | ht
    · rw [ht]
      exact .same rfl rfl
    · exact turn_observe hterm (by rw [ht]) (by rw [ht])
  · have hcur : o.currentTerm = args.term := by
      obtain ⟨-, ho'⟩ | ⟨hge, ho'⟩ := observe_cases (s := b.server) hterm
      · rw [ho, ho']
      · rw [ho, ho']
        exact le_antisymm hle hge
    have hfor : (b.server.answerVote args reply).1.votedFor = args.candidateId := by
      simp only [ht, toInt_of_lt hcand]
    have hgrant : Turn b.server (b.server.answerVote args reply).1
        (some ((b.server.answerVote args reply).1.currentTerm, (args.candidateId : ℤ))) := by
      have hpos : (0 : ℤ) ≤ args.candidateId := by omega
      have hlt : (args.candidateId : ℤ) < 2 ^ 31 := by omega
      refine .grant hpos hlt ?_ hfor ?_
      · simp only [ht, hcur]
        exact hle
      · -- the vote of the current term is free, or is for this candidate
        simp only [ht]
        intro hsame
        have hkept : o = b.server := by
          obtain ⟨hlt, -⟩ | ⟨-, ho'⟩ := observe_cases (s := b.server) hterm
          · exact absurd (hcur.symm.trans hsame) hlt.ne'
          · exact ho.trans ho'
        rw [hkept] at hfree
        rcases hfree with hfree | hfree
        · exact Or.inl hfree
        · have := h.votedFor
          by_cases hnone : b.server.votedFor = -1
          · exact Or.inl hnone
          · right
            omega
    have hnow : (b.server.answerVote args reply).1.currentTerm = args.term := by
      rw [ht]
      exact hcur
    rw [hnow] at hgrant
    simpa [vote, hg] using hgrant

theorem call_id (h : s.call a = some t) : t.id = s.id := by
  cases a with
  | convertToCandidate =>
    obtain rfl := Option.some.inj h
    rfl
  | requestVote args reply =>
    obtain rfl := Option.some.inj h
    obtain ⟨-, ht | ht⟩ | ⟨-, -, o, rfl, ht, -⟩ :=
      RaftServer.answerVote_cases (s := s) args reply
    · rw [ht]
    · rw [ht, RaftServer.observe_id]
    · simp only [ht, RaftServer.observe_id]
  | receiveRequestVoteReply reply =>
    obtain rfl := Option.some.inj h
    obtain ⟨-, ht⟩ | ⟨-, o, rfl, hid, -⟩ :=
      RaftServer.receiveRequestVoteReply_cases (s := s) reply
    · rw [ht]
    · rw [hid, RaftServer.observe_id]
  | appendEntries args reply =>
    obtain ⟨⟨t', r⟩, ht, rfl⟩ := Option.map_eq_some_iff.mp h
    exact (appendEntries_sameVote ht).1
  | receiveAppendEntriesReply id reply =>
    obtain ⟨⟨t', sent⟩, ht, rfl⟩ := Option.map_eq_some_iff.mp h
    rcases receiveAppendEntriesReply_sameVote ht with hs | hs
    · exact hs.1
    · exact hs.1.trans (RaftServer.observe_id ..)
  | replicate func => exact (replicate_sameVote h).1
  | applyToStatemachine func =>
    obtain ⟨k, rfl⟩ := RaftServer.applyToStatemachine_eq h
    rfl

/-- Every call takes a turn. -/
theorem turn_call (h : Recorded b) (hfit : b.MessagesFit a) (hc : b.server.call a = some t) :
    Turn b.server t (vote b.server a) := by
  cases a with
  | convertToCandidate =>
    obtain rfl := Option.some.inj hc
    have hterm : (b.server.currentTerm + 1) % 2 ^ 64 = b.server.currentTerm + 1 :=
      Nat.mod_eq_of_lt hfit
    refine .grant h.id.1 h.id.2 ?_ rfl ?_
    · simp only [RaftServer.convertTo, hterm]
      omega
    · intro hsame
      simp only [RaftServer.convertTo, hterm] at hsame
      omega
  | requestVote args reply =>
    obtain rfl := Option.some.inj hc
    exact turn_requestVote h hfit.1 hfit.2
  | receiveRequestVoteReply reply =>
    obtain rfl := Option.some.inj hc
    obtain ⟨-, ht⟩ | ⟨-, o, rfl, -, hcur, hvoted, -⟩ :=
      RaftServer.receiveRequestVoteReply_cases (s := b.server) reply
    · rw [ht]
      exact .same rfl rfl
    · exact turn_observe hfit hcur hvoted
  | appendEntries args reply =>
    obtain ⟨⟨t', r⟩, ht, rfl⟩ := Option.map_eq_some_iff.mp hc
    exact turn_sameVote (appendEntries_sameVote ht)
  | receiveAppendEntriesReply id reply =>
    obtain ⟨⟨t', sent⟩, ht, rfl⟩ := Option.map_eq_some_iff.mp hc
    rcases receiveAppendEntriesReply_sameVote ht with hs | hs
    · exact turn_sameVote hs
    · exact turn_observe hfit hs.2.2.1 hs.2.2.2
  | replicate func => exact turn_sameVote (replicate_sameVote (s := b.server.setApplyFunc func) hc)
  | applyToStatemachine func =>
    obtain ⟨k, rfl⟩ := RaftServer.applyToStatemachine_eq hc
    exact .same rfl rfl

theorem Recorded.turn (h : Recorded b) (hid : t.id = b.server.id) {v : Option (ℕ × ℤ)}
    (hturn : Turn b.server t v) : Recorded ⟨t, v.toList ++ b.granted⟩ := by
  have hid' : 0 ≤ t.id ∧ t.id < 2 ^ 31 := hid ▸ h.id
  cases hturn with
  | same hcur hvoted =>
    refine ⟨hid', hvoted ▸ h.votedFor, h.candidate, ?_, ?_, h.unique⟩
    · intro term x hx
      exact hcur ▸ h.past term x hx
    · intro x hx
      rw [hcur] at hx
      exact hvoted.trans (h.current x hx)
  | forget hlt hvoted =>
    refine ⟨hid', ?_, h.candidate, ?_, ?_, h.unique⟩
    · simp only [hvoted]
      norm_num
    · intro term x hx
      exact (h.past term x hx).trans hlt.le
    · intro x hx
      exact absurd (h.past _ x hx) (not_le.mpr hlt)
  | @grant x hx0 hx1 hle hvoted hfree =>
    -- an old vote of the term that the new one is for names the same candidate
    have hold : ∀ y, (t.currentTerm, y) ∈ b.granted → y = x := by
      intro y hy
      have hsame : t.currentTerm = b.server.currentTerm := le_antisymm (h.past _ y hy) hle
      have hcand := h.candidate _ y hy
      have hvote := h.current y (hsame ▸ hy)
      rcases hfree hsame with hnone | hx
      · omega
      · exact hvote.symm.trans hx
    have hmem : ∀ {term y}, (term, y) ∈ (some (t.currentTerm, x)).toList ++ b.granted →
        (term = t.currentTerm ∧ y = x) ∨ (term, y) ∈ b.granted := by
      intro term y hy
      simpa using hy
    refine ⟨hid', ⟨by simp only [hvoted]; omega, by simp only [hvoted]; exact hx1⟩, ?_, ?_, ?_, ?_⟩
    · intro term y hy
      rcases hmem hy with ⟨-, rfl⟩ | hy
      · exact hx0
      · exact h.candidate term y hy
    · intro term y hy
      rcases hmem hy with ⟨rfl, -⟩ | hy
      · exact le_rfl
      · exact (h.past term y hy).trans hle
    · intro y hy
      rcases hmem hy with ⟨-, rfl⟩ | hy
      · exact hvoted
      · exact hvoted.trans (hold y hy).symm
    · intro term y z hy hz
      rcases hmem hy with ⟨rfl, rfl⟩ | hy'
      · rcases hmem hz with ⟨-, rfl⟩ | hz'
        · rfl
        · exact (hold z hz').symm
      · rcases hmem hz with ⟨rfl, rfl⟩ | hz'
        · exact hold y hy'
        · exact h.unique term y z hy' hz'

theorem recorded_step : TrInv (Guarded MessagesFit step) (fun b : Ballot peers => Recorded b) := by
  rintro b a c ⟨hfit, hs⟩ h
  obtain ⟨t, ht, rfl⟩ := Option.map_eq_some_iff.mp hs
  exact h.turn (call_id ht) (turn_call h hfit ht)

/-- A vote once given in a term changes only with the term. -/
theorem Turn.votedFor_eq {v : Option (ℕ × ℤ)} (h : Turn s t v) (hvoted : s.votedFor ≠ -1)
    (hne : t.votedFor ≠ s.votedFor) : s.currentTerm < t.currentTerm := by
  cases h with
  | same _ hsame => exact absurd hsame hne
  | forget hlt _ => exact hlt
  | grant _ _ hle hfor hfree =>
    rcases hle.lt_or_eq with hlt | heq
    · exact hlt
    · rcases hfree heq.symm with hnone | hx
      · exact absurd hnone hvoted
      · exact absurd (hfor.trans hx.symm) hne

/-- In every run a term has at most one vote, and a vote changes only together with the term. -/
theorem run_one_vote {steps : List (Call peers)} (hb : Starts b)
    (hrun : MTr (Guarded MessagesFit step) b steps c) :
    OneVote c ∧ ∀ a d, Guarded MessagesFit step c a d → c.server.votedFor ≠ -1 →
      d.server.votedFor ≠ c.server.votedFor → c.server.currentTerm < d.server.currentTerm := by
  have h := mTr_trInv recorded_step hrun (recorded_of_starts hb)
  refine ⟨h.unique, ?_⟩
  rintro a d ⟨hfit, hs⟩ hvoted hne
  obtain ⟨t, ht, rfl⟩ := Option.map_eq_some_iff.mp hs
  exact (turn_call h hfit ht).votedFor_eq hvoted hne

/-- A server that votes in term 1, refuses another candidate, stands in term 2 and votes in
term 3. -/
theorem run_one_vote_three_terms :
    ∃ c : Ballot 2, MTr (Guarded MessagesFit step) ⟨.restored 1 0 [⟨0, 0⟩], []⟩
        [.requestVote ⟨1, 2, 0, 0⟩ ⟨1, false⟩, .requestVote ⟨1, 3, 0, 0⟩ ⟨1, false⟩,
          .convertToCandidate, .requestVote ⟨3, 3, 0, 0⟩ ⟨3, false⟩] c ∧
      c.granted = [(3, 3), (2, 1), (1, 2)] ∧ OneVote c := by
  have h : (execGuarded MessagesFit step (⟨.restored 1 0 [⟨0, 0⟩], []⟩ : Ballot 2)
      [.requestVote ⟨1, 2, 0, 0⟩ ⟨1, false⟩, .requestVote ⟨1, 3, 0, 0⟩ ⟨1, false⟩,
        .convertToCandidate, .requestVote ⟨3, 3, 0, 0⟩ ⟨3, false⟩]).any
      (fun c => c.granted = [(3, 3), (2, 1), (1, 2)]) = true := by
    decide +kernel
  obtain ⟨c, hrun, hc⟩ := exists_mTr_of_execGuarded h
  have hstart : Starts (⟨.restored 1 0 [⟨0, 0⟩], []⟩ : Ballot 2) :=
    ⟨by decide, by decide, rfl⟩
  exact ⟨c, hrun, of_decide_eq_true hc, (run_one_vote hstart hrun).1⟩

end Ballot

end AlphaDb.Raft
