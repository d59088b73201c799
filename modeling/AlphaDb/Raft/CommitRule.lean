import AlphaDb.Raft.Server

/-! How far a leader commits (`update_commit_index`): the rule for it, and the `int` with which the
search runs over the log. -/
namespace AlphaDb.Raft.RaftServer

variable {peers : ℕ} {s : RaftServer peers} {N a k : ℕ}

/-- An entry of the leader's term that more than half of the servers hold: the leader, and the
followers that have reached it. -/
structure Committable (s : RaftServer peers) (N : ℕ) : Prop where
  term : s.logEntries[N]?.map LogEntry.term = some s.currentTerm
  servers : (peers + 1) / 2 + 1 ≤ 1 + s.matching N

/-- The `int` that the search starts from. -/
def searchStart (s : RaftServer peers) : ℤ := toInt (s.commitIndex + 1)

/-- The counter of the search stays an `int`, and the commit index moves to the greatest position
behind it that can be committed, or stays where it is if there is none. -/
def FollowsCommitRule (s : RaftServer peers) : Prop :=
  (0 ≤ s.searchStart → s.logEntries.length < 2 ^ 31) ∧
    ((∃ N, IsGreatest {N | s.commitIndex < N ∧ s.Committable N} N ∧
        s.updateCommitIndex = { s with commitIndex := N }) ∨
      ((∀ N, s.commitIndex < N → ¬ s.Committable N) ∧ s.updateCommitIndex = s))

theorem Committable.lt_length (h : s.Committable N) : N < s.logEntries.length := by
  obtain ⟨e, he, -⟩ := Option.map_eq_some_iff.mp h.term
  exact (List.getElem?_eq_some_iff.mp he).1

/-- The source counts the followers only, and asks for one less. -/
theorem committable_iff : s.Committable N ↔
    s.majority ≤ s.matching N ∧ s.logEntries[N]?.map LogEntry.term = some s.currentTerm := by
  have hcount : s.majority ≤ s.matching N ↔ (peers + 1) / 2 + 1 ≤ 1 + s.matching N := by
    unfold majority
    omega
  rw [hcount]
  exact ⟨fun h => ⟨h.servers, h.term⟩, fun h => ⟨h.2, h.1⟩⟩

theorem committable_setCommit (s : RaftServer peers) (c : ℕ) :
    { s with commitIndex := c }.Committable N ↔ s.Committable N :=
  ⟨fun h => ⟨h.term, h.servers⟩, fun h => ⟨h.term, h.servers⟩⟩

/-- A round leaves the commit index or moves it to its own position. -/
theorem commitRound_eq (s : RaftServer peers) (n : ℕ) :
    s.Committable n ∧ s.commitRound n = { s with commitIndex := n } ∨
      ¬ s.Committable n ∧ s.commitRound n = s := by
  rw [committable_iff, commitRound]
  by_cases h : s.majority ≤ s.matching n ∧
      s.logEntries[n]?.map LogEntry.term = some s.currentTerm
  · exact .inl ⟨h, if_pos h⟩
  · exact .inr ⟨h, if_neg h⟩

/-- The rounds over some positions: the last one that can be committed stays. -/
theorem foldl_commitRound_range (s : RaftServer peers) (a k : ℕ) :
    ((∀ n, a ≤ n → n < a + k → ¬ s.Committable n) ∧
        (List.range' a k).foldl commitRound s = s) ∨
      ∃ N, IsGreatest {n | a ≤ n ∧ n < a + k ∧ s.Committable n} N ∧
        (List.range' a k).foldl commitRound s = { s with commitIndex := N } := by
  induction k with
  | zero =>
    refine .inl ⟨?_, rfl⟩
    intro n hle hlt
    omega
  | succ k ih =>
    rw [List.range'_1_concat, List.foldl_append, List.foldl_cons, List.foldl_nil]
    obtain ⟨c, hc⟩ : ∃ c, (List.range' a k).foldl commitRound s = { s with commitIndex := c } := by
      obtain ⟨-, h⟩ | ⟨N, -, h⟩ := ih
      · exact ⟨s.commitIndex, h⟩
      · exact ⟨N, h⟩
    have hround := commitRound_eq ((List.range' a k).foldl commitRound s) (a + k)
    rw [hc, committable_setCommit] at hround
    obtain ⟨hlast, hround⟩ | ⟨hlast, hround⟩ := hround
    · -- the new position is greater than those before
      refine .inr ⟨a + k, ⟨⟨by omega, by omega, hlast⟩, ?_⟩, by rw [hc, hround]⟩
      rintro n ⟨-, hlt, -⟩
      omega
    · obtain ⟨hnone, heq⟩ | ⟨N, ⟨⟨hle, hlt, hN⟩, hmax⟩, heq⟩ := ih
      · refine .inl ⟨?_, ?_⟩
        · intro n hle hlt
          obtain rfl | hne := eq_or_ne n (a + k)
          · exact hlast
          · exact hnone n hle (by omega)
        · rw [hc, hround, ← hc, heq]
      · refine .inr ⟨N, ⟨⟨hle, by omega, hN⟩, ?_⟩, by rw [hc, hround, ← hc, heq]⟩
        rintro n ⟨hle', hlt', hn⟩
        obtain rfl | hne := eq_or_ne n (a + k)
        · exact absurd hn hlast
        · exact hmax ⟨hle', by omega, hn⟩

/-- A search that does not start below zero ends at the greatest position from its start on that can
be committed. -/
theorem updateCommitIndex_search (h : 0 ≤ s.searchStart) :
    ((∀ n : ℕ, s.searchStart ≤ n → ¬ s.Committable n) ∧ s.updateCommitIndex = s) ∨
      ∃ N, IsGreatest {n : ℕ | s.searchStart ≤ n ∧ s.Committable n} N ∧
        s.updateCommitIndex = { s with commitIndex := N } := by
  have heq : s.updateCommitIndex = (List.range' s.searchStart.toNat
      (s.logEntries.length - s.searchStart.toNat)).foldl commitRound s := by
    have hstart : ¬ toInt (s.commitIndex + 1) < 0 := not_lt.mpr h
    rw [updateCommitIndex, if_neg hstart, searchStart]
  have hrange : ∀ n : ℕ, s.searchStart ≤ n ∧ s.Committable n ↔ s.searchStart.toNat ≤ n ∧
      n < s.searchStart.toNat + (s.logEntries.length - s.searchStart.toNat) ∧
      s.Committable n := by
    intro n
    constructor
    · rintro ⟨hle, hn⟩
      have := hn.lt_length
      exact ⟨by omega, by omega, hn⟩
    · rintro ⟨hle, -, hn⟩
      exact ⟨by omega, hn⟩
  rw [heq]
  obtain ⟨hnone, hfold⟩ | ⟨N, hN, hfold⟩ := foldl_commitRound_range s s.searchStart.toNat
    (s.logEntries.length - s.searchStart.toNat)
  · refine .inl ⟨?_, hfold⟩
    intro n hle hn
    obtain ⟨hle', hlt, -⟩ := (hrange n).mp ⟨hle, hn⟩
    exact hnone n hle' hlt hn
  · refine .inr ⟨N, ?_, hfold⟩
    simpa only [hrange] using hN

/-- The rule is followed where the search starts right behind the commit index and runs over a log
whose positions are all an `int`. Elsewhere it is followed exactly if the search comes across
nothing that it could commit, or misses nothing where it does not run. -/
theorem followsCommitRule_iff (s : RaftServer peers) :
    s.FollowsCommitRule ↔
      (0 ≤ s.searchStart → s.logEntries.length < 2 ^ 31 ∧
        (s.commitIndex + 1 < 2 ^ 31 ∨ ∀ N : ℕ, s.searchStart ≤ N → ¬ s.Committable N)) ∧
      (s.searchStart < 0 → ∀ N, s.commitIndex < N → ¬ s.Committable N) := by
  by_cases hpos : 0 ≤ s.searchStart
  · simp only [FollowsCommitRule, hpos, not_lt.mpr hpos, forall_const, false_imp_iff, and_true]
    apply and_congr_right
    intro hlen
    by_cases hfit : s.commitIndex + 1 < 2 ^ 31
    · refine iff_of_true ?_ (.inl hfit)
      have hstart : ∀ n : ℕ, s.searchStart ≤ n ↔ s.commitIndex < n := by
        intro n
        rw [searchStart, toInt_of_lt hfit]
        omega
      obtain ⟨hnone, heq⟩ | ⟨N, hN, heq⟩ := updateCommitIndex_search hpos
      · exact .inr ⟨fun N hlt => hnone N ((hstart N).mpr hlt), heq⟩
      · refine .inl ⟨N, ?_, heq⟩
        simpa only [hstart] using hN
    · -- nothing lies behind the commit index, so it has to stay
      rw [or_iff_right hfit]
      have hbehind : ∀ N, s.Committable N → N < s.commitIndex := by
        intro N hN
        have := hN.lt_length
        omega
      constructor
      · rintro (⟨N, ⟨⟨hlt, hN⟩, -⟩, -⟩ | ⟨-, hsame⟩)
        · exact absurd (hbehind N hN) (by omega)
        · obtain ⟨hnone, -⟩ | ⟨N, ⟨⟨-, hN⟩, -⟩, heq⟩ := updateCommitIndex_search hpos
          · exact hnone
          · have := congrArg commitIndex (heq.symm.trans hsame)
            exact absurd (hbehind N hN) (by dsimp only at this; omega)
      · intro hnone
        obtain ⟨-, heq⟩ | ⟨N, ⟨⟨hle, hN⟩, -⟩, -⟩ := updateCommitIndex_search hpos
        · exact .inr ⟨fun N hlt hN => absurd (hbehind N hN) (by omega), heq⟩
        · exact absurd hN (hnone N hle)
  · have hneg := not_le.mp hpos
    have hsame : s.updateCommitIndex = s := by
      have hstart : toInt (s.commitIndex + 1) < 0 := hneg
      rw [updateCommitIndex, if_pos hstart]
    simp only [FollowsCommitRule, hpos, hneg, false_imp_iff, true_and, forall_const]
    constructor
    · rintro (⟨N, ⟨⟨hlt, hN⟩, -⟩, heq⟩ | ⟨hnone, -⟩)
      · have := congrArg commitIndex (heq.symm.trans hsame)
        dsimp only at this
        omega
      · exact hnone
    · intro hnone
      exact .inr ⟨hnone, hsame⟩

/-- With the rule the commit index never falls, and moves to entries of the leader's term only. -/
theorem FollowsCommitRule.monotone (h : s.FollowsCommitRule) :
    s.commitIndex ≤ s.updateCommitIndex.commitIndex ∧
      (s.updateCommitIndex.commitIndex ≠ s.commitIndex →
        s.logEntries[s.updateCommitIndex.commitIndex]?.map LogEntry.term = some s.currentTerm) := by
  obtain ⟨-, ⟨N, ⟨⟨hlt, hN⟩, -⟩, heq⟩ | ⟨-, heq⟩⟩ := h
  · rw [heq]
    exact ⟨hlt.le, fun _ => hN.term⟩
  · rw [heq]
    exact ⟨le_rfl, fun hne => absurd rfl hne⟩

/-- A commit index of 2^32 falls to 1, where the search starts. One of 2^31 - 1 stays, although the
entry behind it can be committed. -/
theorem not_followsCommitRule :
    ¬ FollowsCommitRule ({ restored 0 1 [⟨0, 1⟩, ⟨1, 1⟩] with
      role := .leader, commitIndex := 2 ^ 32, matchIndex := fun _ => 1 } : RaftServer 1) ∧
    ¬ FollowsCommitRule ({ restored 0 1 (List.replicate (2 ^ 31 + 1) ⟨0, 1⟩) with
      role := .leader, commitIndex := 2 ^ 31 - 1 } : RaftServer 0) := by
  constructor
  · intro hrule
    have hfalls := hrule.monotone.1
    exact absurd hfalls (by decide)
  · have hneg : toInt (2 ^ 31 - 1 + 1) < 0 := by decide
    rintro ⟨-, ⟨N, ⟨⟨hlt, -⟩, -⟩, heq⟩ | ⟨hnone, -⟩⟩
    · rw [updateCommitIndex] at heq
      have hN : 2 ^ 31 - 1 = N := congrArg commitIndex ((if_pos hneg).symm.trans heq)
      exact absurd hlt (by rw [← hN]; exact lt_irrefl _)
    · refine hnone (2 ^ 31) (by dsimp only; omega) ⟨?_, by omega⟩
      have hentry : (List.replicate (2 ^ 31 + 1) (⟨0, 1⟩ : LogEntry))[2 ^ 31]? = some ⟨0, 1⟩ :=
        List.getElem?_replicate_of_lt (by omega)
      exact congrArg (Option.map LogEntry.term) hentry

end AlphaDb.Raft.RaftServer
