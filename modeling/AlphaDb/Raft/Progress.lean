import AlphaDb.Raft.AppendEntries
import AlphaDb.Raft.Calls

/-! What the calls do to the log, to the commit index and to what has been applied. -/
namespace AlphaDb.Raft

namespace RaftServer

variable {peers : ℕ} {s t : RaftServer peers} {args : AppendEntriesArgs}

/-- The entry that `apply_to_statemachine` passes on successfully. -/
def appliedEntry (s : RaftServer peers) : Option LogEntry :=
  if s.lastApplied < s.commitIndex then s.logEntries[s.lastApplied + 1]?.filter s.applyFunc
  else none

theorem appliedEntry_eq_some {e : LogEntry} : s.appliedEntry = some e ↔
    s.lastApplied < s.commitIndex ∧ s.logEntries[s.lastApplied + 1]? = some e ∧
      s.applyFunc e = true := by
  unfold appliedEntry
  split
  · next h => simp [h, Option.filter_eq_some_iff]
  · next h => simp [h]

theorem applyToStatemachine_cases (h : s.applyToStatemachine = some t) :
    (s.appliedEntry = none ∧ t = s) ∨
    ∃ e, s.appliedEntry = some e ∧ t = { s with lastApplied := s.lastApplied + 1 } := by
  unfold applyToStatemachine at h
  by_cases hlt : s.lastApplied < s.commitIndex
  · rw [if_pos hlt] at h
    obtain ⟨e, he, rfl⟩ := Option.map_eq_some_iff.mp h
    cases hf : s.applyFunc e with
    | false =>
      left
      simp [appliedEntry, hlt, he, hf]
    | true =>
      right
      exact ⟨e, appliedEntry_eq_some.mpr ⟨hlt, he, hf⟩, by simp⟩
  · rw [if_neg hlt] at h
    obtain rfl := Option.some.inj h
    exact Or.inl ⟨by simp [appliedEntry, hlt], rfl⟩

/-- The counters and the log are unchanged. -/
def SameProgress (s t : RaftServer peers) : Prop :=
  t.logEntries = s.logEntries ∧ t.commitIndex = s.commitIndex ∧ t.lastApplied = s.lastApplied

theorem SameProgress.rfl : SameProgress s s := ⟨Eq.refl _, Eq.refl _, Eq.refl _⟩

theorem observe_sameProgress (term : ℕ) : SameProgress s (s.observe term) := by
  unfold observe
  split
  · exact ⟨Eq.refl _, Eq.refl _, Eq.refl _⟩
  · exact .rfl

theorem answerVote_sameProgress (args : RequestVoteArgs) (reply : RequestVoteReply) :
    SameProgress s (s.answerVote args reply).1 := by
  have hobserve := observe_sameProgress (s := s) args.term
  obtain ⟨-, ht | ht⟩ | ⟨-, -, o, ho, ht, -⟩ := answerVote_cases (s := s) args reply
  · rw [ht]
    exact .rfl
  · rw [ht]
    exact hobserve
  · rw [← ho] at hobserve
    rw [ht]
    exact ⟨hobserve.1, hobserve.2.1, hobserve.2.2⟩

theorem receiveRequestVoteReply_sameProgress (reply : RequestVoteReply) :
    SameProgress s (s.receiveRequestVoteReply reply) := by
  obtain ⟨-, ht⟩ | ⟨-, o, rfl, -, -, -, hlog, hcommit, happlied⟩ :=
    receiveRequestVoteReply_cases (s := s) reply
  · rw [ht]
    exact .rfl
  · obtain ⟨hlog', hcommit', happlied'⟩ := observe_sameProgress (s := s) reply.term
    exact ⟨hlog.trans hlog', hcommit.trans hcommit', happlied.trans happlied'⟩

/-- As long as the `int` it starts from does not wrap around to a small one, the search moves the
commit index up. -/
theorem updateCommitIndex_mono (h : s.commitIndex + 1 < 2 ^ 32) :
    ∃ k, s.commitIndex ≤ k ∧ s.updateCommitIndex = { s with commitIndex := k } := by
  unfold updateCommitIndex
  dsimp only
  split
  · exact ⟨s.commitIndex, le_rfl, rfl⟩
  · next hpos =>
    have hn : (toInt (s.commitIndex + 1)).toNat = s.commitIndex + 1 := by
      have hsmall : s.commitIndex + 1 < 2 ^ 31 := by
        by_contra hbig
        apply hpos
        unfold toInt
        rw [Int.bmod_def]
        split <;> omega
      rw [toInt_of_lt hsmall]
      omega
    rw [hn]
    obtain ⟨k, hk, hcase⟩ := foldl_commitRound
      (List.range' (s.commitIndex + 1) (s.logEntries.length - (s.commitIndex + 1))) s
    refine ⟨k, ?_, hk⟩
    rcases hcase with rfl | ⟨hmem, -⟩
    · exact le_rfl
    · rw [List.mem_range'_1] at hmem
      omega

/-- A reply changes what the leader knows of its followers, and is then counted. -/
theorem receiveAppendEntriesReply_sameProgress {id : Fin peers} {reply : AppendEntriesReply}
    {sent : List (Fin peers × AppendEntriesArgs)}
    (h : s.receiveAppendEntriesReply id reply = some (t, sent)) :
    t = s ∨ ∃ u, SameProgress s u ∧ t = u.updateCommitIndex := by
  obtain ⟨-, ht, -⟩ | ⟨-, o, next, ho, hcase⟩ := receiveAppendEntriesReply_cases h
  · exact Or.inl ht
  · right
    have hsame := observe_sameProgress (s := s) reply.term
    rw [← ho] at hsame
    obtain ⟨hlog, hcommit, happlied⟩ := hsame
    rcases hcase with ⟨-, -, ht⟩ | ⟨-, -, ht⟩
    · refine ⟨_, ?_, ht⟩
      exact ⟨hlog, hcommit, happlied⟩
    · refine ⟨_, ?_, ht⟩
      exact ⟨hlog, hcommit, happlied⟩

theorem receiveAppendEntriesReply_log {id : Fin peers} {reply : AppendEntriesReply}
    {sent : List (Fin peers × AppendEntriesArgs)}
    (h : s.receiveAppendEntriesReply id reply = some (t, sent)) :
    t.logEntries = s.logEntries := by
  obtain ht | ⟨u, ⟨hlog, -, -⟩, ht⟩ := receiveAppendEntriesReply_sameProgress h
  · rw [ht]
  · obtain ⟨k, hk⟩ := u.updateCommitIndex_eq
    rw [ht, hk]
    exact hlog

theorem receiveAppendEntriesReply_progress {id : Fin peers} {reply : AppendEntriesReply}
    {sent : List (Fin peers × AppendEntriesArgs)} (hfit : s.commitIndex + 1 < 2 ^ 32)
    (h : s.receiveAppendEntriesReply id reply = some (t, sent)) :
    t.logEntries = s.logEntries ∧ s.commitIndex ≤ t.commitIndex ∧
      t.lastApplied = s.lastApplied := by
  obtain ht | ⟨u, ⟨hlog, hcommit, happlied⟩, ht⟩ := receiveAppendEntriesReply_sameProgress h
  · rw [ht]
    exact ⟨rfl, le_rfl, rfl⟩
  · obtain ⟨k, hk, heq⟩ := updateCommitIndex_mono (s := u) (by rw [hcommit]; exact hfit)
    rw [ht, heq]
    exact ⟨hlog, hcommit ▸ hk, happlied⟩

/-- The entry of the message at which the loop cuts the log. -/
def firstConflict (log : List LogEntry) (args : AppendEntriesArgs) : Option LogEntry :=
  args.logEntries.find? fun e =>
    log[(toInt e.index).toNat]?.map LogEntry.term ≠ some (ofInt (toInt e.term))

theorem firstConflict_eq_some {log : List LogEntry} {pre post : List LogEntry} {e : LogEntry}
    (h : args.logEntries = pre ++ e :: post) (hpre : ∀ a ∈ pre, Passed log a)
    (he : Stopped log e) : firstConflict log args = some e := by
  obtain ⟨-, x, hx, hne⟩ := he
  unfold firstConflict
  rw [h, List.find?_append, List.find?_eq_none.mpr, Option.none_or, List.find?_cons_of_pos]
  · simpa [hx] using hne
  · intro a ha
    simp [(hpre a ha).2]

/-- A log is cut at its first conflict and not before. -/
theorem appendEntries_take {reply r : AppendEntriesReply} {k : ℕ}
    (h : s.appendEntries args reply = some (t, r)) (hk : k ≤ s.logEntries.length)
    (hcut : s.currentTerm ≤ args.term → Continues s.logEntries args →
      ∀ e ∈ firstConflict s.logEntries args, (k : ℤ) ≤ toInt e.index) :
    t.logEntries.take k = s.logEntries.take k ∧ k ≤ t.logEntries.length := by
  by_cases hterm : s.currentTerm ≤ args.term
  · obtain ⟨-, rfl, -⟩ | ⟨hc, -, index, h0, -, hcase⟩ := appendEntries_eq_some hterm h
    · exact ⟨rfl, hk⟩
    rcases hcase with ⟨-, -, hlog⟩ | ⟨pre, e, post, he, hpre, hstop, hindex, hlog⟩
    · rw [hlog, List.take_append_of_le_length hk, List.length_append]
      exact ⟨rfl, by omega⟩
    · have hle : (k : ℤ) ≤ index :=
        hindex ▸ hcut hterm hc e (firstConflict_eq_some he hpre hstop)
      have hlen : k ≤ (s.logEntries.take index.toNat).length := by
        rw [List.length_take]
        omega
      rw [hlog, List.take_append_of_le_length hlen, List.take_take, List.length_append]
      exact ⟨by rw [min_eq_left (by omega)], by omega⟩
  · obtain ⟨rfl, -⟩ := appendEntries_of_lt (not_le.mp hterm) h
    exact ⟨rfl, hk⟩

theorem appendEntries_commitIndex {reply r : AppendEntriesReply}
    (h : s.appendEntries args reply = some (t, r)) :
    t.lastApplied = s.lastApplied ∧ (t.commitIndex = s.commitIndex ∨
      s.commitIndex < args.leaderCommit ∧
      t.commitIndex = min args.leaderCommit (ofInt ((t.logEntries.length : ℤ) - 1)) ∧
      t.logEntries.length ≤ s.logEntries.length + args.logEntries.length) := by
  obtain ⟨-, rfl, -⟩ | ⟨-, -, -, log, i, new, hfind, hnew, rfl⟩ := appendEntries_cases h
  · exact ⟨rfl, Or.inl rfl⟩
  · refine ⟨rfl, ?_⟩
    by_cases hlt : s.commitIndex < args.leaderCommit
    · refine Or.inr ⟨hlt, by rw [if_pos hlt], ?_⟩
      obtain ⟨index, -, -, -, rfl⟩ := newEntries_eq_some.mp hnew
      have hlog : log.length ≤ s.logEntries.length := by
        rcases findConflict_eq_some hfind with ⟨-, hlog, -⟩ | ⟨_, _, _, -, -, -, hlog, -⟩
        · exact hlog ▸ le_rfl
        · rw [hlog]
          exact List.length_take_le' _ _
      simp only [List.length_append, List.length_drop]
      omega
    · exact Or.inl (if_neg hlt)

end RaftServer

end AlphaDb.Raft
