import AlphaDb.Raft.AppendEntries

/-! The commit index of a follower: how far a message may move it, and when it moves further. -/
namespace AlphaDb.Raft

namespace RaftServer

variable {peers : ℕ} {s t : RaftServer peers} {args : AppendEntriesArgs}
  {reply r : AppendEntriesReply} {log : List LogEntry} {commit size : ℕ}

/-- `uint64_t(log_entries_.size() - 1)`. -/
def lastPosition (size : ℕ) : ℕ := ofInt ((size : ℤ) - 1)

theorem lastPosition_le (h : 0 < size) : lastPosition size ≤ size - 1 := by
  unfold lastPosition ofInt
  omega

/-- The commit index after a message has been accepted, with the size the log then has. -/
def movedCommit (commit leaderCommit size : ℕ) : ℕ :=
  if commit < leaderCommit then min leaderCommit (lastPosition size) else commit

/-- A message is answered, and the commit index does not fall and rises at most to the last entry
that the message has compared with the leader's log. -/
def CommitBounded (s : RaftServer peers) (args : AppendEntriesArgs) (reply : AppendEntriesReply) :
    Prop :=
  ∃ t r, appendEntries s args reply = some (t, r) ∧ s.commitIndex ≤ t.commitIndex ∧
    t.commitIndex ≤ max s.commitIndex
      (min args.leaderCommit (args.prevLogIndex + args.logEntries.length))

/-- The last position of a log of this size is between the old commit index and the last entry
compared, as far as the leader has committed. -/
def Between (commit size : ℕ) (args : AppendEntriesArgs) : Prop :=
  args.leaderCommit ≤ commit ∨ commit ≤ lastPosition size ∧
    min args.leaderCommit (lastPosition size) ≤
      max commit (args.prevLogIndex + args.logEntries.length)

theorem movedCommit_bounded_iff :
    commit ≤ movedCommit commit args.leaderCommit size ∧
      movedCommit commit args.leaderCommit size ≤ max commit
        (min args.leaderCommit (args.prevLogIndex + args.logEntries.length)) ↔
    Between commit size args := by
  unfold movedCommit Between
  split <;> omega

/-- A cut log has as many entries as the message, which is never too many. -/
theorem between_cut (hne : args.logEntries ≠ []) : Between commit args.logEntries.length args ↔
    args.leaderCommit ≤ commit ∨ commit ≤ lastPosition args.logEntries.length := by
  have hle := lastPosition_le (List.length_pos_of_ne_nil hne)
  unfold Between
  omega

/-- What follows the checks of `appendEntries`. -/
theorem appendEntries_of_continues (hterm : s.currentTerm ≤ args.term)
    (hc : Continues s.logEntries args) :
    appendEntries s args reply =
      (findConflict s.logEntries none args.logEntries).bind fun x =>
        (newEntries args.logEntries x.2).map fun entries =>
          ({ s with
              logEntries := x.1 ++ entries
              commitIndex :=
                movedCommit s.commitIndex args.leaderCommit (x.1 ++ entries).length }, reply) := by
  obtain ⟨e, he, heq⟩ := Option.map_eq_some_iff.mp hc
  have hlt := (List.getElem?_eq_some_iff.mp he).1
  have hsize : ¬ s.logEntries.length < args.prevLogIndex := by omega
  simp only [appendEntries, not_lt.mpr hterm, hsize, he, heq, ne_eq, not_true_eq_false, if_false]
  rfl

/-- Nothing conflicts: the message from the last index on is appended. -/
theorem appendEntries_passed {index : ℕ} (hterm : s.currentTerm ≤ args.term)
    (hc : Continues s.logEntries args) (h : ∀ e ∈ args.logEntries, Passed s.logEntries e)
    (hlast : lastIndex none args.logEntries = some (index : ℤ))
    (hle : index ≤ args.logEntries.length) :
    ∃ t, appendEntries s args reply = some (t, reply) ∧
      t.commitIndex = movedCommit s.commitIndex args.leaderCommit
        (s.logEntries.length + (args.logEntries.length - index)) := by
  have hnew : newEntries args.logEntries (some (index : ℤ)) = some (args.logEntries.drop index) :=
    newEntries_eq_some.mpr ⟨index, rfl, by omega, by omega, rfl⟩
  rw [appendEntries_of_continues hterm hc, findConflict_of_passed h, Option.bind_some, hlast, hnew]
  refine ⟨_, rfl, ?_⟩
  rw [List.length_append, List.length_drop]

/-- An entry conflicts: the log is cut there, and then has as many entries as the message. -/
theorem appendEntries_cut {pre post : List LogEntry} {e : LogEntry}
    (hterm : s.currentTerm ≤ args.term) (hc : Continues s.logEntries args)
    (he : args.logEntries = pre ++ e :: post) (hpre : ∀ a ∈ pre, Passed s.logEntries a)
    (hstop : Stopped s.logEntries e) (hle : toInt e.index ≤ args.logEntries.length) :
    ∃ t, appendEntries s args reply = some (t, reply) ∧
      t.commitIndex =
        movedCommit s.commitIndex args.leaderCommit args.logEntries.length := by
  have hfind : findConflict s.logEntries none (pre ++ e :: post) = _ :=
    findConflict_of_stopped hpre hstop
  obtain ⟨hpos, x, hx, -⟩ := hstop
  have hlt := (List.getElem?_eq_some_iff.mp hx).1
  have hnew : newEntries args.logEntries (some (toInt e.index)) =
      some (args.logEntries.drop (toInt e.index).toNat) :=
    newEntries_eq_some.mpr ⟨_, rfl, hpos, hle, rfl⟩
  have hsize : (s.logEntries.take (toInt e.index).toNat ++
      args.logEntries.drop (toInt e.index).toNat).length = args.logEntries.length := by
    rw [List.length_append, List.length_take, List.length_drop]
    omega
  rw [← he] at hfind
  rw [appendEntries_of_continues hterm hc, hfind, Option.bind_some, hnew, Option.map_some, hsize]
  exact ⟨_, rfl, rfl⟩

/-- The message is handled inside the vectors, and the size of the log afterwards, which the
commit index is cut to, is right: it is the size of the message if an entry conflicts, and else
the size of the log with what lies behind the last index in the message. -/
def CommitSafe (log : List LogEntry) (commit : ℕ) (args : AppendEntriesArgs) : Prop :=
  (∃ pre e post, args.logEntries = pre ++ e :: post ∧ (∀ a ∈ pre, Passed log a) ∧
    Stopped log e ∧ toInt e.index ≤ args.logEntries.length ∧
    (args.leaderCommit ≤ commit ∨ commit ≤ lastPosition args.logEntries.length)) ∨
  (∀ e ∈ args.logEntries, Passed log e) ∧ ∃ index : ℕ,
    lastIndex none args.logEntries = some (index : ℤ) ∧ index ≤ args.logEntries.length ∧
    Between commit (log.length + (args.logEntries.length - index)) args

theorem commitSafe_of_commitBounded (hterm : s.currentTerm ≤ args.term)
    (hc : Continues s.logEntries args) (h : CommitBounded s args reply) :
    CommitSafe s.logEntries s.commitIndex args := by
  obtain ⟨t, r, ht, hbounds⟩ := h
  obtain ⟨hn, -⟩ | ⟨-, -, index, h0, hle, hcase⟩ := appendEntries_eq_some hterm ht
  · exact absurd hc hn
  rcases hcase with ⟨hpassed, hlast, -⟩ | ⟨pre, e, post, he, hpre, hstop, hindex, -⟩
  · right
    lift index to ℕ using h0
    obtain ⟨u, hu, hcommit⟩ : ∃ u, appendEntries s args reply = some (u, reply) ∧ _ :=
      appendEntries_passed hterm hc hpassed hlast (by omega)
    obtain ⟨rfl, -⟩ := Prod.mk.inj (Option.some.inj (hu.symm.trans ht))
    rw [hcommit, movedCommit_bounded_iff] at hbounds
    exact ⟨hpassed, index, hlast, by omega, hbounds⟩
  · left
    obtain ⟨u, hu, hcommit⟩ : ∃ u, appendEntries s args reply = some (u, reply) ∧ _ :=
      appendEntries_cut hterm hc he hpre hstop (hindex.trans_le hle)
    obtain ⟨rfl, -⟩ := Prod.mk.inj (Option.some.inj (hu.symm.trans ht))
    rw [hcommit, movedCommit_bounded_iff, between_cut (by simp [he])] at hbounds
    exact ⟨pre, e, post, he, hpre, hstop, hindex.trans_le hle, hbounds⟩

theorem commitBounded_of_commitSafe (hterm : s.currentTerm ≤ args.term)
    (hc : Continues s.logEntries args) (h : CommitSafe s.logEntries s.commitIndex args) :
    CommitBounded s args reply := by
  rcases h with ⟨pre, e, post, he, hpre, hstop, hle, hsafe⟩ | ⟨hpassed, index, hlast, hle, hsafe⟩
  · obtain ⟨t, ht, hcommit⟩ : ∃ t, appendEntries s args reply = some (t, reply) ∧ _ :=
      appendEntries_cut hterm hc he hpre hstop hle
    refine ⟨t, reply, ht, ?_⟩
    rw [hcommit, movedCommit_bounded_iff, between_cut (by simp [he])]
    exact hsafe
  · obtain ⟨t, ht, hcommit⟩ : ∃ t, appendEntries s args reply = some (t, reply) ∧ _ :=
      appendEntries_passed hterm hc hpassed hlast hle
    refine ⟨t, reply, ht, ?_⟩
    rw [hcommit, movedCommit_bounded_iff]
    exact hsafe

/-- A follower whose log continues with the message bounds its commit index exactly when the
message is of an old term, or the size of the log afterwards happens to be right. -/
theorem commitBounded_iff (s : RaftServer peers) (args : AppendEntriesArgs)
    (reply : AppendEntriesReply) (hc : Continues s.logEntries args) :
    CommitBounded s args reply ↔
      args.term < s.currentTerm ∨ CommitSafe s.logEntries s.commitIndex args := by
  by_cases hterm : args.term < s.currentTerm
  · have heq : appendEntries s args reply = some (s, ⟨args.term, false⟩) := if_pos hterm
    exact iff_of_true ⟨s, _, heq, le_rfl, le_max_left _ _⟩ (Or.inl hterm)
  · have hle := not_lt.mp hterm
    constructor
    · exact fun h => Or.inr (commitSafe_of_commitBounded hle hc h)
    · rintro (h | h)
      · exact absurd h hterm
      · exact commitBounded_of_commitSafe hle hc h

/-- A message that repeats the whole log. -/
theorem commitBounded_repeated :
    CommitBounded (followerOf [⟨0, 1⟩, ⟨1, 1⟩]) ⟨1, 0, 0, 1, 1, [⟨1, 1⟩]⟩ ⟨1, true⟩ := by
  have hc : Continues (followerOf [⟨0, 1⟩, ⟨1, 1⟩]).logEntries ⟨1, 0, 0, 1, 1, [⟨1, 1⟩]⟩ := rfl
  refine (commitBounded_iff _ _ _ hc).mpr (Or.inr (Or.inr ⟨?_, 1, rfl, le_rfl, ?_⟩))
  · intro e he
    obtain rfl := List.mem_singleton.mp he
    exact ⟨by decide, rfl⟩
  · unfold Between
    decide

/-- An entry behind those of the message, which only this follower has, is marked committed. -/
theorem stale_tail_committed :
    Continues (followerOf [⟨0, 1⟩, ⟨1, 1⟩, ⟨2, 1⟩]).logEntries ⟨1, 0, 0, 1, 2, [⟨1, 1⟩]⟩ ∧
    ¬ CommitBounded (followerOf [⟨0, 1⟩, ⟨1, 1⟩, ⟨2, 1⟩]) ⟨1, 0, 0, 1, 2, [⟨1, 1⟩]⟩ ⟨1, true⟩ := by
  refine ⟨rfl, ?_⟩
  rintro ⟨t, r, ht, -, hle⟩
  obtain ⟨rfl, -⟩ := Prod.mk.inj (Option.some.inj ht)
  exact absurd hle (by decide)

end RaftServer

end AlphaDb.Raft
