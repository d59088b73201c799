import AlphaDb.Lib.Trace
import AlphaDb.Raft.Progress

/-! What a server has passed to its state machine, and what it has done when it answers a
client. -/
namespace AlphaDb.Raft

open Trace

/-- The return of a `replicate` that said true: the client's entry, the commit index, and the
position in the log of the entry that this call has passed to `apply_func_` with success. -/
structure Response where
  entry : LogEntry
  commitIndex : ℕ
  applied : Option ℕ
  deriving DecidableEq, Repr

/-- The client's entry is committed and has been applied. -/
def Response.Applied (r : Response) : Prop :=
  r.entry.index ≤ r.commitIndex ∧ r.applied = some r.entry.index

/-- A server, the entries that its state machine has accepted, and its answers to clients. -/
structure Journal (peers : ℕ) where
  server : RaftServer peers
  applied : List LogEntry
  responses : List Response

namespace Journal

variable {peers : ℕ} {j k : Journal peers} {s t : RaftServer peers} {a : Call peers}

/-- The entry that a call passes to the state machine with success. -/
def appliedBy (s : RaftServer peers) : Call peers → Option LogEntry
  | .applyToStatemachine func => (s.setApplyFunc func).appliedEntry
  | .replicate func =>
    if s.role = .leader then (s.setApplyFunc func).pushEntry.appliedEntry else none
  | _ => none

/-- The answer to a client of a call that leads from `s` to `t`. -/
def response (s t : RaftServer peers) (a : Call peers) : Option Response :=
  match a with
  | .replicate _ =>
    if s.role = .leader then
      some ⟨s.newEntry, t.commitIndex, (appliedBy s a).map fun _ => s.lastApplied + 1⟩
    else none
  | _ => none

def step (j : Journal peers) (a : Call peers) : Option (Journal peers) :=
  (j.server.call a).map fun t =>
    ⟨t, j.applied ++ (appliedBy j.server a).toList,
      j.responses ++ (response j.server t a).toList⟩

/-- A server with an empty log, in any role and term. -/
structure Starts (j : Journal peers) : Prop where
  log : j.server.logEntries = []
  commitIndex : j.server.commitIndex = 0
  lastApplied : j.server.lastApplied = 0
  applied : j.applied = []

/-- The entries applied are the first ones of the log, and none is above the commit index. -/
def AppliedPrefix (j : Journal peers) : Prop :=
  j.applied = j.server.logEntries.take j.applied.length ∧
    ∀ i < j.applied.length, i ≤ j.server.commitIndex

/-- What is applied next is not skipped over: `apply_to_statemachine` takes the entry behind the
one at `last_applied_`, so it is right only where the two are equal. -/
def NextRepeats (s : RaftServer peers) : Prop :=
  s.lastApplied < s.commitIndex → ∀ e ∈ s.logEntries[s.lastApplied + 1]?, s.applyFunc e = true →
    s.logEntries[s.lastApplied]? = some e

instance (s : RaftServer peers) : Decidable (NextRepeats s) :=
  inferInstanceAs (Decidable (_ → _))

/-- The condition before a call: nothing is skipped over, no applied entry is cut off, and sizes
and indexes stay in the range of their types. -/
def InOrder (j : Journal peers) : Call peers → Prop
  | .applyToStatemachine func => NextRepeats (j.server.setApplyFunc func)
  | .replicate func =>
    j.server.role = .leader → NextRepeats (j.server.setApplyFunc func).pushEntry
  | .appendEntries args _ =>
    j.server.logEntries.length + args.logEntries.length < 2 ^ 64 ∧
    (j.server.currentTerm ≤ args.term → RaftServer.Continues j.server.logEntries args →
      ∀ e ∈ RaftServer.firstConflict j.server.logEntries args,
        (j.server.lastApplied : ℤ) ≤ toInt e.index)
  | .receiveAppendEntriesReply _ _ => j.server.commitIndex + 1 < 2 ^ 32
  | _ => True

instance : ∀ (j : Journal peers) (a : Call peers), Decidable (j.InOrder a)
  | _, .applyToStatemachine _ => inferInstanceAs (Decidable (NextRepeats _))
  | _, .replicate _ => inferInstanceAs (Decidable (_ → _))
  | _, .appendEntries .. => inferInstanceAs (Decidable (_ ∧ (_ → _ → _)))
  | _, .receiveAppendEntriesReply .. => inferInstanceAs (Decidable (_ < _))
  | _, .convertToCandidate | _, .requestVote .. | _, .receiveRequestVoteReply _ =>
    inferInstanceAs (Decidable True)

/-- `last_applied_` counts what has been applied, and that is the front of the log. -/
structure Counted (j : Journal peers) : Prop where
  count : j.applied.length = j.server.lastApplied
  front : j.applied = j.server.logEntries.take j.server.lastApplied
  commit : j.server.lastApplied ≤ j.server.commitIndex + 1

theorem counted_of_starts (h : Starts j) : Counted j := by
  obtain ⟨hlog, hcommit, happlied, hnil⟩ := h
  exact ⟨by simp [hnil, happlied], by simp [hnil, happlied], by omega⟩

theorem Counted.appliedPrefix (h : Counted j) : AppliedPrefix j := by
  refine ⟨by rw [h.count]; exact h.front, ?_⟩
  intro i hi
  have := h.count
  have := h.commit
  omega

theorem Counted.le_length (h : Counted j) : j.server.lastApplied ≤ j.server.logEntries.length := by
  have hlen := congrArg List.length h.front
  rw [h.count, List.length_take] at hlen
  omega

/-- Nothing is applied, the front of the log stays, and the commit index stays above it. -/
theorem Counted.keep (h : Counted j) (happlied : t.lastApplied = j.server.lastApplied)
    (hlog : t.logEntries.take j.server.lastApplied =
      j.server.logEntries.take j.server.lastApplied)
    (hcommit : j.server.lastApplied ≤ t.commitIndex + 1) {responses : List Response} :
    Counted ⟨t, j.applied, responses⟩ := by
  refine ⟨h.count.trans happlied.symm, ?_, ?_⟩
  · rw [happlied, hlog]
    exact h.front
  · rw [happlied]
    exact hcommit

theorem Counted.sameProgress (h : Counted j) (ht : RaftServer.SameProgress j.server t)
    {responses : List Response} : Counted ⟨t, j.applied, responses⟩ := by
  obtain ⟨hlog, hcommit, happlied⟩ := ht
  exact h.keep happlied (by rw [hlog]) (hcommit ▸ h.commit)

/-- One application on a server `s` that has the log, or one more entry behind it. -/
theorem Counted.apply (h : Counted j) (hlog : s.logEntries.take j.server.lastApplied =
      j.server.logEntries.take j.server.lastApplied)
    (hcommit : s.commitIndex = j.server.commitIndex)
    (happlied : s.lastApplied = j.server.lastApplied) (hnext : NextRepeats s)
    (ht : s.applyToStatemachine = some t) {responses : List Response} :
    Counted ⟨t, j.applied ++ s.appliedEntry.toList, responses⟩ := by
  obtain ⟨hnone, rfl⟩ | ⟨e, he, rfl⟩ := RaftServer.applyToStatemachine_cases ht
  · rw [hnone, Option.toList_none, List.append_nil]
    exact h.keep happlied hlog (hcommit ▸ h.commit)
  · obtain ⟨hlt, hget, hf⟩ := RaftServer.appliedEntry_eq_some.mp he
    have hhere : s.logEntries[s.lastApplied]? = some e := hnext hlt e hget hf
    rw [he]
    refine ⟨?_, ?_, ?_⟩
    · simp [h.count, happlied]
    · calc j.applied ++ (some e).toList
          = j.server.logEntries.take j.server.lastApplied ++ [e] := by rw [← h.front]; rfl
        _ = s.logEntries.take s.lastApplied ++ [e] := by rw [← hlog, happlied]
        _ = s.logEntries.take (s.lastApplied + 1) := by rw [List.take_add_one, hhere]; rfl
    · show s.lastApplied + 1 ≤ s.commitIndex + 1
      omega

theorem counted_appendEntries (h : Counted j) {args : AppendEntriesArgs}
    {reply : AppendEntriesReply} (hcond : j.InOrder (.appendEntries args reply))
    (hcall : j.server.call (.appendEntries args reply) = some t) {responses : List Response} :
    Counted ⟨t, j.applied, responses⟩ := by
  obtain ⟨⟨t, r⟩, ht, rfl⟩ := Option.map_eq_some_iff.mp hcall
  obtain ⟨hsize, hcut⟩ := hcond
  obtain ⟨hlog, hlen⟩ := RaftServer.appendEntries_take ht h.le_length hcut
  obtain ⟨happlied, hcommit⟩ := RaftServer.appendEntries_commitIndex ht
  refine h.keep happlied hlog ?_
  have hold := h.commit
  rcases hcommit with hsame | ⟨hlt, hnew, hgrow⟩
  · simp only [hsame]
    exact hold
  · -- a new commit index is the last one of the log, or the leader's
    simp only [hnew]
    unfold ofInt
    omega

theorem counted_step : TrInv (Guarded InOrder step) (fun j : Journal peers => Counted j) := by
  rintro j a k ⟨hcond, hs⟩ h
  obtain ⟨t, hcall, rfl⟩ := Option.map_eq_some_iff.mp hs
  have hnone : appliedBy j.server a = none →
      j.applied ++ (appliedBy j.server a).toList = j.applied := by
    intro hn
    simp [hn]
  cases a with
  | convertToCandidate =>
    obtain rfl := Option.some.inj hcall
    rw [hnone rfl]
    have hsame : RaftServer.SameProgress j.server (j.server.convertTo .candidate (-1)) :=
      ⟨rfl, rfl, rfl⟩
    exact h.sameProgress hsame
  | requestVote args reply =>
    obtain rfl := Option.some.inj hcall
    rw [hnone rfl]
    exact h.sameProgress (RaftServer.answerVote_sameProgress args reply)
  | receiveRequestVoteReply reply =>
    obtain rfl := Option.some.inj hcall
    rw [hnone rfl]
    exact h.sameProgress (RaftServer.receiveRequestVoteReply_sameProgress reply)
  | appendEntries args reply =>
    rw [hnone rfl]
    exact counted_appendEntries h hcond hcall
  | receiveAppendEntriesReply id reply =>
    obtain ⟨⟨t, sent⟩, ht, rfl⟩ := Option.map_eq_some_iff.mp hcall
    obtain ⟨hlog, hcommit, happlied⟩ := RaftServer.receiveAppendEntriesReply_progress hcond ht
    rw [hnone rfl]
    exact h.keep happlied (by rw [hlog]) (h.commit.trans (by simpa using hcommit))
  | replicate func =>
    obtain ⟨hrole, rfl⟩ | ⟨hrole, ht⟩ := RaftServer.replicate_cases hcall
    · rw [hnone (if_neg hrole)]
      have hsame : RaftServer.SameProgress j.server (j.server.setApplyFunc func) :=
        ⟨rfl, rfl, rfl⟩
      exact h.sameProgress hsame
    · have hby : appliedBy j.server (.replicate func) =
          (j.server.setApplyFunc func).pushEntry.appliedEntry := if_pos hrole
      rw [hby]
      refine h.apply (s := (j.server.setApplyFunc func).pushEntry) ?_ rfl rfl (hcond hrole) ht
      exact List.take_append_of_le_length h.le_length
  | applyToStatemachine func =>
    exact h.apply (s := j.server.setApplyFunc func) rfl rfl rfl hcond hcall

/-- A leader of term 1 with an empty log. -/
def newLeader : Journal 1 := ⟨{ RaftServer.restored 0 1 [] with role := .leader }, [], []⟩

theorem newLeader_starts : Starts newLeader := ⟨rfl, rfl, rfl, rfl⟩

/-- Where every entry stands at its own index, the condition means that nothing is applied. -/
theorem nextRepeats_iff (hlog : RaftServer.Indexed s.logEntries) :
    NextRepeats s ↔ s.appliedEntry = none := by
  constructor
  · intro h
    cases he : s.appliedEntry with
    | none => rfl
    | some e =>
      obtain ⟨hlt, hget, hf⟩ := RaftServer.appliedEntry_eq_some.mp he
      have hnext := hlog _ e hget
      have hhere := hlog _ e (h hlt e hget hf)
      omega
  · intro hnone hlt e hget hf
    have := RaftServer.appliedEntry_eq_some.mpr ⟨hlt, hget, hf⟩
    rw [hnone] at this
    simp at this

/-- Every client was answered after its entry had been applied. -/
def RespondsAfterApply (j : Journal peers) : Prop := ∀ r ∈ j.responses, r.Applied

/-- The condition before a call: a leader has applied all of its log, the commit index is beyond
its end, and the state machine accepts the new entry. -/
def AppliesAtOnce (j : Journal peers) : Call peers → Prop
  | .replicate func => j.server.role = .leader →
      j.server.lastApplied + 1 = j.server.logEntries.length ∧
      j.server.logEntries.length ≤ j.server.commitIndex ∧ func j.server.newEntry = true
  | _ => True

theorem appliedBy_replicate (func : LogEntry → Bool) (hrole : s.role = .leader) :
    (∃ e, appliedBy s (.replicate func) = some e) ∧ s.lastApplied + 1 = s.logEntries.length ↔
      s.lastApplied + 1 = s.logEntries.length ∧ s.logEntries.length ≤ s.commitIndex ∧
        func s.newEntry = true := by
  have hby : appliedBy s (.replicate func) = (s.setApplyFunc func).pushEntry.appliedEntry :=
    if_pos hrole
  rw [hby]
  constructor
  · rintro ⟨⟨e, he⟩, hlast⟩
    obtain ⟨hlt, hget, hf⟩ := RaftServer.appliedEntry_eq_some.mp he
    have hlt : s.lastApplied < s.commitIndex := hlt
    have hget : (s.logEntries ++ [s.newEntry])[s.lastApplied + 1]? = some e := hget
    rw [hlast, List.getElem?_concat_length] at hget
    obtain rfl := Option.some.inj hget
    exact ⟨hlast, by omega, hf⟩
  · rintro ⟨hlast, hcommit, hf⟩
    refine ⟨⟨s.newEntry, RaftServer.appliedEntry_eq_some.mpr ⟨?_, ?_, hf⟩⟩, hlast⟩
    · show s.lastApplied < s.commitIndex
      omega
    · show (s.logEntries ++ [s.newEntry])[s.lastApplied + 1]? = some s.newEntry
      rw [hlast, List.getElem?_concat_length]

/-- The commit index is not touched by a client's entry. -/
theorem replicate_commitIndex (h : s.replicate = some t) : t.commitIndex = s.commitIndex := by
  obtain ⟨-, rfl⟩ | ⟨-, h⟩ := RaftServer.replicate_cases h
  · rfl
  · obtain ⟨k, rfl⟩ := RaftServer.applyToStatemachine_eq h
    rfl

/-- One call answers its client after the entry has been applied exactly under the condition. -/
theorem response_applied_iff (h : j.server.call a = some t) :
    (∀ r ∈ response j.server t a, r.Applied) ↔ j.AppliesAtOnce a := by
  cases a with
  | replicate func =>
    by_cases hrole : j.server.role = .leader
    · have hcommit : t.commitIndex = j.server.commitIndex :=
        replicate_commitIndex (s := j.server.setApplyFunc func) h
      have hiff := appliedBy_replicate func hrole
      constructor
      · intro hr _
        obtain ⟨-, happlied⟩ := hr _ (if_pos hrole)
        obtain ⟨e, he, hpos⟩ := Option.map_eq_some_iff.mp happlied
        exact hiff.mp ⟨⟨e, he⟩, hpos⟩
      · intro hcond r hr
        obtain ⟨⟨e, he⟩, hlast⟩ := hiff.mpr (hcond hrole)
        simp only [response, hrole, if_true, Option.mem_def, Option.some.injEq] at hr
        subst hr
        refine ⟨?_, ?_⟩
        · show j.server.logEntries.length ≤ t.commitIndex
          rw [hcommit]
          exact (hcond hrole).2.1
        · simp only [he, Option.map_some, hlast]
          rfl
    · simp [response, AppliesAtOnce, hrole]
  | _ => simp [response, AppliesAtOnce]

theorem respondsAfterApply_step (h : step j a = some k) :
    RespondsAfterApply k ↔ RespondsAfterApply j ∧ j.AppliesAtOnce a := by
  obtain ⟨t, ht, rfl⟩ := Option.map_eq_some_iff.mp h
  rw [← response_applied_iff ht]
  simp [RespondsAfterApply, or_imp, forall_and]

theorem respondsAfterApply_run {steps : List (Call peers)}
    (hrun : MTr (fun j a k => step j a = some k) j steps k) :
    RespondsAfterApply k ↔ RespondsAfterApply j ∧ MTr (Guarded AppliesAtOnce step) j steps k := by
  induction hrun with
  | refl => exact ⟨fun h => ⟨h, .refl⟩, fun h => h.1⟩
  | stepL h _ ih => rw [ih, respondsAfterApply_step h, mTr_guarded_cons h, and_assoc]

instance : ∀ (j : Journal peers) (a : Call peers), Decidable (j.AppliesAtOnce a)
  | _, .replicate _ => inferInstanceAs (Decidable (_ → _))
  | _, .applyToStatemachine _ | _, .appendEntries .. | _, .receiveAppendEntriesReply .. |
    _, .convertToCandidate | _, .requestVote .. | _, .receiveRequestVoteReply _ =>
    inferInstanceAs (Decidable True)

/-- A server with entry 0, and nothing applied. -/
def newServer : Journal 1 := ⟨.restored 0 0 [⟨0, 0⟩], [], []⟩

end Journal

end AlphaDb.Raft
