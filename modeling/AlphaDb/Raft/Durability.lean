import AlphaDb.Lib.Trace
import AlphaDb.Raft.Progress
import AlphaDb.Raft.StateFile

/-! A server and its state file: what a crash loses. -/
namespace AlphaDb.Raft

open Trace

/-- A server, and the text of its state file. -/
structure Node (peers : ℕ) where
  server : RaftServer peers
  file : List Char

/-- A call, or a crash with the start after it. -/
inductive NodeStep (peers : ℕ)
  | call (a : Call peers)
  | restart

namespace RaftServer

variable {peers : ℕ} {s t : RaftServer peers} {a : Call peers}

/-- The persistent state of a server. -/
def saved (s : RaftServer peers) : Saved := ⟨s.currentTerm, s.votedFor, s.logEntries⟩

/-- A new server that has read its state from disk. -/
def start (id : ℤ) (state : Saved) : RaftServer peers :=
  { restored id state.currentTerm state.logEntries with votedFor := state.votedFor }

/-- The condition before a call under which it leaves the persistent state as it is. -/
def KeepsSaved (s : RaftServer peers) : Call peers → Prop
  | .convertToCandidate => False
  | .requestVote args _ => args.term ≤ s.currentTerm ∧
      (s.currentTerm = args.term →
        s.votedFor = -1 ∨ (s.votedFor % 2 ^ 32).toNat = args.candidateId →
        s.logEntries.getLast? = some ⟨args.lastLogIndex, args.lastLogTerm⟩ →
        s.votedFor = toInt args.candidateId)
  | .receiveRequestVoteReply reply => s.role = .candidate → reply.term ≤ s.currentTerm
  | .appendEntries args _ => s.currentTerm ≤ args.term → Continues s.logEntries args →
      (firstConflict s.logEntries args = none →
        lastIndex none args.logEntries = some (args.logEntries.length : ℤ)) ∧
      ∀ e ∈ firstConflict s.logEntries args,
        args.logEntries.drop (toInt e.index).toNat = s.logEntries.drop (toInt e.index).toNat
  | .receiveAppendEntriesReply _ reply => s.role = .leader → reply.term ≤ s.currentTerm
  | .replicate _ => s.role ≠ .leader
  | .applyToStatemachine _ => True

instance : ∀ (s : RaftServer peers) (a : Call peers), Decidable (s.KeepsSaved a)
  | _, .convertToCandidate => inferInstanceAs (Decidable False)
  | _, .requestVote .. => inferInstanceAs (Decidable (_ ∧ (_ → _ → _ → _)))
  | _, .receiveRequestVoteReply _ => inferInstanceAs (Decidable (_ → _))
  | _, .appendEntries .. => inferInstanceAs (Decidable (_ → _ → _ ∧ _))
  | _, .receiveAppendEntriesReply .. => inferInstanceAs (Decidable (_ → _))
  | _, .replicate _ => inferInstanceAs (Decidable (_ ≠ _))
  | _, .applyToStatemachine _ => inferInstanceAs (Decidable True)

theorem answerVote_saved {args : RequestVoteArgs} {reply : RequestVoteReply}
    (h : s.KeepsSaved (.requestVote args reply)) : (s.answerVote args reply).1.saved = s.saved := by
  obtain ⟨hterm, hvote⟩ := h
  have hobs := observe_of_le hterm
  unfold answerVote requestVote
  rw [hobs]
  by_cases hlt : args.term < s.currentTerm
  · simp [hlt]
  · rw [if_neg hlt]
    dsimp only
    by_cases hfree : s.votedFor = -1 ∨ (s.votedFor % 2 ^ 32).toNat = args.candidateId
    · rw [if_pos hfree]
      cases hlast : s.logEntries.getLast? with
      | none => rfl
      | some e =>
        dsimp only
        split
        · next he =>
          have hfor := hvote (by omega) hfree (by rw [hlast, ← he.1, ← he.2])
          simp only [Option.getD_some, saved, ← hfor]
        · rfl
    · rw [if_neg hfree]
      rfl

theorem appendEntries_saved {args : AppendEntriesArgs} {reply r : AppendEntriesReply}
    (hkeep : s.KeepsSaved (.appendEntries args reply))
    (h : s.appendEntries args reply = some (t, r)) : t.saved = s.saved := by
  obtain ⟨-, -, hterm, hvoted⟩ := appendEntries_sameVote h
  have hlog : t.logEntries = s.logEntries := by
    by_cases hcur : s.currentTerm ≤ args.term
    · obtain ⟨-, rfl, -⟩ | ⟨hc, -, index, h0, hle, hcase⟩ := appendEntries_eq_some hcur h
      · rfl
      obtain ⟨hnew, htail⟩ := hkeep hcur hc
      rcases hcase with ⟨hpassed, hlast, hlog⟩ | ⟨pre, e, post, he, hpre, hstop, hindex, hlog⟩
      · -- nothing is left of the message behind its last index
        have hnone : firstConflict s.logEntries args = none := by
          refine List.find?_eq_none.mpr ?_
          intro e he
          simp [(hpassed e he).2]
        have hend : index = args.logEntries.length :=
          Option.some.inj (hlast.symm.trans (hnew hnone))
        rw [hlog, hend, Int.toNat_natCast, List.drop_length, List.append_nil]
      · have hsame := htail e (firstConflict_eq_some he hpre hstop)
        rw [hindex] at hsame
        rw [hlog, hsame, List.take_append_drop]
    · obtain ⟨rfl, -⟩ := appendEntries_of_lt (not_le.mp hcur) h
      rfl
  simp only [saved, hterm, hvoted, hlog]

theorem receiveRequestVoteReply_saved {reply : RequestVoteReply}
    (hkeep : s.KeepsSaved (.receiveRequestVoteReply reply)) :
    (s.receiveRequestVoteReply reply).saved = s.saved := by
  obtain ⟨-, ht⟩ | ⟨hrole, o, ho, -, hterm, hvoted, hlog, -⟩ :=
    receiveRequestVoteReply_cases (s := s) reply
  · rw [ht]
  · rw [observe_of_le (hkeep hrole)] at ho
    simp only [saved, hterm, hvoted, hlog, ho]

theorem receiveAppendEntriesReply_saved {id : Fin peers} {reply : AppendEntriesReply}
    {sent : List (Fin peers × AppendEntriesArgs)}
    (hkeep : s.KeepsSaved (.receiveAppendEntriesReply id reply))
    (h : s.receiveAppendEntriesReply id reply = some (t, sent)) : t.saved = s.saved := by
  obtain ⟨-, rfl, -⟩ | ⟨hrole, -⟩ := receiveAppendEntriesReply_cases h
  · rfl
  · have hlog := receiveAppendEntriesReply_log h
    have hvote : SameVote s t := by
      rcases receiveAppendEntriesReply_sameVote h with hs | hs
      · exact hs
      · rw [observe_of_le (hkeep hrole)] at hs
        exact hs
    simp only [saved, hvote.2.2.1, hvote.2.2.2, hlog]

/-- Under the condition a call leaves the persistent state as it is. -/
theorem call_saved (hkeep : s.KeepsSaved a) (h : s.call a = some t) : t.saved = s.saved := by
  cases a with
  | convertToCandidate => exact hkeep.elim
  | requestVote args reply =>
    obtain rfl := Option.some.inj h
    exact answerVote_saved hkeep
  | receiveRequestVoteReply reply =>
    obtain rfl := Option.some.inj h
    exact receiveRequestVoteReply_saved hkeep
  | appendEntries args reply =>
    obtain ⟨⟨t, r⟩, ht, rfl⟩ := Option.map_eq_some_iff.mp h
    exact appendEntries_saved hkeep ht
  | receiveAppendEntriesReply id reply =>
    obtain ⟨⟨t, sent⟩, ht, rfl⟩ := Option.map_eq_some_iff.mp h
    exact receiveAppendEntriesReply_saved hkeep ht
  | replicate func =>
    obtain ⟨-, rfl⟩ | ⟨hrole, -⟩ := replicate_cases h
    · rfl
    · exact absurd hrole hkeep
  | applyToStatemachine func =>
    obtain ⟨k, rfl⟩ := applyToStatemachine_eq h
    rfl

end RaftServer

namespace Node

variable {peers : ℕ} {n m : Node peers} {format : EntryFormat}

/-- No call writes the state file; only `shutdown` does. -/
def step (format : EntryFormat) (n : Node peers) : NodeStep peers → Option (Node peers)
  | .call a => (n.server.call a).map fun t => { n with server := t }
  | .restart =>
    (Saved.read format n.file).map fun state => { n with server := .start n.server.id state }

/-- The state that would be loaded after a crash is the one that the server has. -/
def Durable (format : EntryFormat) (n : Node peers) : Prop :=
  Saved.read format n.file = some n.server.saved

def KeepsSaved (n : Node peers) : NodeStep peers → Prop
  | .call a => n.server.KeepsSaved a
  | .restart => True

theorem durable_step :
    TrInv (Guarded KeepsSaved (step format)) (fun n : Node peers => Durable format n) := by
  rintro n a m ⟨hkeep, hs⟩ h
  cases a with
  | call a =>
    obtain ⟨t, ht, rfl⟩ := Option.map_eq_some_iff.mp hs
    unfold Durable
    rw [RaftServer.call_saved hkeep ht]
    exact h
  | restart =>
    obtain ⟨state, hread, rfl⟩ := Option.map_eq_some_iff.mp hs
    exact hread

instance : ∀ (n : Node peers) (a : NodeStep peers), Decidable (n.KeepsSaved a)
  | n, .call a => inferInstanceAs (Decidable (n.server.KeepsSaved a))
  | _, .restart => inferInstanceAs (Decidable True)

/-- A started server of term 0 with two entries and no vote. -/
def started : Node 2 where
  server := .start 1 ⟨0, -1, [⟨0, 0⟩, ⟨1, 0⟩]⟩
  file := "0 -1 2 0 0  1 0 ".toList

theorem started_read :
    Saved.read Saved.spaced started.file = some ⟨0, -1, [⟨0, 0⟩, ⟨1, 0⟩]⟩ := by
  decide +kernel

end Node

end AlphaDb.Raft
