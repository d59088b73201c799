import AlphaDb.Raft.Server

/-! What `append_entries` does to the log of a follower, and when that is what it should do. -/
namespace AlphaDb.Raft

namespace RaftServer

variable {peers : ℕ} {s t : RaftServer peers} {args : AppendEntriesArgs}
  {reply r : AppendEntriesReply} {log log' entries : List LogEntry} {index i : Option ℤ} {prev : ℕ}

/-- An entry of a message that the loop passes over: there is an entry at its index, as an `int`,
with its term, as an `int`. -/
def Passed (log : List LogEntry) (e : LogEntry) : Prop :=
  0 ≤ toInt e.index ∧ log[(toInt e.index).toNat]?.map LogEntry.term = some (ofInt (toInt e.term))

/-- The entry at which the loop stops and cuts the log. -/
def Stopped (log : List LogEntry) (e : LogEntry) : Prop :=
  0 ≤ toInt e.index ∧ ∃ x, log[(toInt e.index).toNat]? = some x ∧ x.term ≠ ofInt (toInt e.term)

/-- The local `index` after the loop has passed over all entries. -/
def lastIndex (index : Option ℤ) (entries : List LogEntry) : Option ℤ :=
  entries.foldl (fun _ e => some (toInt e.index)) index

theorem findConflict_of_passed (h : ∀ e ∈ entries, Passed log e) :
    findConflict log index entries = some (log, lastIndex index entries) := by
  induction entries generalizing index with
  | nil => rfl
  | cons e entries ih =>
    obtain ⟨hpos, hterm⟩ := h e List.mem_cons_self
    obtain ⟨x, hx, hterm⟩ := Option.map_eq_some_iff.mp hterm
    rw [findConflict, if_neg (not_lt.mpr hpos)]
    simp only [hx, hterm, ne_eq, not_true_eq_false, if_false]
    exact ih fun a ha => h a (List.mem_cons_of_mem _ ha)

theorem findConflict_of_stopped {pre post : List LogEntry} {e : LogEntry}
    (hpre : ∀ a ∈ pre, Passed log a) (h : Stopped log e) :
    findConflict log index (pre ++ e :: post) =
      some (log.take (toInt e.index).toNat, some (toInt e.index)) := by
  induction pre generalizing index with
  | nil =>
    obtain ⟨hpos, x, hx, hne⟩ := h
    rw [List.nil_append, findConflict, if_neg (not_lt.mpr hpos)]
    simp only [hx, if_pos hne]
  | cons a pre ih =>
    obtain ⟨hpos, hterm⟩ := hpre a List.mem_cons_self
    obtain ⟨x, hx, hterm⟩ := Option.map_eq_some_iff.mp hterm
    rw [List.cons_append, findConflict, if_neg (not_lt.mpr hpos)]
    simp only [hx, hterm, ne_eq, not_true_eq_false, if_false]
    exact ih fun b hb => hpre b (List.mem_cons_of_mem _ hb)

/-- The loop passes over all entries, or over some and cuts the log at the next one. -/
theorem findConflict_eq_some (h : findConflict log index entries = some (log', i)) :
    ((∀ e ∈ entries, Passed log e) ∧ log' = log ∧ i = lastIndex index entries) ∨
    ∃ pre e post, entries = pre ++ e :: post ∧ (∀ a ∈ pre, Passed log a) ∧ Stopped log e ∧
      log' = log.take (toInt e.index).toNat ∧ i = some (toInt e.index) := by
  induction entries generalizing index with
  | nil =>
    obtain ⟨rfl, rfl⟩ := Prod.mk.inj (Option.some.inj h)
    exact Or.inl ⟨by simp, rfl, rfl⟩
  | cons e entries ih =>
    rw [findConflict] at h
    by_cases hpos : toInt e.index < 0
    · simp [hpos] at h
    · rw [if_neg hpos] at h
      have hpos := not_lt.mp hpos
      cases hx : log[(toInt e.index).toNat]? with
      | none => simp [hx] at h
      | some x =>
        simp only [hx] at h
        by_cases hterm : x.term ≠ ofInt (toInt e.term)
        · rw [if_pos hterm] at h
          obtain ⟨rfl, rfl⟩ := Prod.mk.inj (Option.some.inj h)
          exact Or.inr ⟨[], e, entries, rfl, by simp, ⟨hpos, x, hx, hterm⟩, rfl, rfl⟩
        · rw [if_neg hterm] at h
          have hpassed : Passed log e := ⟨hpos, by simpa [hx] using hterm⟩
          rcases ih h with ⟨hall, hlog, hi⟩ | ⟨pre, a, post, rfl, hpre, ha, hlog, hi⟩
          · refine Or.inl ⟨?_, hlog, hi⟩
            intro a ha
            rcases List.mem_cons.mp ha with rfl | ha
            · exact hpassed
            · exact hall a ha
          · refine Or.inr ⟨e :: pre, a, post, rfl, ?_, ha, hlog, hi⟩
            intro b hb
            rcases List.mem_cons.mp hb with rfl | hb
            · exact hpassed
            · exact hpre b hb

theorem newEntries_eq_some {new : List LogEntry} : newEntries entries i = some new ↔
    ∃ index : ℤ, i = some index ∧ 0 ≤ index ∧ index ≤ entries.length ∧
      new = entries.drop index.toNat := by
  cases i with
  | none => simp [newEntries]
  | some index =>
    by_cases h : 0 ≤ index ∧ index ≤ entries.length
    · simp [newEntries, h, eq_comm]
    · simp only [newEntries, if_neg h, Option.some.injEq]
      constructor
      · intro hn
        simp at hn
      · rintro ⟨_, rfl, h0, h1, -⟩
        exact absurd ⟨h0, h1⟩ h

/-- The log has an entry of the right term where the message continues it. -/
def Continues (log : List LogEntry) (args : AppendEntriesArgs) : Prop :=
  log[args.prevLogIndex]?.map LogEntry.term = some args.prevLogTerm

instance (log : List LogEntry) (args : AppendEntriesArgs) : Decidable (Continues log args) :=
  inferInstanceAs (Decidable (_ = _))

/-- The three ways a message of a current term can be answered: it is refused, every entry is
passed over, or the log is cut; the message from the last value of `index` on is then appended. -/
theorem appendEntries_eq_some (hterm : s.currentTerm ≤ args.term)
    (h : appendEntries s args reply = some (t, r)) :
    (¬ Continues s.logEntries args ∧ t = s ∧ r = ⟨args.term, false⟩) ∨
    (Continues s.logEntries args ∧ r = reply ∧ ∃ index : ℤ, 0 ≤ index ∧
      index ≤ args.logEntries.length ∧
      (((∀ e ∈ args.logEntries, Passed s.logEntries e) ∧
          lastIndex none args.logEntries = some index ∧
          t.logEntries = s.logEntries ++ args.logEntries.drop index.toNat) ∨
        ∃ pre e post, args.logEntries = pre ++ e :: post ∧
          (∀ a ∈ pre, Passed s.logEntries a) ∧ Stopped s.logEntries e ∧ toInt e.index = index ∧
          t.logEntries =
            s.logEntries.take index.toNat ++ args.logEntries.drop index.toNat)) := by
  obtain ⟨hrefused, ht⟩ | ⟨-, hc, rfl, log', i, new, hfind, hnew, rfl⟩ := appendEntries_cases h
  · exact Or.inl ⟨hrefused hterm, ht⟩
  · right
    obtain ⟨index, rfl, h0, hle, rfl⟩ := newEntries_eq_some.mp hnew
    refine ⟨hc, rfl, index, h0, hle, ?_⟩
    rcases findConflict_eq_some hfind with
      ⟨hall, hlog, hi⟩ | ⟨pre, e, post, he, hpre, hstop, hlog, hi⟩
    · exact Or.inl ⟨hall, hi.symm, by rw [hlog]⟩
    · have hindex := Option.some.inj hi
      refine Or.inr ⟨pre, e, post, he, hpre, hstop, hindex.symm, ?_⟩
      rw [hlog, ← hindex]

/-- Every entry of the log stands at its own index. -/
def Indexed (log : List LogEntry) : Prop := ∀ (i : ℕ) e, log[i]? = some e → e.index = i

/-- The entries of the message have consecutive indexes. -/
def Consecutive (args : AppendEntriesArgs) : Prop :=
  ∀ (j : ℕ) e, args.logEntries[j]? = some e → e.index = args.prevLogIndex + 1 + j

theorem indexed_of_map (h : log.map LogEntry.index = List.range log.length) : Indexed log := by
  intro i e he
  have := congrArg (·[i]?) h
  obtain ⟨hlt, rfl⟩ := List.getElem?_eq_some_iff.mp he
  simpa [hlt] using this

theorem consecutive_of_map (h : args.logEntries.map LogEntry.index =
    List.range' (args.prevLogIndex + 1) args.logEntries.length) : Consecutive args := by
  intro j e he
  have := congrArg (·[j]?) h
  obtain ⟨hlt, rfl⟩ := List.getElem?_eq_some_iff.mp he
  simpa [hlt, List.getElem?_range'] using this

/-- An entry of the log has the index of a sent entry, and another term. -/
def Conflicts (log : List LogEntry) (args : AppendEntriesArgs) : Prop :=
  ∃ (j : ℕ) (e x : LogEntry), args.logEntries[j]? = some e ∧
    log[args.prevLogIndex + 1 + j]? = some x ∧ x.term ≠ e.term

/-- What a follower should do with a message: answer without leaving its vectors; if its log does
not continue, refuse and change nothing; otherwise keep the log up to `prevLogIndex`, hold the
sent entries behind it, and keep what follows unless an entry conflicted. -/
def FollowsLeader (s : RaftServer peers) (args : AppendEntriesArgs) (reply : AppendEntriesReply) :
    Prop :=
  ∃ t r, appendEntries s args reply = some (t, r) ∧
    (Continues s.logEntries args →
      t.logEntries.take (args.prevLogIndex + 1) = s.logEntries.take (args.prevLogIndex + 1) ∧
      (∀ j < args.logEntries.length,
        t.logEntries[args.prevLogIndex + 1 + j]? = args.logEntries[j]?) ∧
      (¬ Conflicts s.logEntries args →
        t.logEntries.drop (args.prevLogIndex + 1 + args.logEntries.length) =
          s.logEntries.drop (args.prevLogIndex + 1 + args.logEntries.length)) ∧
      (Conflicts s.logEntries args →
        t.logEntries.length = args.prevLogIndex + 1 + args.logEntries.length)) ∧
    (¬ Continues s.logEntries args →
      t.logEntries = s.logEntries ∧ t.commitIndex = s.commitIndex ∧ r.success = false)

/-- The log is too short for the message by more than one entry, or has another term there. -/
def Refused (log : List LogEntry) (args : AppendEntriesArgs) : Prop :=
  log.length < args.prevLogIndex ∨
    ∃ x, log[args.prevLogIndex]? = some x ∧ x.term ≠ args.prevLogTerm

/-- How many of the sent entries have their place in the log already. -/
def overlap (log : List LogEntry) (args : AppendEntriesArgs) : ℕ :=
  min (log.length - (args.prevLogIndex + 1)) args.logEntries.length

/-- The message has entries, no entry of the log conflicts with one, the loop passes over all of
them, and the last index happens to be the number of sent entries that the log has already. -/
def AlreadyHeld (log : List LogEntry) (args : AppendEntriesArgs) : Prop :=
  Continues log args ∧ ¬ Conflicts log args ∧ (∀ e ∈ args.logEntries, Passed log e) ∧
    lastIndex none args.logEntries = some (overlap log args : ℤ)

theorem followsLeader_of_refused (hterm : s.currentTerm ≤ args.term)
    (h : Refused s.logEntries args) : FollowsLeader s args reply := by
  have hnot : ¬ Continues s.logEntries args := by
    intro hc
    obtain ⟨x, hx, he⟩ := Option.map_eq_some_iff.mp hc
    rcases h with h | ⟨y, hy, hne⟩
    · rw [List.getElem?_eq_none h.le] at hx
      simp at hx
    · rw [hy] at hx
      exact hne (Option.some.inj hx ▸ he)
  have heq : appendEntries s args reply = some (s, ⟨args.term, false⟩) := by
    unfold appendEntries
    rw [if_neg (not_lt.mpr hterm)]
    rcases h with h | ⟨x, hx, hne⟩
    · rw [if_pos h]
    · have hlt := (List.getElem?_eq_some_iff.mp hx).1
      rw [if_neg (by omega)]
      simp [hx, hne]
  exact ⟨s, _, heq, fun hc => absurd hc hnot, fun _ => ⟨rfl, rfl, rfl⟩⟩

/-- Where nothing conflicts, the log holds the sent entries as far as it reaches. -/
theorem getElem_of_not_conflicts (hlog : Indexed log) (hargs : Consecutive args)
    (hno : ¬ Conflicts log args) {j : ℕ} (hj : j < args.logEntries.length)
    (hlt : args.prevLogIndex + 1 + j < log.length) :
    log[args.prevLogIndex + 1 + j]? = args.logEntries[j]? := by
  obtain ⟨x, hx⟩ : ∃ x, log[args.prevLogIndex + 1 + j]? = some x :=
    ⟨_, List.getElem?_eq_getElem hlt⟩
  obtain ⟨e, he⟩ : ∃ e, args.logEntries[j]? = some e := ⟨_, List.getElem?_eq_getElem hj⟩
  have hindex : x.index = e.index := by rw [hlog _ x hx, hargs j e he]
  have hterm : x.term = e.term := by
    by_contra hne
    exact hno ⟨j, e, x, he, hx, hne⟩
  rw [hx, he]
  cases x
  cases e
  simp_all

theorem followsLeader_of_alreadyHeld (hterm : s.currentTerm ≤ args.term)
    (hlog : Indexed s.logEntries) (hargs : Consecutive args) (h : AlreadyHeld s.logEntries args) :
    FollowsLeader s args reply := by
  obtain ⟨hc, hno, hpassed, hlast⟩ := h
  obtain ⟨x, hx, hxt⟩ := Option.map_eq_some_iff.mp hc
  have hprev := (List.getElem?_eq_some_iff.mp hx).1
  have hnew : newEntries args.logEntries (some (overlap s.logEntries args : ℤ)) =
      some (args.logEntries.drop (overlap s.logEntries args)) := by
    refine newEntries_eq_some.mpr ⟨_, rfl, by omega, ?_, by simp⟩
    unfold overlap
    omega
  obtain ⟨t, ht, hlogt⟩ : ∃ t, appendEntries s args reply = some (t, reply) ∧
      t.logEntries = s.logEntries ++ args.logEntries.drop (overlap s.logEntries args) := by
    unfold appendEntries
    rw [if_neg (not_lt.mpr hterm), if_neg (by omega)]
    simp only [hx, hxt, ne_eq, not_true_eq_false, if_false, findConflict_of_passed hpassed, hlast,
      Option.bind_some, hnew, Option.map_some]
    exact ⟨_, rfl, rfl⟩
  refine ⟨t, reply, ht, fun _ => ⟨?_, ?_, ?_, fun hcon => absurd hcon hno⟩, fun hn => absurd hc hn⟩
  · rw [hlogt, List.take_append_of_le_length (by omega)]
  · intro j hj
    rw [hlogt]
    by_cases hlt : args.prevLogIndex + 1 + j < s.logEntries.length
    · rw [List.getElem?_append_left hlt]
      exact getElem_of_not_conflicts hlog hargs hno hj hlt
    · rw [List.getElem?_append_right (by omega), List.getElem?_drop]
      congr 1
      unfold overlap
      omega
  · intro _
    rw [hlogt, List.drop_append]
    have hdrop : (args.logEntries.drop (overlap s.logEntries args)).drop
        (args.prevLogIndex + 1 + args.logEntries.length - s.logEntries.length) = [] := by
      rw [List.drop_drop, List.drop_eq_nil_of_le]
      unfold overlap
      omega
    rw [hdrop, List.append_nil]

/-- A message that is accepted and handled as it should be finds its entries in the log. -/
theorem alreadyHeld_of_followsLeader (hterm : s.currentTerm ≤ args.term)
    (hc : Continues s.logEntries args) (h : FollowsLeader s args reply) :
    AlreadyHeld s.logEntries args := by
  obtain ⟨t, r, ht, hacc, -⟩ := h
  obtain ⟨-, hheld, hkept, hdropped⟩ := hacc hc
  obtain ⟨x, hx, -⟩ := Option.map_eq_some_iff.mp hc
  have hprev := (List.getElem?_eq_some_iff.mp hx).1
  -- the last of the sent entries is in the log afterwards
  have hlen : 0 < args.logEntries.length →
      args.prevLogIndex + args.logEntries.length < t.logEntries.length := by
    intro hpos
    have hlast := hheld (args.logEntries.length - 1) (by omega)
    rw [List.getElem?_eq_getElem (by omega : args.logEntries.length - 1 < _)] at hlast
    have := (List.getElem?_eq_some_iff.mp hlast).1
    omega
  obtain ⟨hn, -⟩ | ⟨-, -, index, h0, hle, hcase⟩ := appendEntries_eq_some hterm ht
  · exact absurd hc hn
  rcases hcase with ⟨hpassed, hlast, hlog⟩ | ⟨pre, e, post, he, -, ⟨-, y, hy, -⟩, hindex, hlog⟩
  · -- the sent entries that the log has are as in the message
    have hno : ¬ Conflicts s.logEntries args := by
      rintro ⟨j, e, x, he, hx, hne⟩
      have hj := (List.getElem?_eq_some_iff.mp he).1
      have hlt := (List.getElem?_eq_some_iff.mp hx).1
      have := hheld j hj
      rw [hlog, List.getElem?_append_left hlt, hx, he] at this
      exact hne (congrArg LogEntry.term (Option.some.inj this))
    have hpos : 0 < args.logEntries.length := by
      by_contra hzero
      have hnil : args.logEntries = [] := List.eq_nil_of_length_eq_zero (by omega)
      simp [hnil, lastIndex] at hlast
    refine ⟨hc, hno, hpassed, ?_⟩
    rw [hlast]
    have hover : index = (overlap s.logEntries args : ℤ) := by
      have hlt := hlen hpos
      have hend := congrArg List.length (hkept hno)
      rw [hlog, List.length_append, List.length_drop] at hlt
      simp only [hlog, List.length_drop, List.length_append] at hend
      unfold overlap
      omega
    rw [hover]
  · -- a cut log is no longer than the message
    exfalso
    have hlt := hlen (by simp [he])
    have hy := (List.getElem?_eq_some_iff.mp hy).1
    rw [hindex] at hy
    rw [hlog, List.length_append, List.length_take, List.length_drop] at hlt
    omega

/-- A follower handles a message as it should exactly when it refuses it, or the entries are in
its log already and the last index, taken for an offset, skips just these. -/
theorem followsLeader_iff (s : RaftServer peers) (args : AppendEntriesArgs)
    (reply : AppendEntriesReply) (hterm : s.currentTerm ≤ args.term)
    (hlog : Indexed s.logEntries) (hargs : Consecutive args) :
    FollowsLeader s args reply ↔
      Refused s.logEntries args ∨ AlreadyHeld s.logEntries args := by
  constructor
  · intro h
    by_cases hc : Continues s.logEntries args
    · exact Or.inr (alreadyHeld_of_followsLeader hterm hc h)
    · left
      obtain ⟨t, r, ht, -⟩ := h
      unfold appendEntries at ht
      rw [if_neg (not_lt.mpr hterm)] at ht
      by_cases hshort : s.logEntries.length < args.prevLogIndex
      · exact Or.inl hshort
      · rw [if_neg hshort] at ht
        cases hx : s.logEntries[args.prevLogIndex]? with
        | none => simp [hx] at ht
        | some x => exact Or.inr ⟨x, hx, by simpa [Continues, hx] using hc⟩
  · rintro (h | h)
    · exact followsLeader_of_refused hterm h
    · exact followsLeader_of_alreadyHeld hterm hlog hargs h

theorem lastIndex_append (e : LogEntry) :
    lastIndex index (entries ++ [e]) = some (toInt e.index) := by
  simp [lastIndex]

/-- The local `index` ends as the index of the last entry, which counts from the start of the
log and not of the message. -/
theorem lastIndex_of_consecutive (hargs : Consecutive args) (hne : args.logEntries ≠ [])
    (hsize : args.prevLogIndex + args.logEntries.length < 2 ^ 31) :
    lastIndex none args.logEntries =
      some ((args.prevLogIndex + args.logEntries.length : ℕ) : ℤ) := by
  obtain ⟨pre, e, he⟩ := List.eq_nil_or_concat args.logEntries |>.resolve_left hne
  have hindex : e.index = args.prevLogIndex + args.logEntries.length := by
    rw [hargs pre.length e (by simp [he]), he]
    simp
    omega
  rw [he, List.concat_eq_append, lastIndex_append, hindex, toInt_of_lt hsize]
  simp [he]

/-- In the range of `int` the second case means: the message starts behind entry 0, it has
entries, and the log continues with them. -/
theorem alreadyHeld_iff (hlog : Indexed log) (hargs : Consecutive args)
    (hsize : args.prevLogIndex + args.logEntries.length < 2 ^ 31)
    (hterms : ∀ e ∈ args.logEntries, e.term < 2 ^ 31) :
    AlreadyHeld log args ↔ Continues log args ∧ args.logEntries ≠ [] ∧ args.prevLogIndex = 0 ∧
      ∀ j < args.logEntries.length, log[j + 1]? = args.logEntries[j]? := by
  have hlast := fun hne => lastIndex_of_consecutive hargs hne hsize
  constructor
  · rintro ⟨hc, hno, -, hover⟩
    have hne : args.logEntries ≠ [] := by
      intro hnil
      simp [hnil, lastIndex] at hover
    have hpos := List.length_pos_of_ne_nil hne
    rw [hlast hne] at hover
    have hover := Option.some.inj hover
    unfold overlap at hover
    have hprev : args.prevLogIndex = 0 := by omega
    refine ⟨hc, hne, hprev, ?_⟩
    intro j hj
    have hget := getElem_of_not_conflicts hlog hargs hno hj (by omega)
    rw [hprev] at hget
    rw [← hget]
    congr 1
    omega
  · rintro ⟨hc, hne, hprev, hget⟩
    have hpos := List.length_pos_of_ne_nil hne
    have hfull : args.logEntries.length < log.length := by
      have := hget (args.logEntries.length - 1) (by omega)
      rw [List.getElem?_eq_getElem (by omega : args.logEntries.length - 1 < _)] at this
      have := (List.getElem?_eq_some_iff.mp this).1
      omega
    refine ⟨hc, ?_, ?_, ?_⟩
    · rintro ⟨j, e, x, he, hx, hterm⟩
      have hj := (List.getElem?_eq_some_iff.mp he).1
      have hsame := hget j hj
      rw [hprev, (by omega : 0 + 1 + j = j + 1), hsame, he] at hx
      exact hterm (congrArg LogEntry.term (Option.some.inj hx)).symm
    · intro e he
      obtain ⟨j, hj⟩ := List.mem_iff_getElem?.mp he
      have hlt := (List.getElem?_eq_some_iff.mp hj).1
      have hindex : e.index = j + 1 := by
        rw [hargs j e hj, hprev]
        omega
      have hsmall : toInt e.index = ((j + 1 : ℕ) : ℤ) := by
        rw [hindex]
        exact toInt_of_lt (by omega)
      refine ⟨by omega, ?_⟩
      rw [hsmall, Int.toNat_natCast, hget j hlt, hj, ofInt_toInt (hterms e he)]
      rfl
    · rw [hlast hne]
      unfold overlap
      congr 1
      omega

/-- A follower of term 1. -/
def followerOf (log : List LogEntry) : RaftServer 2 := .restored 1 1 log

/-- A message that repeats an entry of the log. -/
theorem followsLeader_repeated :
    FollowsLeader (followerOf [⟨0, 1⟩, ⟨1, 1⟩]) ⟨1, 0, 0, 1, 0, [⟨1, 1⟩]⟩ ⟨1, true⟩ := by
  have hlog : Indexed [⟨0, 1⟩, ⟨1, 1⟩] := indexed_of_map rfl
  have hargs : Consecutive ⟨1, 0, 0, 1, 0, [⟨1, 1⟩]⟩ := consecutive_of_map rfl
  refine (followsLeader_iff _ _ _ le_rfl hlog hargs).mpr (Or.inr ?_)
  refine (alreadyHeld_iff hlog hargs (by decide) (by decide)).mpr ⟨rfl, by decide, rfl, ?_⟩
  intro j hj
  obtain rfl : j = 0 := by simpa using hj
  rfl

/-- The plain case of one new entry behind the end of the log: the loop reads past the end. -/
theorem new_entry_out_of_bounds :
    Indexed (followerOf [⟨0, 1⟩]).logEntries ∧ Consecutive ⟨1, 0, 0, 1, 0, [⟨1, 1⟩]⟩ ∧
    appendEntries (followerOf [⟨0, 1⟩]) ⟨1, 0, 0, 1, 0, [⟨1, 1⟩]⟩ ⟨1, true⟩ = none ∧
    ¬ FollowsLeader (followerOf [⟨0, 1⟩]) ⟨1, 0, 0, 1, 0, [⟨1, 1⟩]⟩ ⟨1, true⟩ := by
  have h : appendEntries (followerOf [⟨0, 1⟩]) ⟨1, 0, 0, 1, 0, [⟨1, 1⟩]⟩ ⟨1, true⟩ = none := rfl
  refine ⟨indexed_of_map rfl, consecutive_of_map rfl, h, ?_⟩
  rintro ⟨t, r, ht, -⟩
  rw [h] at ht
  simp at ht

end RaftServer

end AlphaDb.Raft
