import AlphaDb.Transaction.EntryLifecycle
import AlphaDb.Transaction.LockBookkeeping

/-! The entries of a whole lock table. For clients that make their calls one at a time, each of
them goes through a run of `LockQueue`. -/
namespace AlphaDb.Transaction

open Trace

namespace LockSystem

variable {n : ℕ} {s t : LockSystem n} {a : LockStep n} {c : Fin n} {call : Call} {p : ℕ}
  {txnId : TxnId} {mode : LockMode} {item : DataItem} {raw : LockMode × ℤ} {q : LockQueue}
  {I : LockMode × ℤ → Prop} {C : LockQueue → QueueStep → Prop}

@[simp] theorem setCall_calls {x : Option Call} :
    (s.setCall c x).calls = Function.update s.calls c x := rfl

@[simp] theorem setCall_table {x : Option Call} : (s.setCall c x).table = s.table := rfl

@[simp] theorem setEntry_calls {e : LockEntry} : (s.setEntry p e).calls = s.calls := rfl

@[simp] theorem setEntry_table {e : LockEntry} :
    (s.setEntry p e).table = s.table.setEntry p e := rfl

@[simp] theorem table_setEntry_entry {l : LockTable} {e : LockEntry} :
    (l.setEntry p e).entry = Function.update l.entry p e := rfl

@[simp] theorem table_setEntry_table {l : LockTable} {e : LockEntry} :
    (l.setEntry p e).table = l.table := rfl

@[simp] theorem table_setEntry_item {l : LockTable} {e : LockEntry} :
    (l.setEntry p e).item = l.item := rfl

theorem table_remove {l : LockTable} :
    (l.remove item).entry = l.entry ∧ (l.remove item).item = l.item := by
  unfold LockTable.remove
  split <;> exact ⟨rfl, rfl⟩

/-- `add` changes no entry but the new one. -/
theorem add_entry (l : LockTable) (item : DataItem) (raw : LockMode × ℤ) :
    (l.search item = some (l.add item raw).1 ∧ (l.add item raw).2 = l) ∨
      (l.search item = none ∧ (l.add item raw).1 = l.next ∧
        (l.add item raw).2.entry = Function.update l.entry l.next (.new raw.1 raw.2) ∧
        (l.add item raw).2.item = Function.update l.item l.next item) := by
  unfold LockTable.add
  cases h : l.search item with
  | some p => exact Or.inl ⟨rfl, rfl⟩
  | none => exact Or.inr ⟨rfl, rfl, rfl, rfl⟩

theorem step_add (h : step s (.add c txnId mode item raw) = some t) : s.calls c = none ∧
    t = { s with table := (s.table.add item raw).2 }.setCall c
      (some ⟨txnId, mode, item, (s.table.add item raw).1, .added⟩) := by
  simp only [step] at h
  split at h
  · next hc => exact ⟨Option.isNone_iff_eq_none.mp hc, (Option.some.inj h).symm⟩
  · simp at h

theorem step_push (h : step s (.push c) = some t) : ∃ call, s.calls c = some call ∧
    call.phase = .added ∧
    t = (s.setEntry call.entry ((s.table.entry call.entry).push call.txnId call.mode)).setCall c
      (some { call with phase := .waiting }) := by
  obtain ⟨call, hc, rfl⟩ := Option.map_eq_some_iff.mp h
  obtain ⟨hc, hp⟩ := inPhase_eq_some.mp hc
  exact ⟨call, hc, hp, rfl⟩

/-- An evaluation changes nothing, or it grants the request and ends the call. -/
theorem step_evaluate (h : step s (.evaluate c) = some t) : ∃ call, s.calls c = some call ∧
    call.phase = .waiting ∧
    ((t = s ∧ (s.table.entry call.entry).evaluate call.txnId call.mode =
        some (false, s.table.entry call.entry)) ∨
      ∃ e, (s.table.entry call.entry).evaluate call.txnId call.mode = some (true, e) ∧
        t = (s.setEntry call.entry e).setCall c none) := by
  obtain ⟨call, hc, h⟩ := Option.bind_eq_some_iff.mp h
  obtain ⟨hc, hp⟩ := inPhase_eq_some.mp hc
  obtain ⟨⟨b, e⟩, he, rfl⟩ := Option.map_eq_some_iff.mp h
  refine ⟨call, hc, hp, ?_⟩
  cases b with
  | true => exact Or.inr ⟨e, he, rfl⟩
  | false =>
    obtain ⟨_, _, _, -, ⟨-, rfl⟩ | ⟨hb, -⟩⟩ := LockEntry.evaluate_eq_some he
    · exact Or.inl ⟨by simp [LockSystem.setEntry, LockTable.setEntry], he⟩
    · simp at hb

theorem step_search (h : step s (.search c txnId item) = some t) : s.calls c = none ∧
    ∃ p, s.table.search item = some p ∧
      t = s.setCall c (some ⟨txnId, .none, item, p, .searched⟩) := by
  simp only [step] at h
  split at h
  · next hc =>
    obtain ⟨p, hp, rfl⟩ := Option.map_eq_some_iff.mp h
    exact ⟨Option.isNone_iff_eq_none.mp hc, p, hp, rfl⟩
  · simp at h

theorem step_delete (h : step s (.delete c) = some t) : ∃ call, s.calls c = some call ∧
    call.phase = .searched ∧
    t = (s.setEntry call.entry ((s.table.entry call.entry).release call.txnId).2).setCall c
      (some { call with phase := .deleted }) := by
  obtain ⟨call, hc, rfl⟩ := Option.map_eq_some_iff.mp h
  obtain ⟨hc, hp⟩ := inPhase_eq_some.mp hc
  exact ⟨call, hc, hp, rfl⟩

theorem step_finish (h : step s (.finish c) = some t) : ∃ call, s.calls c = some call ∧
    call.phase = .deleted ∧ t.calls = Function.update s.calls c none ∧
    t.table.entry = s.table.entry ∧ t.table.item = s.table.item := by
  obtain ⟨call, hc, rfl⟩ := Option.map_eq_some_iff.mp h
  obtain ⟨hc, hp⟩ := inPhase_eq_some.mp hc
  refine ⟨call, hc, hp, ?_⟩
  split
  · exact ⟨rfl, table_remove⟩
  · exact ⟨rfl, rfl, rfl⟩

/-- The transaction has no call in progress. -/
def Idle (s : LockSystem n) (txnId : TxnId) : Prop :=
  ∀ c, ∀ call ∈ s.calls c, call.txnId ≠ txnId

/-- The transaction has no record on the item. -/
def Unrecorded (s : LockSystem n) (txnId : TxnId) (item : DataItem) : Prop :=
  ∀ p ∈ s.table.search item, ∀ r ∈ (s.table.entry p).waitList, r.txnId ≠ txnId

/-- Transactions make their calls one at a time and request an item only when they have no record
on it; entries are deleted as in `FreesUnshared`. -/
def OneAtATime (s : LockSystem n) : LockStep n → Prop
  | .add _ txnId mode item _ => mode ≠ .none ∧ s.Idle txnId ∧ s.Unrecorded txnId item
  | .search _ txnId _ => s.Idle txnId
  | a => s.FreesUnshared a

instance : Decidable (s.Idle txnId) := inferInstanceAs (Decidable (∀ _, ∀ _ ∈ _, _))

instance : Decidable (s.Unrecorded txnId item) := inferInstanceAs (Decidable (∀ _ ∈ _, _))

instance : ∀ (s : LockSystem n) (a : LockStep n), Decidable (s.OneAtATime a)
  | _, .add .. => inferInstanceAs (Decidable (_ ∧ _))
  | s, .search _ txnId _ => inferInstanceAs (Decidable (s.Idle txnId))
  | s, .push c => inferInstanceAs (Decidable (s.FreesUnshared (.push c)))
  | s, .evaluate c => inferInstanceAs (Decidable (s.FreesUnshared (.evaluate c)))
  | s, .delete c => inferInstanceAs (Decidable (s.FreesUnshared (.delete c)))
  | s, .finish c => inferInstanceAs (Decidable (s.FreesUnshared (.finish c)))

theorem OneAtATime.freesUnshared (h : s.OneAtATime a) : s.FreesUnshared a := by
  cases a with
  | add | search => trivial
  | push | evaluate | delete | finish => exact h

/-- This call waits in the entry for its request. -/
def WaitsIn (call : Option Call) (p : ℕ) (txnId : TxnId) (mode : LockMode) : Prop :=
  ∃ x, call = some x ∧ x.phase = .waiting ∧ x.entry = p ∧ x.txnId = txnId ∧ x.mode = mode

/-- The queue of an entry, and the modes of the calls that wait in it. -/
structure Queued (s : LockSystem n) (p : ℕ) (q : LockQueue) : Prop where
  entry : q.entry = s.table.entry p
  inWait : ∀ txnId mode, q.inWait txnId = some mode ↔ ∃ c, WaitsIn (s.calls c) p txnId mode

/-- The entry has gone through a run of `LockQueue`, from fields as in `I`, in steps as in `C`. -/
def RunsAsQueue (I : LockMode × ℤ → Prop) (C : LockQueue → QueueStep → Prop) (s : LockSystem n)
    (p : ℕ) : Prop :=
  ∃ raw steps q, I raw ∧ MTr (Guarded C LockQueue.step) (.init (.new raw.1 raw.2)) steps q ∧
    Queued s p q

/-- A condition on the steps of a queue that is about releases only. -/
def AboutReleases (C : LockQueue → QueueStep → Prop) : Prop :=
  ∀ q, (∀ txnId mode, C q (.request txnId mode)) ∧ ∀ txnId, C q (.evaluate txnId)

/-- A step makes no entry with other fields than in `I`, and no release other than in `C`. -/
def Fits (I : LockMode × ℤ → Prop) (C : LockQueue → QueueStep → Prop) (s : LockSystem n) :
    LockStep n → Prop
  | .add _ _ _ _ raw => I raw
  | .delete c => ∀ call ∈ s.calls c, ∀ q, Queued s call.entry q → C q (.unlock call.txnId)
  | _ => True

/-- What holds in every run of such clients. -/
structure Orderly (s : LockSystem n) : Prop where
  consistent : Consistent s
  one : ∀ c c' call call', s.calls c = some call → s.calls c' = some call' →
    call.txnId = call'.txnId → c = c'
  added : ∀ c call, s.calls c = some call → call.phase = .added →
    call.mode ≠ .none ∧ ∀ r ∈ (s.table.entry call.entry).waitList, r.txnId ≠ call.txnId
  queues : ∀ p, s.RunsAsQueue (fun _ => True) (fun _ _ => True) p

theorem waitsIn_none : ¬ WaitsIn none p txnId mode := by
  rintro ⟨_, hx, -⟩
  simp at hx

theorem waitsIn_of_phase (hp : call.phase ≠ .waiting) : ¬ WaitsIn (some call) p txnId mode := by
  rintro ⟨_, hx, hw, -⟩
  obtain rfl := Option.some.inj hx
  exact hp hw

/-- A thread that changes its call changes who waits only by that call. -/
theorem exists_waitsIn_update {calls : Fin n → Option Call} {x : Option Call}
    (hold : ¬ WaitsIn (calls c) p txnId mode) :
    (∃ c', WaitsIn (Function.update calls c x c') p txnId mode) ↔
      (∃ c', WaitsIn (calls c') p txnId mode) ∨ WaitsIn x p txnId mode := by
  constructor
  · rintro ⟨c', hw⟩
    by_cases he : c' = c
    · subst he
      rw [Function.update_self] at hw
      exact Or.inr hw
    · rw [Function.update_of_ne he] at hw
      exact Or.inl ⟨c', hw⟩
  · rintro (⟨c', hw⟩ | hw)
    · have he : c' ≠ c := by
        rintro rfl
        exact hold hw
      exact ⟨c', by rwa [Function.update_of_ne he]⟩
    · exact ⟨c, by rwa [Function.update_self]⟩

/-- Changing a call that does not wait to another that does not wait. -/
theorem Queued.setCall (h : Queued s p q) {x : Option Call}
    (hold : ∀ txnId mode, ¬ WaitsIn (s.calls c) p txnId mode)
    (hnew : ∀ txnId mode, ¬ WaitsIn x p txnId mode) : Queued (s.setCall c x) p q := by
  refine ⟨h.entry, ?_⟩
  intro txnId mode
  rw [h.inWait, setCall_calls, exists_waitsIn_update (hold txnId mode)]
  exact (or_iff_left (hnew txnId mode)).symm

theorem Queued.congr (h : Queued s p q) (he : t.table.entry p = s.table.entry p)
    (hc : t.calls = s.calls) : Queued t p q := by
  refine ⟨h.entry.trans he.symm, ?_⟩
  intro txnId mode
  rw [h.inWait, hc]

theorem runsAsQueue_init (hI : I (.none, 0)) :
    RunsAsQueue I C (init : LockSystem n) p := by
  refine ⟨(.none, 0), [], _, hI, .refl, rfl, ?_⟩
  intro txnId mode
  simp [LockQueue.init, init, WaitsIn]

theorem orderly_init : Orderly (init : LockSystem n) :=
  ⟨consistent_init, by simp [init], by simp [init], fun _ => runsAsQueue_init trivial⟩

theorem RunsAsQueue.reaches (h : RunsAsQueue I C s p) : ∃ raw steps q, I raw ∧
    MTr (fun s a t => LockQueue.step s a = some t) (.init (.new raw.1 raw.2)) steps q ∧
      Queued s p q := by
  obtain ⟨raw, steps, q, hI, hrun, hq⟩ := h
  exact ⟨raw, steps, q, hI, hrun.mono fun _ _ _ hs => hs.2, hq⟩

/-- The queue of an entry as a state of `LockQueue` that can be reached. -/
theorem Orderly.disciplined (h : Orderly s) (p : ℕ) :
    ∃ q, LockQueue.Disciplined q ∧ Queued s p q := by
  obtain ⟨raw, steps, q, -, hrun, hq⟩ := (h.queues p).reaches
  exact ⟨q, mTr_trInv LockQueue.disciplined_step hrun LockQueue.disciplined_init, hq⟩

/-- What a waiting call relies on: its record waits, and is the only one of its transaction. -/
theorem Orderly.waiting (h : Orderly s) (hc : s.calls c = some call) (hp : call.phase = .waiting) :
    ⟨call.txnId, call.mode, .waiting⟩ ∈ (s.table.entry call.entry).waitList := by
  obtain ⟨q, hd, hq⟩ := h.disciplined call.entry
  rw [← hq.entry]
  exact (hd.waits _ _).mp ((hq.inWait _ _).mpr ⟨c, call, hc, hp, rfl, rfl, rfl⟩)

theorem Orderly.modes (h : Orderly s) (p : ℕ) :
    ∀ r ∈ (s.table.entry p).waitList, r.mode ≠ .none := by
  obtain ⟨q, hd, hq⟩ := h.disciplined p
  rw [← hq.entry]
  exact hd.modes

theorem Orderly.mode_ne_none (h : Orderly s) (hc : s.calls c = some call)
    (hp : call.phase = .waiting) : call.mode ≠ .none :=
  h.modes call.entry _ (h.waiting hc hp)

/-- Changing a call that does not wait to another, with the entry as it was. -/
theorem RunsAsQueue.frame (h : RunsAsQueue I C s p) {x : Option Call}
    (he : t.table.entry p = s.table.entry p) (hcalls : t.calls = Function.update s.calls c x)
    (hold : ∀ txnId mode, ¬ WaitsIn (s.calls c) p txnId mode)
    (hnew : ∀ txnId mode, ¬ WaitsIn x p txnId mode) : RunsAsQueue I C t p := by
  obtain ⟨raw, steps, q, hI, hrun, hq⟩ := h
  exact ⟨raw, steps, q, hI, hrun, (hq.setCall hold hnew).congr he hcalls⟩

/-- A waiting call is in its own entry, for its own transaction. -/
theorem waitsIn_some (hw : WaitsIn (some call) p txnId mode) :
    call.phase = .waiting ∧ call.entry = p ∧ call.txnId = txnId ∧ call.mode = mode := by
  obtain ⟨_, hx, h⟩ := hw
  obtain rfl := Option.some.inj hx
  exact h

/-- A transaction with a call in progress waits by no other call. -/
theorem Orderly.waitsIn_eq (h : Orderly s) (hc : s.calls c = some call) {c' : Fin n}
    (hw : WaitsIn (s.calls c') p call.txnId mode) : c' = c := by
  obtain ⟨x, hx, -, -, hid, -⟩ := hw
  exact h.one c' c x call hx hc hid

theorem runsAsQueue_add (h : Orderly s) (hqueue : RunsAsQueue I C s p) (hI : I raw)
    (hc : s.calls c = none) :
    RunsAsQueue I C ({ s with table := (s.table.add item raw).2 }.setCall c
      (some ⟨txnId, mode, item, (s.table.add item raw).1, .added⟩)) p := by
  have hold : ∀ p txnId mode, ¬ WaitsIn (s.calls c) p txnId mode := by
    intro p txnId mode
    rw [hc]
    exact waitsIn_none
  have hnew : ∀ p txnId' mode', ¬ WaitsIn
      (some ⟨txnId, mode, item, (s.table.add item raw).1, .added⟩) p txnId' mode' :=
    fun _ _ _ => waitsIn_of_phase (by simp)
  rcases add_entry s.table item raw with ⟨-, he⟩ | ⟨-, -, he, -⟩
  · exact hqueue.frame (by simp [he]) rfl (hold p) (hnew p)
  · by_cases hp : p = s.table.next
    · subst hp
      -- nobody can wait in an entry that was not there
      refine ⟨raw, [], _, hI, .refl, by simp [LockQueue.init, he], ?_⟩
      intro txnId' mode'
      rw [setCall_calls, exists_waitsIn_update (hold _ _ _)]
      refine iff_of_false (by simp [LockQueue.init]) ?_
      rintro (⟨c', x, hx, -, hentry, -⟩ | hw)
      · have hlt := (h.consistent.table _ _ (h.consistent.calls c' x hx)).2.2
        omega
      · exact hnew _ _ _ hw
    · refine hqueue.frame ?_ rfl (hold p) (hnew p)
      rw [setCall_table, he, Function.update_of_ne hp]

theorem runsAsQueue_push (h : Orderly s) (hqueue : RunsAsQueue I C s p) (hC : AboutReleases C)
    (hc : s.calls c = some call) (hp : call.phase = .added) :
    RunsAsQueue I C
      ((s.setEntry call.entry ((s.table.entry call.entry).push call.txnId call.mode)).setCall c
        (some { call with phase := .waiting })) p := by
  have hold : ∀ p txnId mode, ¬ WaitsIn (s.calls c) p txnId mode := by
    intro p txnId mode
    rw [hc]
    exact waitsIn_of_phase (by simp [hp])
  by_cases he : p = call.entry
  · subst he
    obtain ⟨hmode, hnew⟩ := h.added c call hc hp
    obtain ⟨raw, steps, q, hI, hrun, hq⟩ := hqueue
    rw [← hq.entry] at hnew
    have hstep : LockQueue.step q (.request call.txnId call.mode) = some _ :=
      if_pos ⟨hmode, hnew⟩
    refine ⟨raw, steps ++ [.request call.txnId call.mode], _, hI,
      hrun.append (.single ⟨(hC q).1 _ _, hstep⟩), ?_, ?_⟩
    · simp [hq.entry]
    · intro txnId' mode'
      rw [setCall_calls, setEntry_calls, exists_waitsIn_update (hold _ _ _), ← hq.inWait]
      dsimp only
      by_cases hid : txnId' = call.txnId
      · subst hid
        rw [Function.update_self, Option.some.injEq]
        constructor
        · rintro rfl
          exact Or.inr ⟨_, rfl, rfl, rfl, rfl, rfl⟩
        · rintro (hw | hw)
          · obtain ⟨c', hw⟩ := (hq.inWait _ _).mp hw
            rw [h.waitsIn_eq hc hw] at hw
            exact absurd hw (hold _ _ _)
          · exact (waitsIn_some hw).2.2.2
      · rw [Function.update_of_ne hid]
        refine (or_iff_left ?_).symm
        exact fun hw => hid (waitsIn_some hw).2.2.1.symm
  · refine hqueue.frame ?_ rfl (hold p) ?_
    · simp [he]
    · exact fun _ _ hw => he (waitsIn_some hw).2.1.symm

theorem runsAsQueue_grant {e : LockEntry} (h : Orderly s) (hqueue : RunsAsQueue I C s p)
    (hC : AboutReleases C) (hc : s.calls c = some call) (hp : call.phase = .waiting)
    (hg : (s.table.entry call.entry).evaluate call.txnId call.mode = some (true, e)) :
    RunsAsQueue I C ((s.setEntry call.entry e).setCall c none) p := by
  by_cases he : p = call.entry
  · subst he
    obtain ⟨raw, steps, q, hI, hrun, hq⟩ := hqueue
    have hw := (hq.inWait call.txnId call.mode).mpr ⟨c, call, hc, hp, rfl, rfl, rfl⟩
    rw [← hq.entry] at hg
    have hstep : LockQueue.step q (.evaluate call.txnId) =
        some { q with entry := e, inWait := Function.update q.inWait call.txnId none } := by
      simp [LockQueue.step, hw, hg]
    refine ⟨raw, steps ++ [.evaluate call.txnId], _, hI,
      hrun.append (.single ⟨(hC q).2 _, hstep⟩), ?_, ?_⟩
    · simp
    · intro txnId' mode'
      rw [setCall_calls, setEntry_calls]
      dsimp only
      by_cases hid : txnId' = call.txnId
      · subst hid
        rw [Function.update_self]
        refine iff_of_false (by simp) ?_
        rintro ⟨c', hw'⟩
        by_cases hcc : c' = c
        · subst hcc
          rw [Function.update_self] at hw'
          exact waitsIn_none hw'
        · rw [Function.update_of_ne hcc] at hw'
          exact hcc (h.waitsIn_eq hc hw')
      · have hold : ¬ WaitsIn (s.calls c) call.entry txnId' mode' := by
          rw [hc]
          exact fun hw => hid (waitsIn_some hw).2.2.1.symm
        rw [Function.update_of_ne hid, exists_waitsIn_update hold, hq.inWait]
        exact (or_iff_left waitsIn_none).symm
  · refine hqueue.frame ?_ rfl ?_ fun _ _ => waitsIn_none
    · simp [he]
    · rw [hc]
      exact fun _ _ hw => he (waitsIn_some hw).2.1.symm

theorem runsAsQueue_delete (hqueue : RunsAsQueue I C s p)
    (hC : ∀ q, Queued s call.entry q → C q (.unlock call.txnId)) (hc : s.calls c = some call)
    (hp : call.phase = .searched) :
    RunsAsQueue I C
      ((s.setEntry call.entry ((s.table.entry call.entry).release call.txnId).2).setCall c
        (some { call with phase := .deleted })) p := by
  have hold : ∀ p txnId mode, ¬ WaitsIn (s.calls c) p txnId mode := by
    intro p txnId mode
    rw [hc]
    exact waitsIn_of_phase (by simp [hp])
  by_cases he : p = call.entry
  · subst he
    obtain ⟨raw, steps, q, hI, hrun, hq⟩ := hqueue
    refine ⟨raw, steps ++ [.unlock call.txnId], _, hI, hrun.append (.single ⟨hC q hq, rfl⟩), ?_, ?_⟩
    · simp [hq.entry]
    · intro txnId' mode'
      rw [setCall_calls, setEntry_calls, exists_waitsIn_update (hold _ _ _), ← hq.inWait]
      exact (or_iff_left (waitsIn_of_phase (by simp))).symm
  · exact hqueue.frame (by simp [he]) rfl (hold p) fun _ _ => waitsIn_of_phase (by simp)

/-- Every entry goes on as a queue in every step. -/
theorem runsAsQueue_step (h : Orderly s) (hqueue : RunsAsQueue I C s p) (hC : AboutReleases C)
    (hf : s.Fits I C a) (hs : step s a = some t) : RunsAsQueue I C t p := by
  cases a with
  | add c txnId mode item raw =>
    obtain ⟨hc, rfl⟩ := step_add hs
    exact runsAsQueue_add h hqueue hf hc
  | push c =>
    obtain ⟨call, hc, hp, rfl⟩ := step_push hs
    exact runsAsQueue_push h hqueue hC hc hp
  | evaluate c =>
    obtain ⟨call, hc, hp, ⟨rfl, -⟩ | ⟨e, he, rfl⟩⟩ := step_evaluate hs
    · exact hqueue
    · exact runsAsQueue_grant h hqueue hC hc hp he
  | search c txnId item =>
    obtain ⟨hc, _, -, rfl⟩ := step_search hs
    refine hqueue.frame rfl rfl ?_ fun _ _ => waitsIn_of_phase (by simp)
    rw [hc]
    exact fun _ _ => waitsIn_none
  | delete c =>
    obtain ⟨call, hc, hp, rfl⟩ := step_delete hs
    exact runsAsQueue_delete hqueue (hf call hc) hc hp
  | finish c =>
    obtain ⟨call, hc, hp, hcalls, he, -⟩ := step_finish hs
    refine hqueue.frame (congrFun he p) hcalls ?_ fun _ _ => waitsIn_none
    rw [hc]
    exact fun _ _ => waitsIn_of_phase (by simp [hp])

/-- The parts of the invariant that are not about one queue, when one thread changes its call: a
transaction comes into an entry only by that call. -/
theorem Orderly.step_call (h : Orderly s) {x : Option Call} (hcons : Consistent t)
    (hcalls : t.calls = Function.update s.calls c x)
    (hone : ∀ call, x = some call →
      (∃ old, s.calls c = some old ∧ old.txnId = call.txnId) ∨ s.Idle call.txnId)
    (hadded : ∀ call, x = some call → call.phase = .added →
      call.mode ≠ .none ∧ ∀ r ∈ (t.table.entry call.entry).waitList, r.txnId ≠ call.txnId)
    (hrecords : ∀ p, ∀ r ∈ (t.table.entry p).waitList,
      (∃ r' ∈ (s.table.entry p).waitList, r'.txnId = r.txnId) ∨
        ∃ old, s.calls c = some old ∧ old.txnId = r.txnId)
    (hqueues : ∀ p, t.RunsAsQueue (fun _ => True) (fun _ _ => True) p) : Orderly t := by
  -- two calls of one transaction, one of them the changed one
  have hnew : ∀ call, x = some call → ∀ c' call', c' ≠ c → s.calls c' = some call' →
      call'.txnId ≠ call.txnId := by
    intro call hx c' call' hne hc' hid
    rcases hone call hx with ⟨old, hold, he⟩ | hidle
    · exact hne (h.one c' c call' old hc' hold (hid.trans he.symm))
    · exact hidle c' call' hc' hid
  refine ⟨hcons, ?_, ?_, hqueues⟩
  · intro c₁ c₂ x₁ x₂ h₁ h₂ hid
    rw [hcalls] at h₁ h₂
    by_cases e₁ : c₁ = c <;> by_cases e₂ : c₂ = c
    · exact e₁.trans e₂.symm
    · subst e₁
      rw [Function.update_self] at h₁
      rw [Function.update_of_ne e₂] at h₂
      exact absurd hid.symm (hnew x₁ h₁ c₂ x₂ e₂ h₂)
    · subst e₂
      rw [Function.update_self] at h₂
      rw [Function.update_of_ne e₁] at h₁
      exact absurd hid (hnew x₂ h₂ c₁ x₁ e₁ h₁)
    · rw [Function.update_of_ne e₁] at h₁
      rw [Function.update_of_ne e₂] at h₂
      exact h.one c₁ c₂ x₁ x₂ h₁ h₂ hid
  · intro c' call' hc' hp'
    rw [hcalls] at hc'
    by_cases he : c' = c
    · subst he
      rw [Function.update_self] at hc'
      exact hadded call' hc' hp'
    · rw [Function.update_of_ne he] at hc'
      obtain ⟨hmode, hnone⟩ := h.added c' call' hc' hp'
      refine ⟨hmode, ?_⟩
      intro r hr hid
      rcases hrecords _ r hr with ⟨r', hr', he'⟩ | ⟨old, hold, he'⟩
      · exact hnone r' hr' (he'.trans hid)
      · exact he (h.one c' c call' old hc' hold (hid.symm.trans he'.symm))

/-- An evaluation changes the status of a record and nothing else about who is recorded. -/
theorem evaluate_txnId {e e' : LockEntry} {b : Bool} (h : e.evaluate txnId mode = some (b, e')) :
    ∀ r ∈ e'.waitList, ∃ r' ∈ e.waitList, r'.txnId = r.txnId := by
  intro r hr
  obtain ⟨pre, r₀, post, hl, ⟨-, rfl⟩ | ⟨-, hid, -, hl', -⟩⟩ := LockEntry.evaluate_eq_some h
  · exact ⟨r, hr, rfl⟩
  · rw [hl', List.mem_append, List.mem_cons] at hr
    rcases hr with hr | rfl | hr
    · exact ⟨r, by simp [hl, hr], rfl⟩
    · exact ⟨r₀, by simp [hl], hid⟩
    · exact ⟨r, by simp [hl, hr], rfl⟩

theorem orderly_step : TrInv (Guarded OneAtATime step) (Orderly : LockSystem n → Prop) := by
  rintro s a t ⟨hguard, hs⟩ h
  have hcons := consistent_step _ _ _ ⟨hguard.freesUnshared, hs⟩ h.consistent
  have hqueues : ∀ p, t.RunsAsQueue (fun _ => True) (fun _ _ => True) p := by
    intro p
    refine runsAsQueue_step h (h.queues p) (fun _ => ⟨fun _ _ => trivial, fun _ => trivial⟩) ?_ hs
    cases a <;> simp [Fits]
  cases a with
  | add c txnId mode item raw =>
    obtain ⟨hmode, hidle, hun⟩ := hguard
    obtain ⟨hc, rfl⟩ := step_add hs
    refine h.step_call hcons rfl ?_ ?_ ?_ hqueues
    · rintro _ ⟨⟩
      exact Or.inr hidle
    · rintro _ ⟨⟩ -
      refine ⟨hmode, ?_⟩
      rcases add_entry s.table item raw with ⟨hf, he⟩ | ⟨-, hn, he, -⟩
      · simpa [he] using hun _ hf
      · simp [he, hn, LockEntry.new]
    · intro p r hr
      rcases add_entry s.table item raw with ⟨-, he⟩ | ⟨-, -, he, -⟩
      · exact Or.inl ⟨r, by simpa [he] using hr, rfl⟩
      · by_cases hp : p = s.table.next
        · subst hp
          simp [he, LockEntry.new] at hr
        · exact Or.inl ⟨r, by simpa [he, hp] using hr, rfl⟩
  | push c =>
    obtain ⟨call, hc, hp, rfl⟩ := step_push hs
    refine h.step_call hcons rfl ?_ ?_ ?_ hqueues
    · rintro _ ⟨⟩
      exact Or.inl ⟨call, hc, rfl⟩
    · rintro _ ⟨⟩ hp
      simp at hp
    · intro p r hr
      by_cases he : p = call.entry
      · subst he
        simp only [setCall_table, setEntry_table, table_setEntry_entry, Function.update_self,
          LockEntry.push, List.mem_append, List.mem_singleton] at hr
        rcases hr with hr | rfl
        · exact Or.inl ⟨r, hr, rfl⟩
        · exact Or.inr ⟨call, hc, rfl⟩
      · exact Or.inl ⟨r, by simpa [he] using hr, rfl⟩
  | evaluate c =>
    obtain ⟨call, hc, hp, ⟨rfl, -⟩ | ⟨e, he, rfl⟩⟩ := step_evaluate hs
    · exact h
    · refine h.step_call hcons rfl (by simp) (by simp) ?_ hqueues
      intro p r hr
      by_cases hpe : p = call.entry
      · subst hpe
        simp only [setCall_table, setEntry_table, table_setEntry_entry,
          Function.update_self] at hr
        exact Or.inl (evaluate_txnId he r hr)
      · exact Or.inl ⟨r, by simpa [hpe] using hr, rfl⟩
  | search c txnId item =>
    obtain ⟨hc, p, hp, rfl⟩ := step_search hs
    refine h.step_call hcons rfl ?_ ?_ (fun p r hr => Or.inl ⟨r, hr, rfl⟩) hqueues
    · rintro _ ⟨⟩
      exact Or.inr hguard
    · rintro _ ⟨⟩ hp
      simp at hp
  | delete c =>
    obtain ⟨call, hc, hp, rfl⟩ := step_delete hs
    refine h.step_call hcons rfl ?_ ?_ ?_ hqueues
    · rintro _ ⟨⟩
      exact Or.inl ⟨call, hc, rfl⟩
    · rintro _ ⟨⟩ hp
      simp at hp
    · intro p r hr
      refine Or.inl ⟨r, ?_, rfl⟩
      by_cases he : p = call.entry
      · subst he
        simp only [setCall_table, setEntry_table, table_setEntry_entry, Function.update_self,
          LockEntry.release_waitList] at hr
        exact List.mem_of_mem_filter hr
      · simpa [he] using hr
  | finish c =>
    obtain ⟨call, hc, hp, hcalls, hentry, -⟩ := step_finish hs
    refine h.step_call hcons hcalls (by simp) (by simp) ?_ hqueues
    intro p r hr
    exact Or.inl ⟨r, by rwa [hentry] at hr, rfl⟩

/-- The lock table refines the queues: in every run of clients that make their calls one at a time,
each entry has gone through a run of `LockQueue`, and the calls that wait in it are those that wait
in its condition variable. -/
theorem run_queues {steps : List (LockStep n)} (h : MTr (Guarded OneAtATime step) init steps s)
    (p : ℕ) : ∃ mode cnt qsteps q,
      MTr (fun s a t => LockQueue.step s a = some t) (.init (.new mode cnt)) qsteps q ∧
        q.entry = s.table.entry p ∧ ∀ txnId mode, q.inWait txnId = some mode ↔
          ∃ c call, s.calls c = some call ∧ call.phase = .waiting ∧ call.entry = p ∧
            call.txnId = txnId ∧ call.mode = mode := by
  obtain ⟨⟨mode, cnt⟩, qsteps, q, -, hrun, hq⟩ :=
    ((mTr_trInv orderly_step h orderly_init).queues p).reaches
  exact ⟨mode, cnt, qsteps, q, hrun, hq.entry, hq.inWait⟩

/-- Two transactions wait for two items, one of them behind a holder. -/
theorem run_queues_two_items : ∃ s : LockSystem 2,
    MTr (Guarded OneAtATime step) init
      [.add 0 1 .exclusive 7 (.none, 0), .push 0, .evaluate 0, .add 0 2 .exclusive 7 (.none, 0),
        .push 0, .evaluate 0, .add 1 1 .shared 8 (.none, 0), .push 1] s ∧
    (∃ mode cnt qsteps q,
      MTr (fun s a t => LockQueue.step s a = some t) (.init (.new mode cnt)) qsteps q ∧
        q.entry = s.table.entry 0 ∧ ∀ txnId mode, q.inWait txnId = some mode ↔
          ∃ c call, s.calls c = some call ∧ call.phase = .waiting ∧ call.entry = 0 ∧
            call.txnId = txnId ∧ call.mode = mode) ∧
    (s.table.entry 0).waitList = [⟨1, .exclusive, .granted⟩, ⟨2, .exclusive, .waiting⟩] := by
  have h : (execGuarded OneAtATime step (init : LockSystem 2)
      [.add 0 1 .exclusive 7 (.none, 0), .push 0, .evaluate 0, .add 0 2 .exclusive 7 (.none, 0),
        .push 0, .evaluate 0, .add 1 1 .shared 8 (.none, 0), .push 1]).any (fun s =>
        (s.table.entry 0).waitList = [⟨1, .exclusive, .granted⟩, ⟨2, .exclusive, .waiting⟩]) =
          true := by
    decide +kernel
  obtain ⟨s, hs, hp⟩ := exists_mTr_of_execGuarded h
  exact ⟨s, hs, run_queues hs 0, of_decide_eq_true hp⟩

/-- The transaction has a granted record in this mode in the entry that the table has for the
item. -/
def Holds (s : LockSystem n) (txnId : TxnId) (item : DataItem) (mode : LockMode) : Prop :=
  ∃ p ∈ s.table.search item, (s.table.entry p).Holds txnId mode

instance : Decidable (s.Holds txnId item mode) :=
  inferInstanceAs (Decidable (∃ p ∈ s.table.search item,
    (⟨txnId, mode, .granted⟩ : Record) ∈ (s.table.entry p).waitList))

/-- Two transactions hold an item only if both hold it shared. -/
theorem Orderly.shared_of_holds {txnId' : TxnId} {mode' : LockMode} (h : Orderly s)
    (hh : s.Holds txnId item mode) (hh' : s.Holds txnId' item mode') (hne : txnId ≠ txnId') :
    mode = .shared ∧ mode' = .shared := by
  obtain ⟨p, hp, hr⟩ := hh
  obtain ⟨p', hp', hr'⟩ := hh'
  obtain rfl : p = p' := Option.mem_unique hp hp'
  obtain ⟨q, hd, hq⟩ := h.disciplined p
  unfold LockEntry.Holds at hr hr'
  rw [← hq.entry] at hr hr'
  have hpair : q.entry.waitList.Pairwise fun a b =>
      a.status = .granted → b.status = .granted → a.mode = .shared ∧ b.mode = .shared :=
    hd.discipline.imp fun hab _ hb => (hab hb).2
  have hsymm : Std.Symm fun a b : Record =>
      a.status = .granted → b.status = .granted → a.mode = .shared ∧ b.mode = .shared :=
    ⟨fun _ _ hab hb ha => (hab ha hb).symm⟩
  exact hpair.forall hr hr' (fun he => hne (congrArg Record.txnId he)) rfl rfl

/-- A granted record is in the entry of its item. -/
theorem Orderly.holds_iff (h : Orderly s) : s.Holds txnId item mode ↔
    ∃ p, s.table.item p = item ∧ (s.table.entry p).Holds txnId mode := by
  constructor
  · rintro ⟨p, hp, hr⟩
    exact ⟨p, (h.consistent.table item p hp).2.1, hr⟩
  · rintro ⟨p, rfl, hr⟩
    exact ⟨p, h.consistent.records p (List.ne_nil_of_mem hr), hr⟩

/-- A record is granted only by an evaluation that ends the call for it. -/
theorem holds_of_step (h : Orderly s) (hs : Guarded OneAtATime step s a t)
    (hh : t.Holds txnId item mode) : s.Holds txnId item mode ∨
      ∃ c call, a = .evaluate c ∧ s.calls c = some call ∧ call.phase = .waiting ∧
        t.calls c = none ∧ call.txnId = txnId ∧ call.item = item ∧ call.mode = mode := by
  obtain ⟨p, hi, hr⟩ := (orderly_step _ _ _ hs h).holds_iff.mp hh
  rw [h.holds_iff]
  cases a with
  | add c txnId' mode' item' raw =>
    obtain ⟨hc, rfl⟩ := step_add hs.2
    rcases add_entry s.table item' raw with ⟨-, he⟩ | ⟨-, -, he, hitem⟩
    · exact Or.inl ⟨p, by simpa [he] using hi, by simpa [he] using hr⟩
    · by_cases hp : p = s.table.next
      · subst hp
        simp [he, LockEntry.Holds, LockEntry.new] at hr
      · exact Or.inl ⟨p, by simpa [hitem, hp] using hi, by simpa [he, hp] using hr⟩
  | push c =>
    obtain ⟨call, hc, -, rfl⟩ := step_push hs.2
    refine Or.inl ⟨p, hi, ?_⟩
    by_cases hp : p = call.entry
    · subst hp
      simpa [LockEntry.Holds, LockEntry.push] using hr
    · simpa [hp] using hr
  | evaluate c =>
    obtain ⟨call, hc, hphase, ⟨rfl, -⟩ | ⟨e, he, rfl⟩⟩ := step_evaluate hs.2
    · exact Or.inl ⟨p, hi, hr⟩
    · by_cases hp : p = call.entry
      · subst hp
        simp only [setCall_table, setEntry_table, table_setEntry_entry,
          Function.update_self] at hr
        obtain ⟨pre, r, post, hl, ⟨hb, -⟩ | ⟨-, -, -, hl', -⟩⟩ := LockEntry.evaluate_eq_some he
        · simp at hb
        · unfold LockEntry.Holds at hr
          rw [hl', List.mem_append, List.mem_cons] at hr
          rcases hr with hr | hr | hr
          · exact Or.inl ⟨_, hi, by simp [LockEntry.Holds, hl, hr]⟩
          · obtain ⟨rfl, rfl, -⟩ := Record.mk.inj hr
            have hci := (h.consistent.table _ _ (h.consistent.calls c call hc)).2.1
            exact Or.inr ⟨c, call, rfl, hc, hphase, by simp, rfl, hci.symm.trans hi, rfl⟩
          · exact Or.inl ⟨_, hi, by simp [LockEntry.Holds, hl, hr]⟩
      · exact Or.inl ⟨p, hi, by simpa [hp] using hr⟩
  | search c txnId' item' =>
    obtain ⟨-, q, -, rfl⟩ := step_search hs.2
    exact Or.inl ⟨p, hi, hr⟩
  | delete c =>
    obtain ⟨call, hc, -, rfl⟩ := step_delete hs.2
    refine Or.inl ⟨p, hi, ?_⟩
    by_cases hp : p = call.entry
    · subst hp
      simp only [setCall_table, setEntry_table, table_setEntry_entry, Function.update_self] at hr
      exact (LockQueue.holds_release.mp hr).1
    · simpa [hp] using hr
  | finish c =>
    obtain ⟨call, -, -, -, he, hitem⟩ := step_finish hs.2
    exact Or.inl ⟨p, by rwa [hitem] at hi, by rwa [he] at hr⟩

/-- A granted record is deleted only by an `unlock` of its transaction. -/
theorem holds_step (h : Orderly s) (hs : Guarded OneAtATime step s a t)
    (hh : s.Holds txnId item mode) : t.Holds txnId item mode ∨
      ∃ c call, a = .delete c ∧ s.calls c = some call ∧ call.phase = .searched ∧
        call.txnId = txnId := by
  obtain ⟨p, hi, hr⟩ := h.holds_iff.mp hh
  rw [(orderly_step _ _ _ hs h).holds_iff]
  cases a with
  | add c txnId' mode' item' raw =>
    obtain ⟨hc, rfl⟩ := step_add hs.2
    rcases add_entry s.table item' raw with ⟨-, he⟩ | ⟨-, -, he, hitem⟩
    · exact Or.inl ⟨p, by simpa [he] using hi, by simpa [he] using hr⟩
    · have hlt := (h.consistent.table _ _ (h.consistent.records p (List.ne_nil_of_mem hr))).2.2
      have hp : p ≠ s.table.next := by omega
      exact Or.inl ⟨p, by simpa [hitem, hp] using hi, by simpa [he, hp] using hr⟩
  | push c =>
    obtain ⟨call, hc, -, rfl⟩ := step_push hs.2
    refine Or.inl ⟨p, hi, ?_⟩
    by_cases hp : p = call.entry
    · subst hp
      simpa [LockEntry.Holds, LockEntry.push] using hr
    · simpa [hp] using hr
  | evaluate c =>
    obtain ⟨call, hc, hphase, ⟨rfl, -⟩ | ⟨e, he, rfl⟩⟩ := step_evaluate hs.2
    · exact Or.inl ⟨p, hi, hr⟩
    · refine Or.inl ⟨p, hi, ?_⟩
      by_cases hp : p = call.entry
      · subst hp
        -- the record that is granted was waiting
        have hw := h.waiting hc hphase
        obtain ⟨q, hd, hq⟩ := h.disciplined call.entry
        obtain ⟨pre, r, post, hl, ⟨hb, -⟩ | ⟨-, hid, -, hl', -⟩⟩ :=
          LockEntry.evaluate_eq_some he
        · simp at hb
        · rw [← hq.entry] at hw hl
          obtain rfl := hd.unique (by simp [hl]) hw hid
          unfold LockEntry.Holds at hr ⊢
          rw [← hq.entry, hl, List.mem_append, List.mem_cons] at hr
          simp only [setCall_table, setEntry_table, table_setEntry_entry, Function.update_self,
            hl', List.mem_append, List.mem_cons]
          rcases hr with hr | hr | hr
          · exact Or.inl hr
          · simp at hr
          · exact Or.inr (Or.inr hr)
      · simpa [hp] using hr
  | search c txnId' item' =>
    obtain ⟨-, q, -, rfl⟩ := step_search hs.2
    exact Or.inl ⟨p, hi, hr⟩
  | delete c =>
    obtain ⟨call, hc, hphase, rfl⟩ := step_delete hs.2
    by_cases hid : call.txnId = txnId
    · exact Or.inr ⟨c, call, rfl, hc, hphase, hid⟩
    · refine Or.inl ⟨p, hi, ?_⟩
      by_cases hp : p = call.entry
      · subst hp
        simp only [setCall_table, setEntry_table, table_setEntry_entry, Function.update_self]
        exact LockQueue.holds_release.mpr ⟨hr, fun he => hid he.1.symm⟩
      · simpa [hp] using hr
  | finish c =>
    obtain ⟨call, -, -, -, he, hitem⟩ := step_finish hs.2
    exact Or.inl ⟨p, by rwa [hitem], by rwa [he]⟩

end LockSystem

end AlphaDb.Transaction
