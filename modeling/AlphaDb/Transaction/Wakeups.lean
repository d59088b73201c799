import AlphaDb.Transaction.TableQueues

/-! The condition variables of the lock manager. A call whose predicate does not hold sleeps until
it is notified: no wake-up is lost, and transactions that lock in one order never deadlock. -/
namespace AlphaDb.Transaction

open Trace

namespace LockEntry

variable {e e' : LockEntry} {txnId txnId' : TxnId} {mode mode' : LockMode} {b : Bool}

/-- The wait predicate of a request holds. -/
def Ready (e : LockEntry) (txnId : TxnId) (mode : LockMode) : Prop :=
  (e.evaluate txnId mode).map Prod.fst = some true

instance : Decidable (e.Ready txnId mode) :=
  inferInstanceAs (Decidable (Option.map Prod.fst (e.evaluate txnId mode) = some true))

theorem evaluate_fst (h : e.waitList = e'.waitList) :
    (e.evaluate txnId mode).map Prod.fst = (e'.evaluate txnId mode).map Prod.fst := by
  unfold evaluate
  rw [h]
  by_cases hm : mode = .exclusive
  · rw [if_pos hm, if_pos hm]
    cases e'.waitList with
    | nil => rfl
    | cons head rest => by_cases hh : head.txnId = txnId <;> simp [hh]
  · rw [if_neg hm, if_neg hm, Option.map_map, Option.map_map]
    rfl

/-- The predicate reads nothing of an entry but its list. -/
theorem ready_congr (h : e.waitList = e'.waitList) :
    e.Ready txnId mode ↔ e'.Ready txnId mode := by
  unfold Ready
  rw [evaluate_fst h]

theorem ready_iff : e.Ready txnId mode ↔ ∃ e', e.evaluate txnId mode = some (true, e') := by
  simp [Ready, Option.map_eq_some_iff]

theorem scan_append {sh gr : Bool} {l l' : List Record} (h : ∃ r ∈ l, r.txnId = txnId) :
    scan txnId mode sh gr (l ++ l') =
      (scan txnId mode sh gr l).map fun x => (x.1, x.2 ++ l') := by
  induction l generalizing sh gr with
  | nil => simp at h
  | cons r rest ih =>
    rw [List.cons_append, scan, scan]
    by_cases hr : r.txnId = txnId
    · rw [if_pos hr, if_pos hr]
      split <;> rfl
    · have hrest : ∃ r ∈ rest, r.txnId = txnId := by simpa [hr] using h
      rw [if_neg hr, if_neg hr, ih hrest, Option.map_map, Option.map_map]
      rfl

/-- A request that comes later makes no difference. -/
theorem ready_push (h : ∃ r ∈ e.waitList, r.txnId = txnId) :
    (e.push txnId' mode').Ready txnId mode ↔ e.Ready txnId mode := by
  unfold Ready evaluate
  by_cases hm : mode = .exclusive
  · rw [if_pos hm, if_pos hm]
    cases hl : e.waitList with
    | nil => simp [hl] at h
    | cons head rest => by_cases hh : head.txnId = txnId <;> simp [push, hl, hh]
  · rw [if_neg hm, if_neg hm, push, scan_append h, Option.map_map, Option.map_map, Option.map_map]
    rfl

/-- Behind an exclusive record nobody else is ready. -/
theorem not_ready_of_exclusive_head {r : Record} {rest : List Record}
    (hl : e.waitList = r :: rest) (hr : r.mode = .exclusive) (hne : r.txnId ≠ txnId) :
    ¬ e.Ready txnId mode := by
  unfold Ready evaluate
  by_cases hm : mode = .exclusive
  · simp [hm, hl, hne]
  · rw [if_neg hm, hl, scan, if_neg hne]
    cases hs : scan txnId mode (true && r.mode = .shared) (true && r.status = .granted) rest with
    | none => simp
    | some x =>
      obtain ⟨b, l⟩ := x
      obtain ⟨_, _, _, -, -, -, ⟨rfl, -⟩ | ⟨-, hsh, -⟩⟩ := scan_eq_some hs
      · simp
      · simp [hr] at hsh

/-- A grant to another transaction makes a request ready only if it is a shared one. -/
theorem ready_of_grant (hg : e.evaluate txnId' .exclusive = some (true, e'))
    (hne : txnId' ≠ txnId) : ¬ e'.Ready txnId mode := by
  obtain ⟨pre, r, post, -, ⟨hb, -⟩ | ⟨-, -, -, hl', hcase⟩⟩ := evaluate_eq_some hg
  · simp at hb
  · rcases hcase with ⟨-, rfl, -⟩ | ⟨hne', -⟩
    · exact not_ready_of_exclusive_head hl' rfl hne
    · exact absurd rfl hne'

/-- A release that does not notify deletes nothing, unless it goes by the count. -/
theorem release_silent (hm : e.currentLockMode ≠ .shared)
    (hmodes : ∀ r ∈ e.waitList, r.mode ≠ .none)
    (hs : (e.release txnId).1 = false) : (e.release txnId).2.waitList = e.waitList := by
  rw [release_waitList]
  have hnone : e.currentLockMode = .none := by
    cases hc : e.currentLockMode with
    | none => rfl
    | shared => exact absurd hc hm
    | exclusive => simp [release, hc] at hs
  apply List.filter_eq_self.mpr
  intro r hr
  rw [decide_eq_true_eq, hnone]
  rintro rfl
  exact hmodes _ hr rfl

end LockEntry

/-- The lock manager with its condition variables: which waiting calls sleep, and which calls of
`unlock` have yet to notify. -/
structure WakeSystem (n : ℕ) where
  locks : LockSystem n
  asleep : Fin n → Bool
  toNotify : Fin n → Bool

/-- A critical section of a call, the `notify_all` of an `unlock`, and a wake-up that nobody asked
for. -/
inductive WakeStep (n : ℕ)
  | lock (a : LockStep n)
  | notify (c : Fin n)
  | spurious (c : Fin n)

namespace WakeSystem

variable {n : ℕ} {s t : WakeSystem n} {l : LockSystem n} {a : WakeStep n} {c c' : Fin n}
  {call : Call} {p : ℕ} {txnId : TxnId} {mode : LockMode} {item : DataItem}

def init : WakeSystem n := ⟨.init, fun _ => false, fun _ => false⟩

/-- `notify_all` on the condition variable of an entry. -/
def wake (s : WakeSystem n) (p : ℕ) : Fin n → Bool :=
  fun c => s.asleep c && (s.locks.calls c).all fun call => call.entry ≠ p

/-- A call evaluates its predicate when it is awake, and sleeps if it does not hold; a shared
request that is granted notifies. `unlock` looks at the list only after its notification. -/
def step (s : WakeSystem n) : WakeStep n → Option (WakeSystem n)
  | .lock (.evaluate c) =>
    if s.asleep c then none
    else
      (s.locks.inPhase c .waiting).bind fun call =>
        (s.locks.step (.evaluate c)).map fun l =>
          if (l.calls c).isSome then
            { s with locks := l, asleep := Function.update s.asleep c true }
          else
            { s with
              locks := l
              asleep := if call.mode = .shared then s.wake call.entry else s.asleep }
  | .lock (.delete c) =>
    (s.locks.inPhase c .searched).bind fun call =>
      (s.locks.step (.delete c)).map fun l =>
        { s with
          locks := l
          toNotify := Function.update s.toNotify c
            ((s.locks.table.entry call.entry).release call.txnId).1 }
  | .lock (.finish c) =>
    if s.toNotify c then none
    else (s.locks.step (.finish c)).map fun l => { s with locks := l }
  | .lock a => (s.locks.step a).map fun l => { s with locks := l }
  | .notify c =>
    if s.toNotify c then
      (s.locks.inPhase c .deleted).map fun call =>
        { s with asleep := s.wake call.entry, toNotify := Function.update s.toNotify c false }
    else none
  | .spurious c => some { s with asleep := Function.update s.asleep c false }

/-- Clients as before; the memory of a new entry does not read as a shared mode. -/
def Rules (s : WakeSystem n) : WakeStep n → Prop
  | .lock (.add c txnId mode item raw) =>
    s.locks.OneAtATime (.add c txnId mode item raw) ∧ raw.1 ≠ .shared
  | .lock a => s.locks.OneAtATime a
  | _ => True

instance : ∀ (s : WakeSystem n) (a : WakeStep n), Decidable (s.Rules a)
  | _, .lock (.add ..) => inferInstanceAs (Decidable (_ ∧ _))
  | s, .lock (.push c) => inferInstanceAs (Decidable (s.locks.OneAtATime (.push c)))
  | s, .lock (.evaluate c) => inferInstanceAs (Decidable (s.locks.OneAtATime (.evaluate c)))
  | s, .lock (.search c txnId item) =>
    inferInstanceAs (Decidable (s.locks.OneAtATime (.search c txnId item)))
  | s, .lock (.delete c) => inferInstanceAs (Decidable (s.locks.OneAtATime (.delete c)))
  | s, .lock (.finish c) => inferInstanceAs (Decidable (s.locks.OneAtATime (.finish c)))
  | _, .notify _ | _, .spurious _ => inferInstanceAs (Decidable True)

theorem Rules.oneAtATime {a : LockStep n} (h : s.Rules (.lock a)) : s.locks.OneAtATime a := by
  cases a with
  | add => exact h.1
  | push | evaluate | search | delete | finish => exact h

/-- What holds in every run: whoever sleeps although its predicate holds is about to be notified. -/
structure Watched (s : WakeSystem n) : Prop where
  orderly : s.locks.Orderly
  notShared : ∀ p, (s.locks.table.entry p).currentLockMode ≠ .shared
  sleeps : ∀ c, s.asleep c = true → ∃ call, s.locks.calls c = some call ∧ call.phase = .waiting
  pending : ∀ c, s.toNotify c = true → ∃ call, s.locks.calls c = some call ∧ call.phase = .deleted
  noLost : ∀ c call, s.asleep c = true → s.locks.calls c = some call →
    (s.locks.table.entry call.entry).Ready call.txnId call.mode →
    ∃ c' call', s.toNotify c' = true ∧ s.locks.calls c' = some call' ∧ call'.entry = call.entry

theorem watched_init : Watched (init : WakeSystem n) := by
  refine ⟨LockSystem.orderly_init, ?_, ?_, ?_, ?_⟩ <;>
    simp [init, LockSystem.init, LockEntry.new]

/-- An evaluation of an awake call: it falls asleep, or its request is granted. -/
theorem step_evaluate (h : step s (.lock (.evaluate c)) = some t) : ∃ call,
    s.asleep c = false ∧ s.locks.calls c = some call ∧ call.phase = .waiting ∧
    ((¬ (s.locks.table.entry call.entry).Ready call.txnId call.mode ∧
        t = { s with asleep := Function.update s.asleep c true }) ∨
      ∃ e, (s.locks.table.entry call.entry).evaluate call.txnId call.mode = some (true, e) ∧
        t = { s with
          locks := (s.locks.setEntry call.entry e).setCall c none
          asleep := if call.mode = .shared then s.wake call.entry else s.asleep }) := by
  simp only [step] at h
  split at h
  · simp at h
  · next hawake =>
    obtain ⟨call, hc, h⟩ := Option.bind_eq_some_iff.mp h
    obtain ⟨hc, hp⟩ := LockSystem.inPhase_eq_some.mp hc
    obtain ⟨l, hl, rfl⟩ := Option.map_eq_some_iff.mp h
    refine ⟨call, by simpa using hawake, hc, hp, ?_⟩
    obtain ⟨call', hc', -, hcase⟩ := LockSystem.step_evaluate hl
    obtain rfl := Option.some.inj (hc.symm.trans hc')
    rcases hcase with ⟨rfl, he⟩ | ⟨e, he, rfl⟩
    · left
      simp [LockEntry.Ready, he, hc]
    · right
      exact ⟨e, he, by simp⟩

theorem step_delete (h : step s (.lock (.delete c)) = some t) : ∃ call,
    s.locks.calls c = some call ∧ call.phase = .searched ∧
    t = { s with
      locks := (s.locks.setEntry call.entry
        ((s.locks.table.entry call.entry).release call.txnId).2).setCall c
          (some { call with phase := .deleted })
      toNotify := Function.update s.toNotify c
        ((s.locks.table.entry call.entry).release call.txnId).1 } := by
  obtain ⟨call, hc, h⟩ := Option.bind_eq_some_iff.mp h
  obtain ⟨hc, hp⟩ := LockSystem.inPhase_eq_some.mp hc
  obtain ⟨l, hl, rfl⟩ := Option.map_eq_some_iff.mp h
  obtain ⟨call', hc', -, rfl⟩ := LockSystem.step_delete hl
  obtain rfl := Option.some.inj (hc.symm.trans hc')
  exact ⟨call, hc, hp, rfl⟩

theorem step_finish (h : step s (.lock (.finish c)) = some t) : s.toNotify c = false ∧
    ∃ l, s.locks.step (.finish c) = some l ∧ t = { s with locks := l } := by
  simp only [step] at h
  split at h
  · simp at h
  · next hn =>
    obtain ⟨l, hl, rfl⟩ := Option.map_eq_some_iff.mp h
    exact ⟨by simpa using hn, l, hl, rfl⟩

theorem step_notify (h : step s (.notify c) = some t) : ∃ call,
    s.locks.calls c = some call ∧
    t = { s with asleep := s.wake call.entry, toNotify := Function.update s.toNotify c false } := by
  simp only [step] at h
  split at h
  · obtain ⟨call, hc, rfl⟩ := Option.map_eq_some_iff.mp h
    exact ⟨call, (LockSystem.inPhase_eq_some.mp hc).1, rfl⟩
  · simp at h

theorem wake_eq_true (hw : s.wake p c = true) : s.asleep c = true ∧
    ∀ call, s.locks.calls c = some call → call.entry ≠ p := by
  rw [wake, Bool.and_eq_true, Option.all_eq_true] at hw
  exact ⟨hw.1, fun call hc => by simpa using hw.2 call hc⟩

/-- The steps on the locks are those of the lock manager. -/
theorem step_locks {a : LockStep n} (h : step s (.lock a) = some t) :
    s.locks.step a = some t.locks := by
  cases a with
  | evaluate c =>
    simp only [step] at h
    split at h
    · simp at h
    · obtain ⟨_, -, h⟩ := Option.bind_eq_some_iff.mp h
      obtain ⟨l, hl, rfl⟩ := Option.map_eq_some_iff.mp h
      exact hl.trans (congrArg some (by split <;> rfl))
  | delete c =>
    obtain ⟨_, -, h⟩ := Option.bind_eq_some_iff.mp h
    obtain ⟨l, hl, rfl⟩ := Option.map_eq_some_iff.mp h
    exact hl
  | finish c =>
    obtain ⟨-, l, hl, rfl⟩ := step_finish h
    exact hl
  | add | push | search =>
    obtain ⟨l, hl, rfl⟩ := Option.map_eq_some_iff.mp h
    exact hl

theorem orderly_step (h : s.locks.Orderly) (hr : s.Rules a) (hs : step s a = some t) :
    t.locks.Orderly := by
  cases a with
  | lock a => exact LockSystem.orderly_step _ _ _ ⟨hr.oneAtATime, step_locks hs⟩ h
  | notify c =>
    obtain ⟨call, -, rfl⟩ := step_notify hs
    exact h
  | spurious c =>
    obtain rfl := Option.some.inj hs
    exact h

/-- No step sets the mode of an entry to shared. -/
theorem notShared_step (h : Watched s) (hr : s.Rules a) (hs : step s a = some t) (p : ℕ) :
    (t.locks.table.entry p).currentLockMode ≠ .shared := by
  have hframe : ∀ q e, e.currentLockMode ≠ .shared →
      (Function.update s.locks.table.entry q e p).currentLockMode ≠ .shared := by
    intro q e he
    by_cases hp : p = q
    · subst hp
      rwa [Function.update_self]
    · rw [Function.update_of_ne hp]
      exact h.notShared p
  cases a with
  | notify c =>
    obtain ⟨call, -, rfl⟩ := step_notify hs
    exact h.notShared p
  | spurious c =>
    obtain rfl := Option.some.inj hs
    exact h.notShared p
  | lock a =>
    have hl := step_locks hs
    generalize t.locks = l at hl ⊢
    cases a with
    | add c txnId mode item raw =>
      obtain ⟨-, rfl⟩ := LockSystem.step_add hl
      rcases LockSystem.add_entry s.locks.table item raw with
        ⟨-, he⟩ | ⟨-, -, he, -⟩
      · rw [LockSystem.setCall_table, he]
        exact h.notShared p
      · rw [LockSystem.setCall_table, he]
        exact hframe _ _ hr.2
    | push c =>
      obtain ⟨call, -, -, rfl⟩ := LockSystem.step_push hl
      exact hframe _ _ (h.notShared call.entry)
    | evaluate c =>
      obtain ⟨call, -, -, ⟨rfl, -⟩ | ⟨e, he, rfl⟩⟩ := LockSystem.step_evaluate hl
      · exact h.notShared p
      · refine hframe _ _ ?_
        obtain ⟨_, _, _, -, ⟨hb, -⟩ | ⟨-, -, -, -, hcase⟩⟩ := LockEntry.evaluate_eq_some he
        · simp at hb
        · rcases hcase with ⟨-, -, hm, -⟩ | ⟨-, -, hm, -⟩
          · simp [hm]
          · rw [hm]
            exact h.notShared call.entry
    | search c txnId item =>
      obtain ⟨-, _, -, rfl⟩ := LockSystem.step_search hl
      exact h.notShared p
    | delete c =>
      obtain ⟨call, -, -, rfl⟩ := LockSystem.step_delete hl
      refine hframe _ _ ?_
      rw [(LockQueue.release_of_ne (h.notShared call.entry)).1]
      simp
    | finish c =>
      obtain ⟨call, -, -, -, he, -⟩ := LockSystem.step_finish hl
      rw [he]
      exact h.notShared p

theorem Watched.awake (h : Watched s) (hc : s.locks.calls c = some call)
    (hp : call.phase ≠ .waiting) : s.asleep c = false := by
  rw [← Bool.not_eq_true]
  intro ha
  obtain ⟨x, hx, hw⟩ := h.sleeps c ha
  obtain rfl := Option.some.inj (hc.symm.trans hx)
  exact hp hw

theorem Watched.awake_of_none (h : Watched s) (hc : s.locks.calls c = none) :
    s.asleep c = false := by
  rw [← Bool.not_eq_true]
  intro ha
  obtain ⟨x, hx, -⟩ := h.sleeps c ha
  simp [hc] at hx

theorem Watched.notified (h : Watched s) (hc : s.locks.calls c = some call)
    (hp : call.phase ≠ .deleted) : s.toNotify c = false := by
  rw [← Bool.not_eq_true]
  intro ha
  obtain ⟨x, hx, hw⟩ := h.pending c ha
  obtain rfl := Option.some.inj (hc.symm.trans hx)
  exact hp hw

theorem Watched.notified_of_none (h : Watched s) (hc : s.locks.calls c = none) :
    s.toNotify c = false := by
  rw [← Bool.not_eq_true]
  intro ha
  obtain ⟨x, hx, -⟩ := h.pending c ha
  simp [hc] at hx

/-- A step in which nobody falls asleep or is to notify keeps what is known of the sleepers, if
none of them becomes ready in it. -/
theorem Watched.frame (h : Watched s) (horderly : t.locks.Orderly)
    (hshared : ∀ p, (t.locks.table.entry p).currentLockMode ≠ .shared)
    (hasleep : ∀ c, t.asleep c = true → s.asleep c = true ∧ t.locks.calls c = s.locks.calls c)
    (hnotify : ∀ c, t.toNotify c = s.toNotify c)
    (hcalls : ∀ c, s.toNotify c = true → t.locks.calls c = s.locks.calls c)
    (hready : ∀ c call, t.asleep c = true → s.locks.calls c = some call →
      (t.locks.table.entry call.entry).Ready call.txnId call.mode →
      (s.locks.table.entry call.entry).Ready call.txnId call.mode) : Watched t := by
  refine ⟨horderly, hshared, ?_, ?_, ?_⟩
  · intro c hc
    obtain ⟨hs, he⟩ := hasleep c hc
    rw [he]
    exact h.sleeps c hs
  · intro c hc
    rw [hnotify] at hc
    rw [hcalls c hc]
    exact h.pending c hc
  · intro c call hc hcall hr
    obtain ⟨hs, he⟩ := hasleep c hc
    rw [he] at hcall
    obtain ⟨c', call', hn, hc', hentry⟩ := h.noLost c call hs hcall (hready c call hc hcall hr)
    exact ⟨c', call', by rwa [hnotify], by rwa [hcalls c' hn], hentry⟩

/-- A step of a call that neither sleeps nor notifies. -/
theorem Watched.frame_call (h : Watched s) {x : Option Call} (horderly : l.Orderly)
    (hshared : ∀ p, (l.table.entry p).currentLockMode ≠ .shared)
    (hcalls : l.calls = Function.update s.locks.calls c x) (ha : s.asleep c = false)
    (hn : s.toNotify c = false)
    (hready : ∀ c call, s.asleep c = true → s.locks.calls c = some call →
      (l.table.entry call.entry).Ready call.txnId call.mode →
      (s.locks.table.entry call.entry).Ready call.txnId call.mode) :
    Watched { s with locks := l } := by
  have hkeep : ∀ c', c' ≠ c → l.calls c' = s.locks.calls c' := by
    intro c' hne
    rw [hcalls, Function.update_of_ne hne]
  refine h.frame horderly hshared ?_ (fun _ => rfl) ?_ hready
  · intro c' ha'
    refine ⟨ha', hkeep c' ?_⟩
    rintro rfl
    exact absurd ha' (by simp [ha])
  · intro c' hn'
    refine hkeep c' ?_
    rintro rfl
    exact absurd hn' (by simp [hn])

theorem watched_evaluate (h : Watched s) (hr : s.Rules (.lock (.evaluate c)))
    (hs : step s (.lock (.evaluate c)) = some t) : Watched t := by
  have ho := orderly_step h.orderly hr hs
  have hshared := notShared_step h hr hs
  obtain ⟨call, -, hc, hp, ⟨hnot, rfl⟩ | ⟨e, he, rfl⟩⟩ := step_evaluate hs
  · refine ⟨h.orderly, h.notShared, ?_, h.pending, ?_⟩
    · intro c' ha
      by_cases hcc : c' = c
      · subst hcc
        exact ⟨call, hc, hp⟩
      · exact h.sleeps c' (by simpa [hcc] using ha)
    · intro c' call' ha hc' hready
      by_cases hcc : c' = c
      · subst hcc
        obtain rfl := Option.some.inj (hc.symm.trans hc')
        exact absurd hready hnot
      · exact h.noLost c' call' (by simpa [hcc] using ha) hc' hready
  · -- the call was awake, and its request was not of mode none
    have hn := h.notified hc (by simp [hp])
    have hkeep : ∀ c', c' ≠ c →
        Function.update s.locks.calls c none c' = s.locks.calls c' :=
      fun c' hne => Function.update_of_ne hne ..
    have hmode := h.orderly.mode_ne_none hc hp
    have hold : ∀ c', (if call.mode = .shared then s.wake call.entry else s.asleep) c' = true →
        s.asleep c' = true := by
      intro c' ha
      split at ha
      · exact (wake_eq_true ha).1
      · exact ha
    have hne : ∀ c', (if call.mode = .shared then s.wake call.entry else s.asleep) c' = true →
        c' ≠ c := by
      rintro c' ha rfl
      simp only [step, hold c' ha] at hs
      simp at hs
    refine h.frame ho hshared (fun c' ha => ⟨hold c' ha, hkeep c' (hne c' ha)⟩) (fun _ => rfl)
      ?_ ?_
    · intro c' hn'
      refine hkeep c' ?_
      rintro rfl
      simp [hn] at hn'
    · intro c' call' ha hc' hready
      by_cases hpe : call'.entry = call.entry
      · exfalso
        cases hm : call.mode with
        | none => exact hmode hm
        | shared =>
          rw [hm, if_pos rfl] at ha
          exact (wake_eq_true ha).2 call' hc' hpe
        | exclusive =>
          have hid : call.txnId ≠ call'.txnId :=
            fun hid => hne c' ha (h.orderly.one c' c call' call hc' hc hid.symm)
          rw [hm] at he
          have hnot : ¬ LockEntry.Ready _ call'.txnId call'.mode :=
            LockEntry.ready_of_grant he hid
          exact hnot (by simpa [hpe] using hready)
      · simpa [hpe] using hready

theorem watched_delete (h : Watched s) (hr : s.Rules (.lock (.delete c)))
    (hs : step s (.lock (.delete c)) = some t) : Watched t := by
  have ho := orderly_step h.orderly hr hs
  have hshared := notShared_step h hr hs
  obtain ⟨call, hc, hp, rfl⟩ := step_delete hs
  have hawake := h.awake hc (by simp [hp])
  have hn := h.notified hc (by simp [hp])
  refine ⟨ho, hshared, ?_, ?_, ?_⟩
  · intro c' ha
    have hcc : c' ≠ c := by
      rintro rfl
      simp [hawake] at ha
    simpa [hcc] using h.sleeps c' ha
  · intro c' ha
    by_cases hcc : c' = c
    · subst hcc
      exact ⟨{ call with phase := .deleted }, by simp, rfl⟩
    · simpa [hcc] using h.pending c' (by simpa [hcc] using ha)
  · intro c' call' ha hc' hready
    have hcc : c' ≠ c := by
      rintro rfl
      simp [hawake] at ha
    have hc' : s.locks.calls c' = some call' := by simpa [hcc] using hc'
    by_cases hsilent : call'.entry = call.entry ∧
        ((s.locks.table.entry call.entry).release call.txnId).1 = true
    · exact ⟨c, { call with phase := .deleted }, by simp [hsilent.2], by simp, hsilent.1.symm⟩
    · -- the entry has lost no record
      have hready : (s.locks.table.entry call'.entry).Ready call'.txnId call'.mode := by
        by_cases hpe : call'.entry = call.entry
        · have hfalse : ((s.locks.table.entry call.entry).release call.txnId).1 = false := by
            simpa [hpe] using hsilent
          rw [hpe] at hready ⊢
          simp only [LockSystem.setCall_table, LockSystem.setEntry_table,
            LockSystem.table_setEntry_entry, Function.update_self] at hready
          exact (LockEntry.ready_congr (LockEntry.release_silent (h.notShared _)
            (h.orderly.modes _) hfalse)).mp hready
        · simpa [hpe] using hready
      obtain ⟨d, call'', hd, hcd, he⟩ := h.noLost c' call' ha hc' hready
      have hdc : d ≠ c := by
        rintro rfl
        simp [hn] at hd
      exact ⟨d, call'', by simpa [hdc] using hd, by simpa [hdc] using hcd, he⟩

theorem watched_step : TrInv (Guarded Rules step) (Watched : WakeSystem n → Prop) := by
  rintro s a t ⟨hr, hs⟩ h
  have ho := orderly_step h.orderly hr hs
  have hshared := notShared_step h hr hs
  cases a with
  | spurious c =>
    obtain rfl := Option.some.inj hs
    refine h.frame ho hshared ?_ (fun _ => rfl) (fun _ _ => rfl) fun _ _ _ _ hready => hready
    intro c' ha
    by_cases hcc : c' = c
    · subst hcc
      simp at ha
    · exact ⟨by simpa [hcc] using ha, rfl⟩
  | notify c =>
    obtain ⟨call, hc, rfl⟩ := step_notify hs
    refine ⟨ho, hshared, fun c' ha => h.sleeps c' (wake_eq_true ha).1, ?_, ?_⟩
    · intro c' ha
      by_cases hcc : c' = c
      · subst hcc
        simp at ha
      · exact h.pending c' (by simpa [hcc] using ha)
    · intro c' call' ha hc' hready
      obtain ⟨ha, hentry⟩ := wake_eq_true ha
      obtain ⟨d, call'', hd, hcd, he⟩ := h.noLost c' call' ha hc' hready
      have hdc : d ≠ c := by
        rintro rfl
        obtain rfl := Option.some.inj (hc.symm.trans hcd)
        exact hentry call' hc' he.symm
      exact ⟨d, call'', by simpa [hdc] using hd, hcd, he⟩
  | lock a =>
    cases a with
    | evaluate c => exact watched_evaluate h hr hs
    | delete c => exact watched_delete h hr hs
    | add c txnId mode item raw =>
      obtain ⟨l, hl, rfl⟩ := Option.map_eq_some_iff.mp hs
      obtain ⟨hc, rfl⟩ := LockSystem.step_add hl
      refine h.frame_call ho hshared rfl (h.awake_of_none hc) (h.notified_of_none hc) ?_
      intro c' call' _ hc' hready
      rcases LockSystem.add_entry s.locks.table item raw with
        ⟨-, he⟩ | ⟨-, -, he, -⟩
      · simpa [he] using hready
      · -- the call waits in an entry that was there before
        have hcall := h.orderly.consistent.calls c' call' hc'
        have hlt := (h.orderly.consistent.table _ _ hcall).2.2
        have hne : call'.entry ≠ s.locks.table.next := by omega
        simpa [he, hne] using hready
    | push c =>
      obtain ⟨l, hl, rfl⟩ := Option.map_eq_some_iff.mp hs
      obtain ⟨call, hc, hp, rfl⟩ := LockSystem.step_push hl
      refine h.frame_call ho hshared rfl (h.awake hc (by simp [hp]))
        (h.notified hc (by simp [hp])) ?_
      intro c' call' ha hc' hready
      by_cases hpe : call'.entry = call.entry
      · obtain ⟨x, hx, hw⟩ := h.sleeps c' ha
        obtain rfl := Option.some.inj (hc'.symm.trans hx)
        have hmem := h.orderly.waiting hc' hw
        rw [hpe] at hmem hready ⊢
        simp only [LockSystem.setCall_table, LockSystem.setEntry_table,
          LockSystem.table_setEntry_entry, Function.update_self] at hready
        exact (LockEntry.ready_push ⟨_, hmem, rfl⟩).mp hready
      · simpa [hpe] using hready
    | search c txnId item =>
      obtain ⟨l, hl, rfl⟩ := Option.map_eq_some_iff.mp hs
      obtain ⟨hc, _, -, rfl⟩ := LockSystem.step_search hl
      exact h.frame_call ho hshared rfl (h.awake_of_none hc) (h.notified_of_none hc)
        fun _ _ _ _ hready => hready
    | finish c =>
      obtain ⟨hn, l, hl, rfl⟩ := step_finish hs
      obtain ⟨call, hc, hp, hcalls, he, -⟩ := LockSystem.step_finish hl
      refine h.frame_call ho hshared hcalls (h.awake hc (by simp [hp])) hn ?_
      intro c' call' _ _ hready
      rwa [he] at hready

end WakeSystem

end AlphaDb.Transaction
