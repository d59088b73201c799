import AlphaDb.Transaction.Wakeups

/-! Transactions that lock exclusively, and every next item above those they have: whatever the
order of their calls, they never block each other for good. -/
namespace AlphaDb.Transaction

open Trace

namespace LockSystem

variable {n : ℕ} {s t : LockSystem n} {a : LockStep n} {c : Fin n} {call : Call} {p : ℕ}
  {txnId : TxnId} {mode : LockMode} {item : DataItem} {r : Record}

/-- A transaction requests items exclusively, each above those that it has a record on, and unlocks
what it holds; a new entry is unlocked. -/
def InOrder (s : LockSystem n) : LockStep n → Prop
  | .add c txnId mode item raw =>
    s.OneAtATime (.add c txnId mode item raw) ∧ mode = .exclusive ∧ raw = (.none, 0) ∧
      ∀ p < s.table.next, ∀ r ∈ (s.table.entry p).waitList, r.txnId = txnId →
        s.table.item p < item
  | .search c txnId item =>
    s.OneAtATime (.search c txnId item) ∧ s.Holds txnId item .exclusive
  | a => s.OneAtATime a

instance : ∀ (s : LockSystem n) (a : LockStep n), Decidable (s.InOrder a)
  | _, .add .. => inferInstanceAs (Decidable (_ ∧ _))
  | _, .search .. => inferInstanceAs (Decidable (_ ∧ _))
  | s, .push c => inferInstanceAs (Decidable (s.OneAtATime (.push c)))
  | s, .evaluate c => inferInstanceAs (Decidable (s.OneAtATime (.evaluate c)))
  | s, .delete c => inferInstanceAs (Decidable (s.OneAtATime (.delete c)))
  | s, .finish c => inferInstanceAs (Decidable (s.OneAtATime (.finish c)))

theorem InOrder.oneAtATime (h : s.InOrder a) : s.OneAtATime a := by
  cases a with
  | add | search => exact h.1
  | push | evaluate | delete | finish => exact h

/-- What holds in every run of such clients. A transaction that requests an item has all its other
records below it; one that unlocks still holds the item. -/
structure Ranked (s : LockSystem n) : Prop where
  orderly : s.Orderly
  queues : ∀ p, RunsAsQueue (· = (.none, 0)) LockQueue.UnlocksGranted s p
  exclusive : ∀ p, ∀ r ∈ (s.table.entry p).waitList, r.mode = .exclusive
  requests : ∀ c call, s.calls c = some call → call.phase = .added ∨ call.phase = .waiting →
    call.mode = .exclusive ∧ ∀ p, ∀ r ∈ (s.table.entry p).waitList, r.txnId = call.txnId →
      p = call.entry ∨ s.table.item p < call.item
  unlocks : ∀ c call, s.calls c = some call → call.phase = .searched →
    s.Holds call.txnId call.item .exclusive

theorem ranked_init : Ranked (init : LockSystem n) := by
  refine ⟨orderly_init, fun p => runsAsQueue_init rfl, ?_, ?_, ?_⟩ <;> simp [init, LockEntry.new]

/-- A record is one that was there, up to its status, or the one that is pushed. -/
theorem records_step (h : Orderly s) (hs : step s a = some t)
    (hr : r ∈ (t.table.entry p).waitList) :
    (∃ r' ∈ (s.table.entry p).waitList, r'.txnId = r.txnId ∧ r'.mode = r.mode) ∨
      ∃ c call, a = .push c ∧ s.calls c = some call ∧ call.phase = .added ∧ p = call.entry ∧
        r.txnId = call.txnId ∧ r.mode = call.mode := by
  cases a with
  | add c txnId mode item raw =>
    obtain ⟨-, rfl⟩ := step_add hs
    left
    rcases add_entry s.table item raw with ⟨-, he⟩ | ⟨-, -, he, -⟩
    · exact ⟨r, by simpa [he] using hr, rfl, rfl⟩
    · by_cases hp : p = s.table.next
      · subst hp
        simp [he, LockEntry.new] at hr
      · exact ⟨r, by simpa [he, hp] using hr, rfl, rfl⟩
  | push c =>
    obtain ⟨call, hc, hphase, rfl⟩ := step_push hs
    by_cases hp : p = call.entry
    · subst hp
      simp only [setCall_table, setEntry_table, table_setEntry_entry, Function.update_self,
        LockEntry.push, List.mem_append, List.mem_singleton] at hr
      rcases hr with hr | rfl
      · exact Or.inl ⟨r, hr, rfl, rfl⟩
      · exact Or.inr ⟨c, call, rfl, hc, hphase, rfl, rfl, rfl⟩
    · exact Or.inl ⟨r, by simpa [hp] using hr, rfl, rfl⟩
  | evaluate c =>
    obtain ⟨call, hc, hphase, ⟨rfl, -⟩ | ⟨e, he, rfl⟩⟩ := step_evaluate hs
    · exact Or.inl ⟨r, hr, rfl, rfl⟩
    · by_cases hp : p = call.entry
      · subst hp
        simp only [setCall_table, setEntry_table, table_setEntry_entry,
          Function.update_self] at hr
        obtain ⟨pre, r₀, post, hl, ⟨hb, -⟩ | ⟨-, -, -, hl', -⟩⟩ := LockEntry.evaluate_eq_some he
        · simp at hb
        · rw [hl', List.mem_append, List.mem_cons] at hr
          rcases hr with hr | rfl | hr
          · exact Or.inl ⟨r, by simp [hl, hr], rfl, rfl⟩
          · exact Or.inl ⟨_, h.waiting hc hphase, rfl, rfl⟩
          · exact Or.inl ⟨r, by simp [hl, hr], rfl, rfl⟩
      · exact Or.inl ⟨r, by simpa [hp] using hr, rfl, rfl⟩
  | search c txnId item =>
    obtain ⟨-, _, -, rfl⟩ := step_search hs
    exact Or.inl ⟨r, hr, rfl, rfl⟩
  | delete c =>
    obtain ⟨call, -, -, rfl⟩ := step_delete hs
    by_cases hp : p = call.entry
    · subst hp
      simp only [setCall_table, setEntry_table, table_setEntry_entry, Function.update_self,
        LockEntry.release_waitList] at hr
      exact Or.inl ⟨r, List.mem_of_mem_filter hr, rfl, rfl⟩
    · exact Or.inl ⟨r, by simpa [hp] using hr, rfl, rfl⟩
  | finish c =>
    obtain ⟨call, -, -, -, he, -⟩ := step_finish hs
    exact Or.inl ⟨r, by rwa [he] at hr, rfl, rfl⟩

/-- An entry that is in the table keeps its item. -/
theorem item_step (hs : step s a = some t) (hp : p < s.table.next) :
    t.table.item p = s.table.item p := by
  cases a with
  | add c txnId mode item raw =>
    obtain ⟨-, rfl⟩ := step_add hs
    rcases add_entry s.table item raw with ⟨-, he⟩ | ⟨-, -, -, he⟩
    · simp [he]
    · simp [he, hp.ne]
  | push c =>
    obtain ⟨call, -, -, rfl⟩ := step_push hs
    rfl
  | evaluate c =>
    obtain ⟨call, -, -, ⟨rfl, -⟩ | ⟨e, -, rfl⟩⟩ := step_evaluate hs <;> rfl
  | search c txnId item =>
    obtain ⟨-, _, -, rfl⟩ := step_search hs
    rfl
  | delete c =>
    obtain ⟨call, -, -, rfl⟩ := step_delete hs
    rfl
  | finish c =>
    obtain ⟨call, -, -, -, -, he⟩ := step_finish hs
    rw [he]

theorem Orderly.lt_next (h : Orderly s) (hr : r ∈ (s.table.entry p).waitList) :
    p < s.table.next :=
  (h.consistent.table _ _ (h.consistent.records p (List.ne_nil_of_mem hr))).2.2

/-- A request in a state is one of the state before, or has just been made in order. -/
theorem request_step (hs : Guarded InOrder step s a t) {call : Call} (hc : t.calls c = some call)
    (hp : call.phase = .added ∨ call.phase = .waiting) :
    (∃ old, s.calls c = some old ∧ (old.phase = .added ∨ old.phase = .waiting) ∧
        old.txnId = call.txnId ∧ old.mode = call.mode ∧ old.item = call.item ∧
        old.entry = call.entry) ∨
      (∃ raw, a = .add c call.txnId call.mode call.item raw) := by
  -- the call is the one that the step has changed, or it was there before
  have hcase : ∀ d x, t.calls = Function.update s.calls d x → (c = d ∧ x = some call) ∨
      ∃ old, s.calls c = some old ∧ (old.phase = .added ∨ old.phase = .waiting) ∧
        old.txnId = call.txnId ∧ old.mode = call.mode ∧ old.item = call.item ∧
        old.entry = call.entry := by
    intro d x hcalls
    rw [hcalls] at hc
    by_cases he : c = d
    · subst he
      exact Or.inl ⟨rfl, by simpa using hc⟩
    · rw [Function.update_of_ne he] at hc
      exact Or.inr ⟨call, hc, hp, rfl, rfl, rfl, rfl⟩
  cases a with
  | add d txnId mode item raw =>
    obtain ⟨-, rfl⟩ := step_add hs.2
    rcases hcase d _ rfl with ⟨rfl, hx⟩ | hold
    · obtain rfl := Option.some.inj hx
      exact Or.inr ⟨raw, rfl⟩
    · exact Or.inl hold
  | push d =>
    obtain ⟨x, hx, hphase, rfl⟩ := step_push hs.2
    rcases hcase d _ rfl with ⟨rfl, hcall⟩ | hold
    · obtain rfl := Option.some.inj hcall
      exact Or.inl ⟨x, hx, Or.inl hphase, rfl, rfl, rfl, rfl⟩
    · exact Or.inl hold
  | evaluate d =>
    obtain ⟨x, hx, -, ⟨rfl, -⟩ | ⟨e, -, rfl⟩⟩ := step_evaluate hs.2
    · exact Or.inl ⟨call, hc, hp, rfl, rfl, rfl, rfl⟩
    · rcases hcase d _ rfl with ⟨-, hcall⟩ | hold
      · simp at hcall
      · exact Or.inl hold
  | search d txnId item =>
    obtain ⟨-, _, -, rfl⟩ := step_search hs.2
    rcases hcase d _ rfl with ⟨-, hcall⟩ | hold
    · obtain rfl := Option.some.inj hcall
      simp at hp
    · exact Or.inl hold
  | delete d =>
    obtain ⟨x, -, -, rfl⟩ := step_delete hs.2
    rcases hcase d _ rfl with ⟨-, hcall⟩ | hold
    · obtain rfl := Option.some.inj hcall
      simp at hp
    · exact Or.inl hold
  | finish d =>
    obtain ⟨x, -, -, hcalls, -⟩ := step_finish hs.2
    rcases hcase d _ hcalls with ⟨-, hcall⟩ | hold
    · simp at hcall
    · exact Or.inl hold

/-- The entry of a request: the table has it from the start of the call on. -/
theorem Orderly.entry_eq (h : Orderly s) (hc : s.calls c = some call)
    (hp : s.table.table call.item = some p) : call.entry = p :=
  Option.some.inj ((h.consistent.calls c call hc).symm.trans hp)

theorem requests_step (h : Ranked s) (hs : Guarded InOrder step s a t) {call : Call}
    (hc : t.calls c = some call) (hp : call.phase = .added ∨ call.phase = .waiting) :
    call.mode = .exclusive ∧ ∀ p, ∀ r ∈ (t.table.entry p).waitList, r.txnId = call.txnId →
      p = call.entry ∨ t.table.item p < call.item := by
  rcases request_step hs hc hp with ⟨old, hold, hphase, hid, hmode, hitem, hentry⟩ | ⟨raw, rfl⟩
  · obtain ⟨hx, hbelow⟩ := h.requests c old hold hphase
    refine ⟨hmode ▸ hx, ?_⟩
    intro p r hr hrid
    rcases records_step h.orderly hs.2 hr with ⟨r', hr', hid', -⟩ | ⟨d, x, rfl, hd, -, hpx, hid', -⟩
    · rw [item_step hs.2 (h.orderly.lt_next hr'), ← hentry, ← hitem]
      exact hbelow p r' hr' (hid'.trans (hrid.trans hid.symm))
    · -- the pushed record is that of the call itself
      have hdc : d = c := h.orderly.one d c x old hd hold (hid'.symm.trans (hrid.trans hid.symm))
      subst hdc
      obtain rfl := Option.some.inj (hd.symm.trans hold)
      exact Or.inl (hpx.trans hentry)
  · obtain ⟨⟨-, hx, -, hbelow⟩, hs⟩ := hs
    refine ⟨hx, ?_⟩
    intro p r hr hrid
    rcases records_step h.orderly hs hr with ⟨r', hr', hid', -⟩ | ⟨d, x, hev, -⟩
    · have hlt := h.orderly.lt_next hr'
      rw [item_step hs hlt]
      exact Or.inr (hbelow p hlt r' hr' (hid'.trans hrid))
    · simp at hev

/-- A call that unlocks still holds its item: its transaction has no other call. -/
theorem unlocks_step (h : Ranked s) (hs : Guarded InOrder step s a t) {call : Call}
    (hc : t.calls c = some call) (hp : call.phase = .searched) :
    t.Holds call.txnId call.item .exclusive := by
  have hg : Guarded OneAtATime step s a t := ⟨hs.1.oneAtATime, hs.2⟩
  -- a call that was there keeps its lock, unless it is the call of this step
  have hkeep : s.calls c = some call → a ≠ .delete c →
      t.Holds call.txnId call.item .exclusive := by
    intro hold hne
    rcases holds_step h.orderly hg (h.unlocks c call hold hp) with hh | ⟨d, x, rfl, hd, -, hid⟩
    · exact hh
    · exact absurd (congrArg LockStep.delete (h.orderly.one d c x call hd hold hid)) hne
  have hframe : ∀ d x, t.calls = Function.update s.calls d x → x ≠ some call → a ≠ .delete c →
      t.Holds call.txnId call.item .exclusive := by
    intro d x hcalls hx hne
    rw [hcalls] at hc
    by_cases he : c = d
    · subst he
      rw [Function.update_self] at hc
      exact absurd hc hx
    · rw [Function.update_of_ne he] at hc
      exact hkeep hc hne
  cases a with
  | add d txnId mode item raw =>
    obtain ⟨-, rfl⟩ := step_add hs.2
    refine hframe d _ rfl ?_ (by simp)
    rintro ⟨⟩
    simp at hp
  | push d =>
    obtain ⟨x, -, -, rfl⟩ := step_push hs.2
    refine hframe d _ rfl ?_ (by simp)
    rintro ⟨⟩
    simp at hp
  | evaluate d =>
    obtain ⟨x, -, -, ⟨rfl, -⟩ | ⟨e, -, rfl⟩⟩ := step_evaluate hs.2
    · exact hkeep hc (by simp)
    · exact hframe d none rfl (by simp) (by simp)
  | search d txnId item =>
    obtain ⟨-, p, hfound, rfl⟩ := step_search hs.2
    by_cases he : c = d
    · subst he
      obtain rfl := by simpa using hc
      exact hs.1.2
    · exact hkeep (by simpa [he] using hc) (by simp)
  | delete d =>
    obtain ⟨x, -, -, rfl⟩ := step_delete hs.2
    by_cases he : c = d
    · subst he
      obtain rfl := by simpa using hc
      simp at hp
    · exact hkeep (by simpa [he] using hc) (by simpa using Ne.symm he)
  | finish d =>
    obtain ⟨x, -, -, hcalls, -⟩ := step_finish hs.2
    exact hframe d none hcalls (by simp) (by simp)

theorem aboutReleases_unlocksGranted : AboutReleases LockQueue.UnlocksGranted :=
  fun _ => ⟨fun _ _ => trivial, fun _ => trivial⟩

theorem ranked_step : TrInv (Guarded InOrder step) (Ranked : LockSystem n → Prop) := by
  intro s a t hs h
  have ho := orderly_step _ _ _ ⟨hs.1.oneAtATime, hs.2⟩ h.orderly
  refine ⟨ho, ?_, ?_, fun c call hc hp => requests_step h hs hc hp,
    fun c call hc hp => unlocks_step h hs hc hp⟩
  · intro p
    refine runsAsQueue_step h.orderly (h.queues p) aboutReleases_unlocksGranted ?_ hs.2
    cases a with
    | add c txnId mode item raw => exact hs.1.2.2.1
    | delete c =>
      obtain ⟨call, hc, hp, -⟩ := step_delete hs.2
      intro x hx q hq
      obtain rfl := Option.some.inj (hc.symm.trans hx)
      obtain ⟨p', hp', hr⟩ := h.unlocks c call hc hp
      obtain rfl := h.orderly.entry_eq hc hp'
      exact ⟨_, by rw [hq.entry]; exact hr, rfl, rfl⟩
    | push | evaluate | search | finish => trivial
  · intro p r hr
    rcases records_step h.orderly hs.2 hr with ⟨r', hr', -, hm⟩ | ⟨c, call, -, hc, hp, -, -, hm⟩
    · rw [← hm]
      exact h.exclusive p r' hr'
    · rw [hm]
      exact (h.requests c call hc (Or.inl hp)).1

/-- The holder of an item unlocks it: its record goes, and the others are notified. -/
theorem release_holder {rest : List Record} (h : Ranked s)
    (hl : (s.table.entry p).waitList = ⟨txnId, .exclusive, .granted⟩ :: rest) :
    ((s.table.entry p).release txnId).1 = true ∧
      ((s.table.entry p).release txnId).2.waitList = rest := by
  obtain ⟨raw, steps, q, rfl, hrun, hq⟩ := h.queues p
  have hcounted := mTr_trInv LockQueue.counted_step hrun LockQueue.counted_init
  have hmode : (s.table.entry p).currentLockMode = .exclusive := by
    rw [← hq.entry]
    exact hcounted.exclusive.mpr ⟨txnId, by simp [LockEntry.Holds, hq.entry, hl]⟩
  refine ⟨by simp [LockEntry.release, hmode], ?_⟩
  have horder := hcounted.disciplined.order
  rw [hq.entry, hl, List.pairwise_cons] at horder
  rw [LockEntry.release_waitList, hmode, hl, List.filter_cons_of_neg (by simp)]
  apply List.filter_eq_self.mpr
  intro r hr
  rw [decide_eq_true_eq]
  rintro rfl
  exact lt_irrefl _ (horder.1 _ hr)

/-- A waiting record has a call that waits for it. -/
theorem Ranked.exists_call (h : Ranked s) (hr : r ∈ (s.table.entry p).waitList)
    (hw : r.status = .waiting) : ∃ c call, s.calls c = some call ∧ call.phase = .waiting ∧
      call.entry = p ∧ call.txnId = r.txnId ∧ call.mode = .exclusive := by
  obtain ⟨q, hd, hq⟩ := h.orderly.disciplined p
  have hmode := h.exclusive p r hr
  obtain ⟨id, mode, status⟩ := r
  obtain rfl : status = .waiting := hw
  obtain rfl : mode = .exclusive := hmode
  rw [← hq.entry] at hr
  obtain ⟨c, call, hc, hp, he, hid, hm⟩ := (hq.inWait _ _).mp ((hd.waits _ _).mpr hr)
  exact ⟨c, call, hc, hp, he, hid, hm⟩

/-- The requests of one transaction on an entry with a granted record of it. -/
theorem Ranked.not_waiting (h : Ranked s) (hc : s.calls c = some call)
    (hp : call.phase = .waiting)
    (hr : ⟨call.txnId, mode, .granted⟩ ∈ (s.table.entry call.entry).waitList) : False := by
  obtain ⟨q, hd, hq⟩ := h.orderly.disciplined call.entry
  have hw := h.orderly.waiting hc hp
  rw [← hq.entry] at hr hw
  have := congrArg Record.status (hd.unique hr hw rfl)
  simp at this

end LockSystem

namespace LockEntry

theorem ready_of_head {e : LockEntry} {r : Record} {rest : List Record}
    (hl : e.waitList = r :: rest) : e.Ready r.txnId .exclusive := by
  simp [Ready, evaluate, hl]

end LockEntry

namespace WakeSystem

variable {n : ℕ} {s t : WakeSystem n} {c : Fin n} {call : Call}

def InOrder (s : WakeSystem n) : WakeStep n → Prop
  | .lock a => s.locks.InOrder a
  | _ => True

instance : ∀ (s : WakeSystem n) (a : WakeStep n), Decidable (s.InOrder a)
  | s, .lock a => inferInstanceAs (Decidable (s.locks.InOrder a))
  | _, .notify _ | _, .spurious _ => inferInstanceAs (Decidable True)

theorem InOrder.rules {a : WakeStep n} (h : s.InOrder a) : s.Rules a := by
  cases a with
  | notify | spurious => trivial
  | lock a =>
    cases a with
    | add c txnId mode item raw =>
      obtain ⟨hone, -, rfl, -⟩ := h
      exact ⟨hone, by simp⟩
    | search => exact h.1
    | push | evaluate | delete | finish => exact h

theorem ranked_step : TrInv (Guarded InOrder step)
    (fun s : WakeSystem n => s.Watched ∧ s.locks.Ranked) := by
  rintro s a t ⟨hr, hs⟩ ⟨hw, hk⟩
  refine ⟨watched_step _ _ _ ⟨hr.rules, hs⟩ hw, ?_⟩
  cases a with
  | lock a => exact LockSystem.ranked_step _ _ _ ⟨hr, step_locks hs⟩ hk
  | notify c =>
    obtain ⟨call, -, rfl⟩ := step_notify hs
    exact hk
  | spurious c =>
    obtain rfl := Option.some.inj hs
    exact hk

/-- If everybody sleeps, nobody sleeps although its request could be granted. -/
theorem Watched.not_ready (h : Watched s) (hall : ∀ c, s.locks.calls c ≠ none → s.asleep c = true)
    (hc : s.locks.calls c = some call) :
    ¬ (s.locks.table.entry call.entry).Ready call.txnId call.mode := by
  intro hr
  obtain ⟨c', call', hn, hc', -⟩ := h.noLost c call (hall c (by simp [hc])) hc hr
  obtain ⟨y, hy, hdel⟩ := h.pending c' hn
  obtain ⟨z, hz, hwait⟩ := h.sleeps c' (hall c' (by simp [hc']))
  obtain rfl := Option.some.inj (hy.symm.trans hz)
  simp [hdel] at hwait

/-- The call for the highest item, among those in progress. -/
theorem exists_highest (hc : s.locks.calls c ≠ none) : ∃ c call, s.locks.calls c = some call ∧
    ∀ c' call', s.locks.calls c' = some call' → call'.item ≤ call.item := by
  obtain ⟨d, hd, hmax⟩ := Finset.exists_max_image
    (Finset.univ.filter fun c => s.locks.calls c ≠ none)
    (fun c => ((s.locks.calls c).map Call.item).getD 0) ⟨c, by simpa using hc⟩
  obtain ⟨call, hcall⟩ := Option.ne_none_iff_exists'.mp (Finset.mem_filter.mp hd).2
  refine ⟨d, call, hcall, ?_⟩
  intro c' call' hc'
  simpa [hcall, hc'] using hmax c' (by simp [hc'])

/-- If everybody sleeps, a granted record is first where a call waits, and a waiting one second. -/
theorem blocked_entry (hw : s.Watched) (hk : s.locks.Ranked)
    (hall : ∀ c, s.locks.calls c ≠ none → s.asleep c = true) (hc : s.locks.calls c = some call)
    (hp : call.phase = .waiting) : ∃ holder next rest,
      (s.locks.table.entry call.entry).waitList = ⟨holder, .exclusive, .granted⟩ :: next :: rest ∧
        next.status = .waiting := by
  have hmem := hw.orderly.waiting hc hp
  obtain ⟨r, rest, hl⟩ := List.exists_cons_of_ne_nil (List.ne_nil_of_mem hmem)
  have hr : r ∈ (s.locks.table.entry call.entry).waitList := by simp [hl]
  have hx := hk.exclusive _ r hr
  -- a request that waits at the head could be granted
  have hgranted : r.status = .granted := by
    cases hst : r.status with
    | granted => rfl
    | waiting =>
      obtain ⟨d, x, hd, -, he, hid, hm⟩ := hk.exists_call hr hst
      refine absurd ?_ (hw.not_ready hall hd)
      rw [he, hid, hm]
      exact LockEntry.ready_of_head hl
  obtain ⟨holder, mode, status⟩ := r
  obtain rfl : mode = .exclusive := hx
  obtain rfl : status = .granted := hgranted
  have hrest : (⟨call.txnId, call.mode, .waiting⟩ : Record) ∈ rest := by
    rw [hl, List.mem_cons] at hmem
    refine hmem.resolve_left ?_
    simp
  obtain ⟨next, rest, rfl⟩ := List.exists_cons_of_ne_nil (List.ne_nil_of_mem hrest)
  refine ⟨holder, next, rest, hl, ?_⟩
  obtain ⟨q, hd, hq⟩ := hw.orderly.disciplined call.entry
  have hbehind := hd.discipline
  rw [hq.entry, hl, List.pairwise_cons] at hbehind
  cases hst : next.status with
  | waiting => rfl
  | granted =>
    have := (hbehind.1 next (by simp) hst).2.1
    simp at this

end WakeSystem

end AlphaDb.Transaction
