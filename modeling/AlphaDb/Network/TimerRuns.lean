import AlphaDb.Lib.Trace
import AlphaDb.Network.Dispatcher

/-! Timers from their creation to their last firing, over whole runs of a dispatcher. -/
namespace AlphaDb.Network

open Trace

/-- A timer as it was created: its id, its first time point and its interval. -/
structure Timer where
  id : TimerId
  first : ℤ
  interval : ℤ
  deriving DecidableEq, Repr

/-- The time point of firing `k`, counted from 0. -/
def Timer.due (t : Timer) (k : ℕ) : ℤ := t.first + k * t.interval

def Timer.task (t : Timer) : Task := if t.interval = 0 then .once t.id else .again t.id

/-- A task enqueued by a `handle_timeout`: its clock, and the entry of `timers_`. -/
structure Firing where
  clock : ℤ
  key : TimerId
  task : Task
  deriving DecidableEq, Repr

/-- A dispatcher, the timers created so far, what has been enqueued, and the timers for which a
`cancel` has returned true. -/
structure TimerRun where
  dispatcher : Dispatcher
  created : List Timer
  fired : List Firing
  cancelled : List TimerId

inductive TimerCall
  | runAt (tp interval : ℤ)
  | runAfter (now ms : ℤ)
  | runEvery (now ms interval : ℤ)
  | handleTimeout (now : ℤ)
  | execute (i : ℕ)
  | cancel (tid : TimerId)
  deriving DecidableEq, Repr

namespace TimerRun

open Dispatcher

variable {r q : TimerRun} {a : TimerCall} {t u : Timer} {d : Dispatcher}

/-- The run after a timer has been created. -/
def record (r : TimerRun) (tp interval : ℤ) (x : Dispatcher × TimerId) : TimerRun :=
  { r with dispatcher := x.1, created := r.created ++ [⟨x.2, tp, interval⟩] }

/-- The run after a `handle_timeout`. -/
def expire (r : TimerRun) (now : ℤ) : TimerRun :=
  { r with
    dispatcher := r.dispatcher.handleTimeout now
    fired := r.fired ++ (r.dispatcher.expired now).map fun e => ⟨now, e.1, e.2⟩ }

def step (r : TimerRun) : TimerCall → Option TimerRun
  | .runAt tp interval => (r.dispatcher.runAt tp interval).map (r.record tp interval)
  | .runAfter now ms => (r.dispatcher.runAfter now ms).map (r.record (now + ms) 0)
  | .runEvery now ms interval =>
    (r.dispatcher.runEvery now ms interval).map (r.record (now + ms) interval)
  | .handleTimeout now => some (r.expire now)
  | .execute i => (r.dispatcher.execute i).map fun d => { r with dispatcher := d }
  | .cancel tid =>
    (r.dispatcher.cancel tid).map fun x =>
      { r with
        dispatcher := x.1
        cancelled := if x.2 then tid :: r.cancelled else r.cancelled }

/-- The firings of a task, in their order. -/
def firings (r : TimerRun) (t : Task) : List Firing := r.fired.filter (·.task = t)

/-- A dispatcher that has just been made. -/
def initial : TimerRun := ⟨⟨true, 0, .empty, .empty, []⟩, [], [], []⟩

/-- A one-shot timer is pending, has fired or has been cancelled: one of them, and once. -/
structure OneShot (r : TimerRun) (t : Timer) : Prop where
  id : t.id.first = t.first
  key : ∀ e ∈ r.dispatcher.timers.entries, e.2 = .once t.id → e.1 = t.id
  count : r.dispatcher.pending (.once t.id) + (r.firings (.once t.id)).length +
    (if t.id ∈ r.cancelled then 1 else 0) = 1
  fired : ∀ f ∈ r.fired, f.task = .once t.id → f.key = t.id ∧ t.first ≤ f.clock

/-- A repeating timer that has not been cancelled is either pending or in the pool, and the time
point of its element is the one of its next or of its last firing. -/
structure Armed (r : TimerRun) (t : Timer) (task : RepeatableTask) : Prop where
  element : r.dispatcher.repeatableTimers.find? t.id = some task
  interval : task.interval = t.interval
  count : r.dispatcher.pending (.again t.id) + r.dispatcher.pool.count (.again t.id) = 1
  tp : task.tp + r.dispatcher.pool.count (.again t.id) * t.interval =
    t.first + (r.firings (.again t.id)).length * t.interval
  key : ∀ e ∈ r.dispatcher.timers.entries, e.2 = .again t.id →
    e.1 = task.timerId ∧ e.1.first = task.tp

structure Repeating (r : TimerRun) (t : Timer) : Prop where
  id : t.id.first = -t.first
  armed : t.id ∉ r.cancelled → ∃ task, Armed r t task
  cancelled : t.id ∈ r.cancelled → r.dispatcher.pending (.again t.id) = 0 ∧
    r.dispatcher.pool.count (.again t.id) = 0 ∧ .callback t.id ∉ r.dispatcher.pool ∧
    r.dispatcher.repeatableTimers.find? t.id = none
  times : (r.firings (.again t.id)).map (·.key.first) =
    (List.range (r.firings (.again t.id)).length).map t.due

/-- Every entry, and every task in the pool or fired, belongs to a timer that was created; sequence
numbers are handed out once. -/
structure Scheduled (r : TimerRun) : Prop where
  working : r.dispatcher.working = true
  keys : ∀ e ∈ r.dispatcher.timers.entries, e.1.second ≤ r.dispatcher.timeSeq
  ids : ∀ t ∈ r.created, t.id.second ≤ r.dispatcher.timeSeq
  order : r.created.Pairwise fun t u => t.id.second < u.id.second
  timers : ∀ e ∈ r.dispatcher.timers.entries, ∃ t ∈ r.created, t.task = e.2
  pool : ∀ x ∈ r.dispatcher.pool, ∃ t ∈ r.created, t.task = x ∨
    t.interval ≠ 0 ∧ .callback t.id = x
  fired : ∀ f ∈ r.fired, ∃ t ∈ r.created, t.task = f.task
  cancelled : ∀ id ∈ r.cancelled, ∃ t ∈ r.created, t.id = id
  own : ∀ e ∈ r.dispatcher.timers.entries, ∀ t ∈ r.created, e.1.second = t.id.second →
    e.2 = .once t.id
  oneShot : ∀ t ∈ r.created, t.interval = 0 → OneShot r t
  repeating : ∀ t ∈ r.created, t.interval ≠ 0 → Repeating r t

theorem scheduled_initial : Scheduled initial := by
  refine ⟨rfl, ?_, ?_, .nil, ?_, ?_, ?_, ?_, ?_, ?_, ?_⟩ <;> simp [initial, OrderedMap.empty]

/-- What a call other than `cancel` can do; all three ways to create a timer go through
`run_at`. -/
theorem call_cases (hne : ∀ tid, a ≠ .cancel tid) (hs : r.step a = some q) :
    (∃ tp interval x, r.dispatcher.runAt tp interval = some x ∧ q = r.record tp interval x) ∨
    (∃ now, q = r.expire now) ∨
    ∃ i d, r.dispatcher.execute i = some d ∧ q = { r with dispatcher := d } := by
  have hbind : ∀ {v interval : ℤ} {x}, ((int64 v).bind fun tp => r.dispatcher.runAt tp interval) =
      some x → r.dispatcher.runAt v interval = some x := by
    intro v interval x hx
    obtain ⟨tp, htp, hx⟩ := Option.bind_eq_some_iff.mp hx
    exact int64_eq_some htp ▸ hx
  cases a with
  | runAt tp interval =>
    obtain ⟨x, hx, rfl⟩ := Option.map_eq_some_iff.mp hs
    exact Or.inl ⟨_, _, x, hx, rfl⟩
  | runAfter now ms =>
    obtain ⟨x, hx, rfl⟩ := Option.map_eq_some_iff.mp hs
    exact Or.inl ⟨_, _, x, hbind hx, rfl⟩
  | runEvery now ms interval =>
    obtain ⟨x, hx, rfl⟩ := Option.map_eq_some_iff.mp hs
    exact Or.inl ⟨_, _, x, hbind hx, rfl⟩
  | handleTimeout now => exact Or.inr (Or.inl ⟨now, (Option.some.inj hs).symm⟩)
  | execute i =>
    obtain ⟨d, hd, rfl⟩ := Option.map_eq_some_iff.mp hs
    exact Or.inr (Or.inr ⟨i, d, hd, rfl⟩)
  | cancel tid => exact absurd rfl (hne tid)

theorem task_of_zero (h : t.interval = 0) : t.task = .once t.id := if_pos h

theorem task_of_ne_zero (h : t.interval ≠ 0) : t.task = .again t.id := if_neg h

theorem task_ne_callback (id : TimerId) : t.task ≠ .callback id := by
  unfold Timer.task
  split <;> simp

theorem id_eq_of_task_eq (h : t.task = u.task) : t.id = u.id := by
  unfold Timer.task at h
  split at h <;> split at h <;> simp_all

/-- A timer is as it was: what belongs to it has not changed. -/
structure SameView (r q : TimerRun) (t : Timer) : Prop where
  pending : q.dispatcher.pending t.task = r.dispatcher.pending t.task
  pool : t.interval ≠ 0 → q.dispatcher.pool.count t.task = r.dispatcher.pool.count t.task
  callback : t.interval ≠ 0 → .callback t.id ∈ q.dispatcher.pool →
    .callback t.id ∈ r.dispatcher.pool
  firings : q.firings t.task = r.firings t.task
  cancelled : t.id ∈ q.cancelled ↔ t.id ∈ r.cancelled
  element : t.interval ≠ 0 →
    q.dispatcher.repeatableTimers.find? t.id = r.dispatcher.repeatableTimers.find? t.id
  entries : ∀ e ∈ q.dispatcher.timers.entries, e.2 = t.task → e ∈ r.dispatcher.timers.entries

theorem OneShot.sameView (h : OneShot r t) (hzero : t.interval = 0) (hv : SameView r q t) :
    OneShot q t := by
  obtain ⟨hpending, -, -, hfirings, hcancelled, -, hentries⟩ := hv
  rw [task_of_zero hzero] at hpending hfirings hentries
  refine ⟨h.id, ?_, ?_, ?_⟩
  · intro e he htask
    exact h.key e (hentries e he htask) htask
  · rw [hpending, hfirings]
    simp only [hcancelled]
    exact h.count
  · intro f hf htask
    have hmem : f ∈ q.firings (.once t.id) := List.mem_filter.mpr ⟨hf, by simpa using htask⟩
    rw [hfirings] at hmem
    exact h.fired f (List.mem_filter.mp hmem).1 htask

theorem Repeating.sameView (h : Repeating r t) (hne : t.interval ≠ 0) (hv : SameView r q t) :
    Repeating q t := by
  obtain ⟨hpending, hpool, hcallback, hfirings, hcancelled, helement, hentries⟩ := hv
  have hpool := hpool hne
  have helement := helement hne
  rw [task_of_ne_zero hne] at hpending hpool hfirings hentries
  refine ⟨h.id, ?_, ?_, ?_⟩
  · intro hlive
    obtain ⟨task, harmed⟩ := h.armed (fun hc => hlive (hcancelled.mpr hc))
    refine ⟨task, helement.trans harmed.element, harmed.interval, ?_, ?_, ?_⟩
    · rw [hpending, hpool]
      exact harmed.count
    · rw [hpool, hfirings]
      exact harmed.tp
    · intro e he htask
      exact harmed.key e (hentries e he htask) htask
  · intro hc
    obtain ⟨hp, hcount, hnone, hfind⟩ := h.cancelled (hcancelled.mp hc)
    rw [hpending, hpool, helement]
    exact ⟨hp, hcount, fun hmem => hnone (hcallback hne hmem), hfind⟩
  · rw [hfirings]
    exact h.times

/-- A timer whose element is there has not been cancelled. -/
theorem Repeating.armed_of_element (h : Repeating r t) {task : RepeatableTask}
    (hfind : r.dispatcher.repeatableTimers.find? t.id = some task) :
    t.id ∉ r.cancelled ∧ Armed r t task := by
  have hlive : t.id ∉ r.cancelled := by
    intro hc
    obtain ⟨-, -, -, hnone⟩ := h.cancelled hc
    rw [hnone] at hfind
    simp at hfind
  obtain ⟨task', harmed⟩ := h.armed hlive
  obtain rfl := Option.some.inj (hfind.symm.trans harmed.element)
  exact ⟨hlive, harmed⟩

/-- Nothing is known of a timer with a later sequence number. -/
theorem Scheduled.fresh (h : Scheduled r) (hu : r.dispatcher.timeSeq < u.id.second) :
    (∀ t ∈ r.created, t.task ≠ u.task ∧ t.id ≠ u.id) ∧ r.dispatcher.pending u.task = 0 ∧
      r.dispatcher.pool.count u.task = 0 ∧ r.firings u.task = [] ∧ u.id ∉ r.cancelled := by
  have hnew : ∀ t ∈ r.created, t.task ≠ u.task ∧ t.id ≠ u.id := by
    intro t ht
    have hid : t.id ≠ u.id := by
      intro heq
      have := h.ids t ht
      rw [heq] at this
      omega
    exact ⟨fun htask => hid (id_eq_of_task_eq htask), hid⟩
  refine ⟨hnew, ?_, ?_, ?_, ?_⟩
  · refine pending_eq_zero.mpr ?_
    intro e he
    obtain ⟨t, ht, htask⟩ := h.timers e he
    exact htask ▸ (hnew t ht).1
  · refine List.count_eq_zero.mpr ?_
    intro hmem
    obtain ⟨t, ht, htask | ⟨-, htask⟩⟩ := h.pool _ hmem
    · exact (hnew t ht).1 htask
    · exact task_ne_callback t.id htask.symm
  · refine List.filter_eq_nil_iff.mpr ?_
    intro f hf
    obtain ⟨t, ht, htask⟩ := h.fired f hf
    simpa [← htask] using (hnew t ht).1
  · intro hmem
    obtain ⟨t, ht, hid⟩ := h.cancelled _ hmem
    exact (hnew t ht).2 hid

/-- An entry with a later sequence number is not there. -/
theorem Scheduled.find?_eq_none (h : Scheduled r) {k : TimerId}
    (hk : r.dispatcher.timeSeq < k.second) : r.dispatcher.timers.find? k = none := by
  refine OrderedMap.find?_eq_none.mpr ?_
  intro e he heq
  have := h.keys e he
  rw [heq] at this
  omega

/-- An entry with a later sequence number is one more, and the others stay. -/
theorem Scheduled.entry_inserted (h : Scheduled r) {k : TimerId} {x : Task}
    (hk : r.dispatcher.timeSeq < k.second)
    (htimers : d.timers = r.dispatcher.timers.insert k x) :
    (∀ y, d.pending y = r.dispatcher.pending y + if x = y then 1 else 0) ∧
      ∀ e ∈ d.timers.entries, e = (k, x) ∨ e ∈ r.dispatcher.timers.entries := by
  constructor
  · intro y
    simp only [Dispatcher.pending, htimers, OrderedMap.countP_insert (h.find?_eq_none hk),
      decide_eq_true_eq]
  · intro e he
    rw [htimers] at he
    exact OrderedMap.mem_insert he

/-- A one-shot timer with nothing but its entry. -/
theorem oneShot_of_pending (hid : t.id.first = t.first)
    (hkey : ∀ e ∈ r.dispatcher.timers.entries, e.2 = .once t.id → e.1 = t.id)
    (hpending : r.dispatcher.pending (.once t.id) = 1) (hfirings : r.firings (.once t.id) = [])
    (hlive : t.id ∉ r.cancelled) : OneShot r t := by
  refine ⟨hid, hkey, ?_, ?_⟩
  · rw [hpending, hfirings, if_neg hlive]
    rfl
  · intro f hf heq
    have hempty := List.filter_eq_nil_iff.mp hfirings f hf
    simp [heq] at hempty

/-- A repeating timer with nothing but its element and its entry. -/
theorem repeating_of_pending {k : TimerId} (hid : t.id.first = -t.first)
    (hfind : r.dispatcher.repeatableTimers.find? t.id = some ⟨t.first, t.interval, k⟩)
    (hk : k.first = t.first)
    (hkey : ∀ e ∈ r.dispatcher.timers.entries, e.2 = .again t.id → e.1 = k)
    (hpending : r.dispatcher.pending (.again t.id) = 1)
    (hpool : r.dispatcher.pool.count (.again t.id) = 0) (hfirings : r.firings (.again t.id) = [])
    (hlive : t.id ∉ r.cancelled) : Repeating r t := by
  refine ⟨hid, fun _ => ⟨_, hfind, rfl, ?_, ?_, ?_⟩, fun hc => absurd hc hlive, ?_⟩
  · rw [hpending, hpool]
  · rw [hpool, hfirings]
    simp
  · intro e he heq
    obtain rfl := hkey e he heq
    exact ⟨rfl, hk⟩
  · rw [hfirings]
    rfl

/-- A new timer with its first entry. -/
theorem Scheduled.add (h : Scheduled r) {k : TimerId} (hu : r.dispatcher.timeSeq < u.id.second)
    (hk : r.dispatcher.timeSeq < k.second) (hw : d.working = true)
    (htimers : d.timers = r.dispatcher.timers.insert k u.task)
    (hpool : d.pool = r.dispatcher.pool) (hid : u.id.second ≤ d.timeSeq)
    (hkey : k.second ≤ d.timeSeq)
    (helement : ∀ id, id ≠ u.id →
      d.repeatableTimers.find? id = r.dispatcher.repeatableTimers.find? id)
    (hown : k.second = u.id.second → u.task = .once u.id)
    (hone : u.interval = 0 → k = u.id ∧ u.id.first = u.first)
    (hrep : u.interval ≠ 0 → u.id.first = -u.first ∧ k.first = u.first ∧
      d.repeatableTimers.find? u.id = some ⟨u.first, u.interval, k⟩) :
    Scheduled { r with dispatcher := d, created := r.created ++ [u] } := by
  obtain ⟨hnew, hpending, hcount, hfirings, hlive⟩ := h.fresh hu
  obtain ⟨hpend, hentry⟩ := h.entry_inserted hk htimers
  -- an old timer is as it was
  have hview : ∀ t ∈ r.created,
      SameView r { r with dispatcher := d, created := r.created ++ [u] } t := by
    intro t ht
    obtain ⟨htask, htid⟩ := hnew t ht
    refine ⟨?_, fun _ => by rw [hpool], fun _ hmem => hpool ▸ hmem, rfl, Iff.rfl,
      fun _ => helement t.id htid, ?_⟩
    · rw [hpend, if_neg htask.symm, Nat.add_zero]
    · intro e he heq
      rcases hentry e he with rfl | he
      · exact absurd heq htask.symm
      · exact he
  have hmem : ∀ t ∈ r.created ++ [u], t ∈ r.created ∨ t = u := by
    intro t ht
    simpa using ht
  have hup : d.pending u.task = 1 := by rw [hpend, hpending, if_pos rfl]
  -- the new entry is the only one of the new timer
  have honly : ∀ e ∈ d.timers.entries, e.2 = u.task → e.1 = k := by
    intro e he heq
    rcases hentry e he with rfl | he
    · rfl
    · exact absurd heq (pending_eq_zero.mp hpending e he)
  refine ⟨hw, ?_, ?_, ?_, ?_, ?_, ?_, ?_, ?_, ?_, ?_⟩
  · intro e he
    rcases hentry e he with rfl | he
    · exact hkey
    · have := h.keys e he
      show e.1.second ≤ d.timeSeq
      omega
  · intro t ht
    rcases hmem t ht with ht | rfl
    · have := h.ids t ht
      show t.id.second ≤ d.timeSeq
      omega
    · exact hid
  · refine List.pairwise_append.mpr ⟨h.order, List.pairwise_singleton _ _, ?_⟩
    intro t ht t' ht'
    obtain rfl := List.mem_singleton.mp ht'
    have := h.ids t ht
    omega
  · intro e he
    rcases hentry e he with rfl | he
    · exact ⟨u, by simp, rfl⟩
    · obtain ⟨t, ht, htask⟩ := h.timers e he
      exact ⟨t, List.mem_append_left _ ht, htask⟩
  · intro x hx
    rw [hpool] at hx
    obtain ⟨t, ht, htask⟩ := h.pool x hx
    exact ⟨t, List.mem_append_left _ ht, htask⟩
  · intro f hf
    obtain ⟨t, ht, htask⟩ := h.fired f hf
    exact ⟨t, List.mem_append_left _ ht, htask⟩
  · intro id hc
    obtain ⟨t, ht, htid⟩ := h.cancelled id hc
    exact ⟨t, List.mem_append_left _ ht, htid⟩
  · intro e he t ht heq
    rcases hentry e he with rfl | hold
    · rcases hmem t ht with ht | rfl
      · have := h.ids t ht
        dsimp only at heq
        omega
      · exact hown heq
    · rcases hmem t ht with ht | rfl
      · exact h.own e hold t ht heq
      · have := h.keys e hold
        omega
  · intro t ht hzero
    rcases hmem t ht with ht | rfl
    · exact (h.oneShot t ht hzero).sameView hzero (hview t ht)
    · obtain ⟨hkid, hfirst⟩ := hone hzero
      rw [task_of_zero hzero] at hup hfirings honly
      have hkeys : ∀ e ∈ d.timers.entries, e.2 = .once t.id → e.1 = t.id :=
        fun e he heq => (honly e he heq).trans hkid
      exact oneShot_of_pending hfirst hkeys hup hfirings hlive
  · intro t ht hne
    rcases hmem t ht with ht | rfl
    · exact (h.repeating t ht hne).sameView hne (hview t ht)
    · obtain ⟨hfirst, hkfirst, hfind⟩ := hrep hne
      rw [task_of_ne_zero hne] at hup hcount hfirings honly
      rw [← hpool] at hcount
      exact repeating_of_pending hfirst hfind hkfirst honly hup hcount hfirings hlive

theorem scheduled_record (h : Scheduled r) {tp interval : ℤ} {x : Dispatcher × TimerId}
    (hx : r.dispatcher.runAt tp interval = some x) : Scheduled (r.record tp interval x) := by
  obtain ⟨d, tid⟩ := x
  obtain ⟨hne, rfl, rfl⟩ | ⟨rfl, rfl, rfl⟩ := runAt_cases h.working hx
  · refine h.add (u := ⟨⟨-tp, r.dispatcher.timeSeq + 1⟩, tp, interval⟩)
      (k := ⟨tp, r.dispatcher.timeSeq + 2⟩) (Nat.lt_succ_self _) ?_ h.working ?_ rfl ?_ le_rfl ?_
      ?_ ?_ ?_
    · dsimp only
      omega
    · rw [task_of_ne_zero hne]
    · dsimp only
      omega
    · intro id hid
      exact OrderedMap.find?_insert_of_ne hid
    · intro heq
      dsimp only at heq
      omega
    · exact fun hzero => absurd hzero hne
    · intro _
      exact ⟨rfl, rfl, OrderedMap.find?_insert_self ..⟩
  · have hnone := h.find?_eq_none (k := ⟨tp, r.dispatcher.timeSeq + 1⟩) (Nat.lt_succ_self _)
    refine h.add (u := ⟨⟨tp, r.dispatcher.timeSeq + 1⟩, tp, 0⟩)
      (k := ⟨tp, r.dispatcher.timeSeq + 1⟩) (Nat.lt_succ_self _) (Nat.lt_succ_self _) h.working ?_
      rfl le_rfl le_rfl (fun _ _ => rfl) (fun _ => rfl) (fun _ => ⟨rfl, rfl⟩) ?_
    · simp [OrderedMap.insertNew, hnone, Timer.task]
    · exact fun hne => absurd rfl hne

theorem pending_expire (r : TimerRun) (now : ℤ) (x : Task) :
    r.dispatcher.pending x =
      (r.dispatcher.expired now).countP (·.2 = x) + (r.expire now).dispatcher.pending x := by
  unfold Dispatcher.pending
  rw [← OrderedMap.before_append_behind r.dispatcher.timers ⟨now, maxTimeouts⟩,
    List.countP_append]
  rfl

theorem pool_expire (r : TimerRun) (now : ℤ) (x : Task) :
    (r.expire now).dispatcher.pool.count x =
      r.dispatcher.pool.count x + (r.dispatcher.expired now).countP (·.2 = x) := by
  show (r.dispatcher.pool ++ (r.dispatcher.expired now).map Prod.snd).count x = _
  rw [List.count_append, List.count_eq_countP (l := List.map _ _), List.countP_map]
  rfl

theorem firings_expire (r : TimerRun) (now : ℤ) (x : Task) :
    (r.expire now).firings x = r.firings x ++
      ((r.dispatcher.expired now).filter (·.2 = x)).map fun e => ⟨now, e.1, e.2⟩ := by
  unfold firings
  show (r.fired ++ _).filter _ = _
  rw [List.filter_append, List.filter_map]
  rfl

theorem mem_timers_expire {now : ℤ} {e : TimerId × Task}
    (h : e ∈ (r.expire now).dispatcher.timers.entries) : e ∈ r.dispatcher.timers.entries :=
  (List.dropWhile_sublist _).subset h

theorem mem_timers_of_expired {now : ℤ} {e : TimerId × Task} (h : e ∈ d.expired now) :
    e ∈ d.timers.entries :=
  (List.takeWhile_sublist _).subset h

/-- What has expired is not later than the clock. -/
theorem le_of_expired {now : ℤ} {e : TimerId × Task} (h : e ∈ d.expired now) :
    e.1.first ≤ now := by
  rcases TimerId.lt_iff.mp (OrderedMap.lt_of_mem_before h) with hlt | ⟨heq, -⟩
  · exact hlt.le
  · exact heq.le

theorem OneShot.expire (h : OneShot r t) (now : ℤ) : OneShot (r.expire now) t := by
  refine ⟨h.id, ?_, ?_, ?_⟩
  · intro e he htask
    exact h.key e (mem_timers_expire he) htask
  · have hcount := h.count
    rw [pending_expire r now] at hcount
    rw [firings_expire, List.length_append, List.length_map, ← List.countP_eq_length_filter]
    show _ + _ + (if t.id ∈ r.cancelled then 1 else 0) = 1
    omega
  · intro f hf htask
    rcases List.mem_append.mp hf with hf | hf
    · exact h.fired f hf htask
    · obtain ⟨e, he, rfl⟩ := List.mem_map.mp hf
      have hkey := h.key e (mem_timers_of_expired he) htask
      refine ⟨hkey, ?_⟩
      rw [← h.id, ← hkey]
      exact le_of_expired he

/-- One firing more, at the time point that the element of the timer has. -/
theorem Repeating.times_append {task : RepeatableTask} (h : Repeating r t) (harmed : Armed r t task)
    (hidle : r.dispatcher.pool.count (.again t.id) = 0) {f : Firing} (hf : f.key.first = task.tp) :
    (r.firings (.again t.id) ++ [f]).map (·.key.first) =
      (List.range (r.firings (.again t.id) ++ [f]).length).map t.due := by
  have htp := harmed.tp
  rw [hidle] at htp
  rw [List.map_append, h.times, List.length_append, List.length_singleton, List.range_succ,
    List.map_append]
  congr 1
  simp only [List.map_cons, List.map_nil, List.cons.injEq, and_true, hf, Timer.due]
  push_cast at htp
  linarith

theorem Repeating.expire (h : Repeating r t)
    (htimers : ∀ e ∈ r.dispatcher.timers.entries, e.2 ≠ .callback t.id) (now : ℤ) :
    Repeating (r.expire now) t := by
  have hpending := pending_expire r now (.again t.id)
  have hpool := pool_expire r now (.again t.id)
  have hfirings := firings_expire r now (.again t.id)
  by_cases hc : t.id ∈ r.cancelled
  · -- a cancelled timer has nothing that could expire
    obtain ⟨hp, hcount, hnone, hfind⟩ := h.cancelled hc
    have hzero : (r.dispatcher.expired now).countP (·.2 = .again t.id) = 0 := by omega
    have hnil : (r.dispatcher.expired now).filter (·.2 = .again t.id) = [] := by
      rw [← List.length_eq_zero_iff, ← List.countP_eq_length_filter]
      exact hzero
    rw [hnil, List.map_nil, List.append_nil] at hfirings
    have hnone' : .callback t.id ∉ (r.expire now).dispatcher.pool := by
      intro hmem
      rcases List.mem_append.mp hmem with hmem | hmem
      · exact hnone hmem
      · obtain ⟨e, he, htask⟩ := List.mem_map.mp hmem
        exact htimers e (mem_timers_of_expired he) htask
    refine ⟨h.id, fun hlive => absurd hc hlive, fun _ => ⟨by omega, by omega, hnone', hfind⟩, ?_⟩
    rw [hfirings]
    exact h.times
  · obtain ⟨task, harmed⟩ := h.armed hc
    have hcount := harmed.count
    have hkey : ∀ e ∈ (r.expire now).dispatcher.timers.entries, e.2 = .again t.id →
        e.1 = task.timerId ∧ e.1.first = task.tp :=
      fun e he => harmed.key e (mem_timers_expire he)
    have hlen : (r.dispatcher.expired now).countP (·.2 = .again t.id) =
        ((r.dispatcher.expired now).filter (·.2 = .again t.id)).length :=
      List.countP_eq_length_filter
    cases hexp : (r.dispatcher.expired now).filter (·.2 = .again t.id) with
    | nil =>
      rw [hexp, List.length_nil] at hlen
      rw [hexp, List.map_nil, List.append_nil] at hfirings
      refine ⟨h.id, fun _ => ⟨task, harmed.element, harmed.interval, by omega, ?_, hkey⟩,
        fun hc' => absurd hc' hc, ?_⟩
      · rw [hpool, hlen, hfirings]
        exact harmed.tp
      · rw [hfirings]
        exact h.times
    | cons e l =>
      rw [hexp, List.length_cons] at hlen
      obtain rfl : l = [] := List.eq_nil_of_length_eq_zero (by omega)
      have hidle : r.dispatcher.pool.count (.again t.id) = 0 := by
        simp only [List.length_nil] at hlen
        omega
      rw [hexp] at hfirings
      obtain ⟨he, htask⟩ := List.mem_filter.mp (hexp ▸ List.mem_cons_self :
        e ∈ (r.dispatcher.expired now).filter (·.2 = .again t.id))
      have hfirst := (harmed.key e (mem_timers_of_expired he) (by simpa using htask)).2
      refine ⟨h.id, fun _ => ⟨task, harmed.element, harmed.interval, by omega, ?_, hkey⟩,
        fun hc' => absurd hc' hc, ?_⟩
      · have htp := harmed.tp
        rw [hidle] at htp
        rw [hpool, hlen, hidle, hfirings, List.length_append]
        simp only [List.length_map, List.length_cons, List.length_nil]
        push_cast at htp ⊢
        linarith
      · rw [hfirings]
        exact h.times_append harmed hidle hfirst

theorem scheduled_expire (h : Scheduled r) (now : ℤ) : Scheduled (r.expire now) := by
  refine ⟨h.working, ?_, h.ids, h.order, ?_, ?_, ?_, h.cancelled, ?_, ?_, ?_⟩
  · exact fun e he => h.keys e (mem_timers_expire he)
  · exact fun e he => h.timers e (mem_timers_expire he)
  · intro x hx
    rcases List.mem_append.mp hx with hx | hx
    · exact h.pool x hx
    · obtain ⟨e, he, rfl⟩ := List.mem_map.mp hx
      obtain ⟨t, ht, htask⟩ := h.timers e (mem_timers_of_expired he)
      exact ⟨t, ht, Or.inl htask⟩
  · intro f hf
    rcases List.mem_append.mp hf with hf | hf
    · exact h.fired f hf
    · obtain ⟨e, he, rfl⟩ := List.mem_map.mp hf
      exact h.timers e (mem_timers_of_expired he)
  · exact fun e he => h.own e (mem_timers_expire he)
  · exact fun t ht hzero => (h.oneShot t ht hzero).expire now
  · intro t ht hne
    refine (h.repeating t ht hne).expire ?_ now
    intro e he heq
    obtain ⟨u, -, htask⟩ := h.timers e he
    exact task_ne_callback t.id (htask.trans heq)

theorem count_eraseIdx {l : List Task} {i : ℕ} {x : Task} (h : l[i]? = some x) (y : Task) :
    l.count y = (l.eraseIdx i).count y + if x = y then 1 else 0 := by
  obtain ⟨hi, rfl⟩ := List.getElem?_eq_some_iff.mp h
  rw [← (List.getElem_cons_eraseIdx_perm hi).count_eq, List.count_cons]
  simp [beq_iff_eq]

theorem count_set {l : List Task} {i : ℕ} {x : Task} (h : l[i]? = some x) (y z : Task) :
    (l.set i y).count z + (if x = z then 1 else 0) = l.count z + if y = z then 1 else 0 := by
  have hset : (l.set i y)[i]? = some y := by
    obtain ⟨hi, -⟩ := List.getElem?_eq_some_iff.mp h
    simp [hi]
  rw [count_eraseIdx h z, count_eraseIdx hset z, List.eraseIdx_set_eq]
  omega

/-- A task that is executed to its end leaves the timers as they are. -/
theorem scheduled_execute_end (h : Scheduled r) {i : ℕ} {x : Task}
    (hi : r.dispatcher.pool[i]? = some x) (hx : ∀ id, x ≠ .again id)
    (hd : d = { r.dispatcher with pool := r.dispatcher.pool.eraseIdx i }) :
    Scheduled { r with dispatcher := d } := by
  have hview : ∀ t, SameView r { r with dispatcher := d } t := by
    intro t
    rw [hd]
    refine ⟨rfl, ?_, fun _ hmem => List.mem_of_mem_eraseIdx hmem, rfl, Iff.rfl, fun _ => rfl,
      fun e he _ => he⟩
    intro hne
    rw [count_eraseIdx hi, task_of_ne_zero hne, if_neg (hx t.id), Nat.add_zero]
  refine ⟨by rw [hd]; exact h.working, by rw [hd]; exact h.keys, by rw [hd]; exact h.ids, h.order,
    by rw [hd]; exact h.timers, ?_, h.fired, h.cancelled, by rw [hd]; exact h.own, ?_, ?_⟩
  · intro x hx
    rw [hd] at hx
    exact h.pool x (List.mem_of_mem_eraseIdx hx)
  · exact fun t ht hzero => (h.oneShot t ht hzero).sameView hzero (hview t)
  · exact fun t ht hne => (h.repeating t ht hne).sameView hne (hview t)

/-- A call of `repeat` in the pool is of a repeating timer. -/
theorem Scheduled.created_of_again (h : Scheduled r) {id : TimerId}
    (hpool : .again id ∈ r.dispatcher.pool) : ∃ t ∈ r.created, t.interval ≠ 0 ∧ t.id = id := by
  obtain ⟨t, ht, htask | ⟨-, htask⟩⟩ := h.pool _ hpool
  · by_cases hzero : t.interval = 0
    · rw [task_of_zero hzero] at htask
      simp at htask
    · rw [task_of_ne_zero hzero] at htask
      exact ⟨t, ht, hzero, Task.again.inj htask⟩
  · simp at htask

/-- The timer whose `repeat` is executed is pending again, one interval later. -/
theorem Repeating.rearm (h : Repeating r t) {task : RepeatableTask} {k : TimerId}
    (hfind : r.dispatcher.repeatableTimers.find? t.id = some task)
    (hpool : r.dispatcher.pool.count (.again t.id) = d.pool.count (.again t.id) + 1)
    (hpending : d.pending (.again t.id) = r.dispatcher.pending (.again t.id) + 1)
    (helement : d.repeatableTimers.find? t.id =
      some ⟨task.tp + task.interval, task.interval, k⟩)
    (hk : k.first = task.tp + task.interval)
    (hentry : ∀ e ∈ d.timers.entries, e = (k, .again t.id) ∨ e ∈ r.dispatcher.timers.entries) :
    Repeating { r with dispatcher := d } t := by
  obtain ⟨hlive, harmed⟩ := h.armed_of_element hfind
  have hone := harmed.count
  refine ⟨h.id, fun _ => ⟨_, helement, harmed.interval, ?_, ?_, ?_⟩, fun hc => absurd hc hlive,
    h.times⟩
  · show d.pending _ + d.pool.count _ = 1
    omega
  · have htp := harmed.tp
    have hzero : d.pool.count (.again t.id) = 0 := by omega
    rw [hpool, hzero] at htp
    show task.tp + task.interval + (d.pool.count (.again t.id) : ℤ) * t.interval =
      t.first + ((r.firings (.again t.id)).length : ℤ) * t.interval
    rw [hzero, harmed.interval]
    push_cast at htp ⊢
    linarith
  · intro e he htask
    rcases hentry e he with rfl | he
    · exact ⟨rfl, hk⟩
    · -- an old entry would be a second one
      have hzero : r.dispatcher.pending (.again t.id) = 0 := by omega
      exact absurd htask (pending_eq_zero.mp hzero e he)

/-- A call of `repeat` at position `i` of the pool has put the timer `id` back, with key `k`, and
has become a call of its callback. -/
structure Requeued (r : TimerRun) (i : ℕ) (id : TimerId) (task : RepeatableTask) (k : TimerId)
    (d : Dispatcher) : Prop where
  key : k = ⟨task.tp + task.interval, r.dispatcher.timeSeq + 1⟩
  working : d.working = r.dispatcher.working
  timeSeq : d.timeSeq = r.dispatcher.timeSeq + 1
  timers : d.timers = r.dispatcher.timers.insert k (.again id)
  repeatableTimers : d.repeatableTimers = r.dispatcher.repeatableTimers.insert id
    ⟨task.tp + task.interval, task.interval, k⟩
  pool : d.pool = r.dispatcher.pool.set i (.callback id)

theorem exists_requeued {i : ℕ} {id : TimerId} {u : Dispatcher}
    (hu : u = { r.dispatcher with pool := r.dispatcher.pool.set i (.callback id) })
    (hd : u.repeatTask id = some d) :
    ∃ task k, r.dispatcher.repeatableTimers.find? id = some task ∧ Requeued r i id task k d := by
  obtain ⟨task, hfind, hd⟩ := repeatTask_eq_some hd
  rw [hu] at hfind
  refine ⟨task, ⟨task.tp + task.interval, r.dispatcher.timeSeq + 1⟩, hfind, ?_⟩
  subst hu
  subst hd
  constructor <;> rfl

namespace Requeued

variable {i : ℕ} {id k : TimerId} {task : RepeatableTask}

theorem lt_key (hq : Requeued r i id task k d) : r.dispatcher.timeSeq < k.second := by
  rw [hq.key]
  exact Nat.lt_succ_self _

theorem count (hq : Requeued r i id task k d) (hi : r.dispatcher.pool[i]? = some (.again id))
    {x : Task} (hx : x ≠ .callback id) :
    r.dispatcher.pool.count x = d.pool.count x + if Task.again id = x then 1 else 0 := by
  have hset := count_set hi (.callback id) x
  rw [if_neg hx.symm] at hset
  rw [hq.pool]
  exact hset.symm

/-- The other timers are as they were. -/
theorem sameView (hq : Requeued r i id task k d) (h : Scheduled r)
    (hi : r.dispatcher.pool[i]? = some (.again id)) (ht : t.task ≠ .again id) :
    SameView r { r with dispatcher := d } t := by
  obtain ⟨hpend, hentry⟩ := h.entry_inserted hq.lt_key hq.timers
  refine ⟨?_, ?_, ?_, rfl, Iff.rfl, ?_, ?_⟩
  · rw [hpend, if_neg ht.symm, Nat.add_zero]
  · intro _
    rw [hq.count hi (task_ne_callback id), if_neg ht.symm, Nat.add_zero]
  · intro hne hmem
    rw [task_of_ne_zero hne] at ht
    rw [hq.pool] at hmem
    rcases List.mem_or_eq_of_mem_set hmem with hmem | heq
    · exact hmem
    · exact absurd (congrArg Task.again (Task.callback.inj heq)) ht
  · intro hne
    rw [task_of_ne_zero hne] at ht
    rw [hq.repeatableTimers]
    exact OrderedMap.find?_insert_of_ne fun heq => ht (by rw [heq])
  · intro e he htask
    rcases hentry e he with rfl | he
    · exact absurd htask.symm ht
    · exact he

/-- Its own timer is pending again. -/
theorem repeating (hq : Requeued r i t.id task k d) (h : Scheduled r)
    (hi : r.dispatcher.pool[i]? = some (.again t.id)) (hr : Repeating r t)
    (hfind : r.dispatcher.repeatableTimers.find? t.id = some task) :
    Repeating { r with dispatcher := d } t := by
  obtain ⟨hpend, hentry⟩ := h.entry_inserted hq.lt_key hq.timers
  refine hr.rearm (k := k) hfind ?_ ?_ ?_ (by rw [hq.key]) hentry
  · rw [hq.count hi (by simp), if_pos rfl]
  · rw [hpend, if_pos rfl]
  · rw [hq.repeatableTimers]
    exact OrderedMap.find?_insert_self ..

end Requeued

theorem scheduled_execute_again (h : Scheduled r) {i : ℕ} {id : TimerId} {u : Dispatcher}
    (hi : r.dispatcher.pool[i]? = some (.again id))
    (hu : u = { r.dispatcher with pool := r.dispatcher.pool.set i (.callback id) })
    (hd : u.repeatTask id = some d) : Scheduled { r with dispatcher := d } := by
  obtain ⟨task, k, hfind, hq⟩ := exists_requeued hu hd
  obtain ⟨-, hentry⟩ := h.entry_inserted hq.lt_key hq.timers
  obtain ⟨t₀, ht₀, hne₀, hid₀⟩ := h.created_of_again (List.mem_of_getElem? hi)
  have hnow := hq.timeSeq
  refine ⟨hq.working.trans h.working, ?_, ?_, h.order, ?_, ?_, h.fired, h.cancelled, ?_, ?_, ?_⟩
  · intro e he
    show e.1.second ≤ d.timeSeq
    rcases hentry e he with rfl | he
    · rw [hnow, hq.key]
    · have := h.keys e he
      omega
  · intro t ht
    have := h.ids t ht
    show t.id.second ≤ d.timeSeq
    omega
  · intro e he
    rcases hentry e he with rfl | he
    · exact ⟨t₀, ht₀, by rw [task_of_ne_zero hne₀, hid₀]⟩
    · exact h.timers e he
  · intro x hx
    rw [hq.pool] at hx
    rcases List.mem_or_eq_of_mem_set hx with hx | rfl
    · exact h.pool x hx
    · exact ⟨t₀, ht₀, Or.inr ⟨hne₀, by rw [hid₀]⟩⟩
  · intro e he t ht heq
    rcases hentry e he with rfl | he
    · have := h.ids t ht
      have := hq.lt_key
      dsimp only at heq
      omega
    · exact h.own e he t ht heq
  · intro t ht hzero
    exact (h.oneShot t ht hzero).sameView hzero (hq.sameView h hi (by simp [task_of_zero hzero]))
  · intro t ht hne
    by_cases hid : t.id = id
    · subst hid
      exact hq.repeating h hi (h.repeating t ht hne) hfind
    · have hother : t.task ≠ .again id := by
        rw [task_of_ne_zero hne]
        simpa using hid
      exact (h.repeating t ht hne).sameView hne (hq.sameView h hi hother)

theorem scheduled_execute (h : Scheduled r) {i : ℕ} (hd : r.dispatcher.execute i = some d) :
    Scheduled { r with dispatcher := d } := by
  obtain ⟨x, hi, hx, hd⟩ | ⟨id, u, hi, hu, hd⟩ := execute_cases hd
  · exact scheduled_execute_end h hi hx hd
  · exact scheduled_execute_again h hi hu hd

/-- Every call but `cancel` keeps the invariant. -/
theorem scheduled_call (h : Scheduled r) (hne : ∀ tid, a ≠ .cancel tid)
    (hs : r.step a = some q) : Scheduled q := by
  obtain ⟨tp, interval, x, hx, rfl⟩ | ⟨now, rfl⟩ | ⟨i, d, hd, rfl⟩ := call_cases hne hs
  · exact scheduled_record h hx
  · exact scheduled_expire h now
  · exact scheduled_execute h hd

end TimerRun

end AlphaDb.Network
