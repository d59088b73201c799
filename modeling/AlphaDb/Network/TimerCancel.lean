import AlphaDb.Network.TimerRuns

/-! What `cancel` does to a timer, and what can still happen to it afterwards. -/
namespace AlphaDb.Network

open Trace

namespace TimerRun

open Dispatcher

variable {r q : TimerRun} {a : TimerCall} {t u : Timer} {d : Dispatcher} {b : Bool}

/-- A timer that has not been cancelled and, if it fires once, has not fired. -/
def Live (r : TimerRun) (t : Timer) : Prop :=
  t.id ∉ r.cancelled ∧ (t.interval = 0 → r.firings t.task = [])

/-- A dispatcher without the entries of one timer. -/
structure Removed (r : TimerRun) (t : Timer) (d : Dispatcher) : Prop where
  timers : d.timers.entries = r.dispatcher.timers.entries.filter (·.2 ≠ t.task)
  repeatableTimers : d.repeatableTimers =
    if t.interval = 0 then r.dispatcher.repeatableTimers
    else r.dispatcher.repeatableTimers.erase t.id
  pool : d.pool = r.dispatcher.pool
  timeSeq : d.timeSeq = r.dispatcher.timeSeq
  working : d.working = r.dispatcher.working

/-- The condition before a `cancel`: the sign of the id says of which kind the timer is, and the
element of a repeating one is there, with its entry in `timers_`, and with no callback still to be
called. -/
def Cancellable (r : TimerRun) (t : Timer) : Prop :=
  if t.interval = 0 then 0 ≤ t.first
  else 0 < t.first ∧ (∃ task ∈ r.dispatcher.repeatableTimers.find? t.id,
    r.dispatcher.timers.find? task.timerId = some (.again t.id)) ∧
    .callback t.id ∉ r.dispatcher.pool

instance (r : TimerRun) (t : Timer) : Decidable (Cancellable r t) :=
  inferInstanceAs (Decidable (ite ..))

/-- Every `cancel` is of a timer that was created, and meets the condition; sequence numbers stay
in the range of their type. -/
def CancelsPending (r : TimerRun) : TimerCall → Prop
  | .cancel tid => ∃ t ∈ r.created, t.id = tid ∧ Cancellable r t
  | a => ∀ q ∈ r.step a, q.dispatcher.timeSeq < 2 ^ 63

instance : ∀ (r : TimerRun) (a : TimerCall), Decidable (r.CancelsPending a)
  | r, .cancel tid => inferInstanceAs (Decidable (∃ t ∈ r.created, t.id = tid ∧ Cancellable r t))
  | r, .handleTimeout _ | r, .runAt .. | r, .runAfter .. | r, .runEvery .. | r, .execute _ =>
    inferInstanceAs (Decidable (∀ q ∈ r.step _, _ < _))

theorem Scheduled.eq_of_id_eq (h : Scheduled r) (ht : t ∈ r.created) (hu : u ∈ r.created)
    (hid : t.id = u.id) : t = u := by
  have hnodup : (r.created.map Timer.id).Nodup :=
    List.pairwise_map.mpr (h.order.imp fun hlt heq => hlt.ne (congrArg TimerId.second heq))
  exact List.inj_on_of_nodup_map hnodup ht hu hid

/-- Taking out the key of the one entry of a task takes out the task. -/
theorem erase_eq_filter {k : TimerId} {x : Task}
    (hmem : (k, x) ∈ d.timers.entries) (hkey : ∀ e ∈ d.timers.entries, e.2 = x → e.1 = k) :
    (d.timers.erase k).entries = d.timers.entries.filter (·.2 ≠ x) := by
  refine List.filter_congr ?_
  intro e he
  have hiff : e.1 ≠ k ↔ e.2 ≠ x := by
    constructor
    · exact fun hne heq => hne (hkey e he heq)
    · intro hne heq
      exact hne (congrArg Prod.snd (OrderedMap.eq_of_key_eq he hmem heq))
  simp only [hiff]

/-- A one-shot timer is pending exactly when it is live. -/
theorem OneShot.live_iff (h : OneShot r t) (hzero : t.interval = 0) :
    Live r t ↔ ∃ e ∈ r.dispatcher.timers.entries, e.2 = .once t.id := by
  have hcount := h.count
  rw [← pending_pos]
  unfold Live
  rw [task_of_zero hzero]
  constructor
  · rintro ⟨hc, hf⟩
    rw [hf hzero, if_neg hc, List.length_nil] at hcount
    omega
  · intro hpos
    by_cases hc : t.id ∈ r.cancelled
    · rw [if_pos hc] at hcount
      omega
    · exact ⟨hc, fun _ => List.eq_nil_of_length_eq_zero (by omega)⟩

theorem cancel_oneShot (h : Scheduled r) (ht : t ∈ r.created) (hzero : t.interval = 0)
    (hpos : 0 ≤ t.first) :
    ∃ d b, r.dispatcher.cancel t.id = some (d, b) ∧ (b = true ↔ Live r t) ∧
      (b = false → d = r.dispatcher) ∧ Removed r t d := by
  have hone := h.oneShot t ht hzero
  have hid : ¬ t.id.first < 0 := by
    rw [hone.id]
    omega
  have hlive := hone.live_iff hzero
  cases hfind : r.dispatcher.timers.find? t.id with
  | none =>
    have hno : ¬ Live r t := by
      intro hl
      obtain ⟨e, he, htask⟩ := hlive.mp hl
      exact OrderedMap.find?_eq_none.mp hfind e he (hone.key e he htask)
    refine ⟨r.dispatcher, false, by simp [cancel, hid, hfind], by simpa using hno, fun _ => rfl, ?_⟩
    refine ⟨?_, by rw [if_pos hzero], rfl, rfl, rfl⟩
    refine (List.filter_eq_self.mpr ?_).symm
    intro e he
    rw [task_of_zero hzero]
    have : e.2 ≠ .once t.id := fun htask => hno (hlive.mpr ⟨e, he, htask⟩)
    simpa using this
  | some x =>
    have hmem := OrderedMap.find?_eq_some.mp hfind
    obtain rfl : x = .once t.id := h.own _ hmem t ht rfl
    refine ⟨{ r.dispatcher with timers := r.dispatcher.timers.erase t.id }, true, ?_, ?_, ?_, ?_⟩
    · simp only [cancel, if_neg hid, hfind, Option.isSome_some, if_true]
    · simpa using hlive.mpr ⟨_, hmem, rfl⟩
    · simp
    · refine ⟨?_, by rw [if_pos hzero], rfl, rfl, rfl⟩
      rw [task_of_zero hzero]
      exact erase_eq_filter hmem hone.key

theorem cancel_repeating (h : Scheduled r) (ht : t ∈ r.created) (hne : t.interval ≠ 0)
    (hpos : 0 < t.first) {task : RepeatableTask}
    (hfind : r.dispatcher.repeatableTimers.find? t.id = some task)
    (hentry : r.dispatcher.timers.find? task.timerId = some (.again t.id)) :
    ∃ d, r.dispatcher.cancel t.id = some (d, true) ∧ Live r t ∧ Removed r t d := by
  have hrep := h.repeating t ht hne
  have hid : t.id.first < 0 := by
    rw [hrep.id]
    omega
  obtain ⟨hlive, harmed⟩ := hrep.armed_of_element hfind
  refine ⟨{ r.dispatcher with
      timers := r.dispatcher.timers.erase task.timerId
      repeatableTimers := r.dispatcher.repeatableTimers.erase t.id }, ?_,
    ⟨hlive, fun hzero => absurd hzero hne⟩, ?_, by rw [if_neg hne], rfl, rfl, rfl⟩
  · simp only [cancel, if_pos hid, hfind, Option.map_some]
  rw [task_of_ne_zero hne]
  exact erase_eq_filter (OrderedMap.find?_eq_some.mp hentry) fun e he htask =>
    (harmed.key e he htask).1

/-- Under the condition `cancel` says whether the timer was live, and takes out its entries. -/
theorem cancel_spec (h : Scheduled r) (ht : t ∈ r.created) (hc : Cancellable r t) :
    ∃ d b, r.dispatcher.cancel t.id = some (d, b) ∧ (b = true ↔ Live r t) ∧
      (b = false → d = r.dispatcher) ∧ Removed r t d := by
  unfold Cancellable at hc
  by_cases hzero : t.interval = 0
  · rw [if_pos hzero] at hc
    exact cancel_oneShot h ht hzero hc
  · rw [if_neg hzero] at hc
    obtain ⟨hpos, ⟨task, hfind, hentry⟩, -⟩ := hc
    obtain ⟨d, hd, hlive, hremoved⟩ := cancel_repeating h ht hzero hpos hfind hentry
    exact ⟨d, true, hd, by simpa using hlive, by simp, hremoved⟩

/-- A timer other than the one removed is as it was. -/
theorem Removed.sameView (h : Scheduled r) (hd : Removed r t d) (ht : t ∈ r.created)
    (hu : u ∈ r.created) (hne : u ≠ t) {cancelled : List TimerId}
    (hc : u.id ∈ cancelled ↔ u.id ∈ r.cancelled) :
    SameView r { r with dispatcher := d, cancelled := cancelled } u := by
  have hid : u.id ≠ t.id := fun heq => hne (h.eq_of_id_eq hu ht heq)
  have htask : u.task ≠ t.task := fun heq => hid (id_eq_of_task_eq heq)
  refine ⟨?_, fun _ => by rw [hd.pool], fun _ hmem => hd.pool ▸ hmem, rfl, hc, ?_, ?_⟩
  · show d.timers.entries.countP _ = _
    rw [hd.timers, List.countP_filter]
    refine List.countP_congr ?_
    intro e _
    simp only [decide_eq_true_eq, Bool.and_eq_true, ne_eq, decide_not, Bool.not_eq_true',
      decide_eq_false_iff_not, and_iff_left_iff_imp]
    exact fun heq htask' => htask (heq.symm.trans htask')
  · intro _
    show d.repeatableTimers.find? _ = _
    rw [hd.repeatableTimers]
    split
    · rfl
    · exact OrderedMap.find?_erase_of_ne hid
  · intro e he _
    have he : e ∈ d.timers.entries := he
    rw [hd.timers] at he
    exact (List.mem_filter.mp he).1

theorem pending_of_removed (hd : Removed r t d) : d.pending t.task = 0 := by
  refine pending_eq_zero.mpr ?_
  intro e he
  rw [hd.timers] at he
  simpa using (List.mem_filter.mp he).2

/-- A live timer without its entries is a cancelled one. -/
theorem OneShot.removed (h : OneShot r t) (hzero : t.interval = 0) (hlive : Live r t)
    (hd : Removed r t d) :
    OneShot { r with dispatcher := d, cancelled := t.id :: r.cancelled } t := by
  have hpending := pending_of_removed hd
  obtain ⟨-, hfirings⟩ := hlive
  have hnil := hfirings hzero
  rw [task_of_zero hzero] at hpending hnil
  refine ⟨h.id, ?_, ?_, h.fired⟩
  · intro e he htask
    have he : e ∈ d.timers.entries := he
    rw [hd.timers] at he
    exact h.key e (List.mem_filter.mp he).1 htask
  · show d.pending _ + (r.firings _).length + (if t.id ∈ t.id :: r.cancelled then 1 else 0) = 1
    rw [hpending, hnil, if_pos List.mem_cons_self]
    rfl

theorem Repeating.removed (h : Repeating r t) (hne : t.interval ≠ 0)
    (hidle : r.dispatcher.pool.count (.again t.id) = 0 ∧ .callback t.id ∉ r.dispatcher.pool)
    (hd : Removed r t d) :
    Repeating { r with dispatcher := d, cancelled := t.id :: r.cancelled } t := by
  have hpending := pending_of_removed hd
  rw [task_of_ne_zero hne] at hpending
  refine ⟨h.id, fun hlive => absurd List.mem_cons_self hlive, fun _ => ⟨hpending, ?_, ?_, ?_⟩,
    h.times⟩
  · show d.pool.count _ = 0
    rw [hd.pool]
    exact hidle.1
  · show _ ∉ d.pool
    rw [hd.pool]
    exact hidle.2
  · show d.repeatableTimers.find? _ = none
    rw [hd.repeatableTimers, if_neg hne]
    exact OrderedMap.find?_erase_self ..

/-- A repeating timer that meets the condition is not in the pool. -/
theorem Scheduled.idle (h : Scheduled r) (ht : t ∈ r.created) (hne : t.interval ≠ 0)
    (hc : Cancellable r t) :
    r.dispatcher.pool.count (.again t.id) = 0 ∧ .callback t.id ∉ r.dispatcher.pool := by
  unfold Cancellable at hc
  rw [if_neg hne] at hc
  obtain ⟨-, ⟨task, hfind, hentry⟩, hcallback⟩ := hc
  refine ⟨?_, hcallback⟩
  obtain ⟨-, harmed⟩ := (h.repeating t ht hne).armed_of_element hfind
  have hpos : 0 < r.dispatcher.pending (.again t.id) :=
    pending_pos.mpr ⟨_, OrderedMap.find?_eq_some.mp hentry, rfl⟩
  have := harmed.count
  omega

theorem scheduled_removed (h : Scheduled r) (ht : t ∈ r.created) (hc : Cancellable r t)
    (hlive : Live r t) (hd : Removed r t d) :
    Scheduled { r with dispatcher := d, cancelled := t.id :: r.cancelled } := by
  have hentry : ∀ e ∈ d.timers.entries, e ∈ r.dispatcher.timers.entries := by
    intro e he
    rw [hd.timers] at he
    exact (List.mem_filter.mp he).1
  have hview : ∀ u ∈ r.created, u ≠ t →
      SameView r { r with dispatcher := d, cancelled := t.id :: r.cancelled } u := by
    intro u hu hne
    refine hd.sameView h ht hu hne ?_
    have hid : u.id ≠ t.id := fun heq => hne (h.eq_of_id_eq hu ht heq)
    simp [hid]
  refine ⟨hd.working.trans h.working, ?_, ?_, h.order, ?_, ?_, h.fired, ?_, ?_, ?_, ?_⟩
  · intro e he
    show e.1.second ≤ d.timeSeq
    rw [hd.timeSeq]
    exact h.keys e (hentry e he)
  · intro u hu
    show u.id.second ≤ d.timeSeq
    rw [hd.timeSeq]
    exact h.ids u hu
  · exact fun e he => h.timers e (hentry e he)
  · intro x hx
    exact h.pool x (hd.pool ▸ hx)
  · intro id hid
    rcases List.mem_cons.mp hid with rfl | hid
    · exact ⟨t, ht, rfl⟩
    · exact h.cancelled id hid
  · exact fun e he => h.own e (hentry e he)
  · intro u hu hzero
    by_cases hut : u = t
    · subst hut
      exact (h.oneShot u hu hzero).removed hzero hlive hd
    · exact (h.oneShot u hu hzero).sameView hzero (hview u hu hut)
  · intro u hu hne
    by_cases hut : u = t
    · subst hut
      exact (h.repeating u hu hne).removed hne (h.idle hu hne hc) hd
    · exact (h.repeating u hu hne).sameView hne (hview u hu hut)

theorem scheduled_step : TrInv (Guarded CancelsPending step) Scheduled := by
  rintro r a q ⟨hc, hs⟩ h
  by_cases hcancel : ∃ tid, a = .cancel tid
  · obtain ⟨tid, rfl⟩ := hcancel
    obtain ⟨t, ht, rfl, hc⟩ := hc
    obtain ⟨d, b, hd, hlive, hsame, hremoved⟩ := cancel_spec h ht hc
    obtain ⟨x, hx, rfl⟩ := Option.map_eq_some_iff.mp hs
    obtain rfl := Option.some.inj (hd.symm.trans hx)
    cases b with
    | true => exact scheduled_removed h ht hc (hlive.mp rfl) hremoved
    | false =>
      obtain rfl := hsame rfl
      exact h
  · exact scheduled_call h (fun tid heq => hcancel ⟨tid, heq⟩) hs

/-- A callback in the pool is of a repeating timer. -/
theorem Scheduled.created_of_callback (h : Scheduled r) {id : TimerId}
    (hpool : .callback id ∈ r.dispatcher.pool) : ∃ t ∈ r.created, t.interval ≠ 0 ∧ t.id = id := by
  obtain ⟨t, ht, htask | ⟨hne, htask⟩⟩ := h.pool _ hpool
  · exact absurd htask (task_ne_callback id)
  · exact ⟨t, ht, hne, Task.callback.inj htask⟩

/-- The element of a task in the pool is there. -/
theorem Scheduled.element_of_pool (h : Scheduled r) {id : TimerId}
    (hpool : .again id ∈ r.dispatcher.pool ∨ .callback id ∈ r.dispatcher.pool) :
    (r.dispatcher.repeatableTimers.find? id).isSome = true := by
  obtain ⟨t, ht, hne, rfl⟩ : ∃ t ∈ r.created, t.interval ≠ 0 ∧ t.id = id := by
    rcases hpool with hpool | hpool
    · exact h.created_of_again hpool
    · exact h.created_of_callback hpool
  have hrep := h.repeating t ht hne
  have hlive : t.id ∉ r.cancelled := by
    intro hc
    obtain ⟨-, hcount, hnone, -⟩ := hrep.cancelled hc
    rcases hpool with hpool | hpool
    · exact List.count_eq_zero.mp hcount hpool
    · exact hnone hpool
  obtain ⟨task, harmed⟩ := hrep.armed hlive
  rw [harmed.element]
  rfl

/-- A cancelled timer has no entry. -/
theorem Scheduled.entries_of_cancelled (h : Scheduled r) (ht : t ∈ r.created)
    (hc : t.id ∈ r.cancelled) : ∀ e ∈ r.dispatcher.timers.entries, e.2 ≠ t.task := by
  have hzero : r.dispatcher.pending t.task = 0 := by
    by_cases hi : t.interval = 0
    · have hcount := (h.oneShot t ht hi).count
      rw [if_pos hc] at hcount
      rw [task_of_zero hi]
      omega
    · rw [task_of_ne_zero hi]
      exact ((h.repeating t ht hi).cancelled hc).1
  exact pending_eq_zero.mp hzero

end TimerRun

end AlphaDb.Network
