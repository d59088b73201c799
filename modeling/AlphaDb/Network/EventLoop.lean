import AlphaDb.Network.TimerRuns

/-! The loop of a dispatcher against the clock (`network/dispatcher`): how late a timer can be, and
when the loop is left. The thread of the loop takes at most `slack` milliseconds for each of its
moves, and the poller as much beyond its timeout. -/
namespace AlphaDb.Network

open Trace Dispatcher

/-- The conversion to `int`. -/
def int32 (v : ℤ) : ℤ := v.bmod (2 ^ 32)

def defaultTimeouts : ℤ := 10000

/-- The time that `update_next_timeout` sets. -/
def Dispatcher.updateNextTimeout (d : Dispatcher) (now : ℤ) : Option ℤ :=
  match d.timers.entries with
  | [] => some maxTimeouts
  | e :: _ => (int64 (e.1.first - now)).map fun v => if int32 v ≤ 0 then 0 else int32 v

/-- Where the thread of the loop is: before the test of `working_`, behind it, in the poller, before
`handle_timeout`, or behind the loop. -/
inductive Place
  | test
  | enter
  | polling
  | handling
  | left
  deriving DecidableEq, Repr

/-- A task enqueued by `handle_timeout`, with what was recorded of its entry. -/
structure LoopFiring where
  clock : ℤ
  key : TimerId
  since : ℤ
  noticed : ℤ
  deriving DecidableEq, Repr

/-- The loop: `last` is the `loop_once` behind it, and by `deadline` its thread has moved on. Of an
entry of `timers_` it is recorded when it was put in, and when the poller could take it into account
at first: an entry that comes while it waits has to wait with it. -/
structure EventLoop where
  dispatcher : Dispatcher
  nextTimeout : ℤ
  wakeups : ℕ
  place : Place
  last : Bool
  clock : ℤ
  deadline : ℤ
  since : TimerId → ℤ
  noticed : TimerId → ℤ
  fired : List LoopFiring
  exited : Option ℤ

/-- Time passes; the thread of the loop moves; some thread calls the dispatcher. -/
inductive LoopStep
  | tick (now : ℤ)
  | test
  | poll
  | awake (woken : Bool)
  | handleTimeout
  | runAt (tp interval : ℤ)
  | runAfter (ms : ℤ)
  | runEvery (ms interval : ℤ)
  | execute (i : ℕ)
  | cancel (tid : TimerId)
  | exit
  deriving DecidableEq, Repr

/-- All but the moves of the thread of the loop, the passing of time and `exit`. -/
def LoopStep.IsCall : LoopStep → Prop
  | .runAt .. | .runAfter _ | .runEvery .. | .execute _ | .cancel _ => True
  | _ => False

/-- The moves from the end of the last `handle_timeout`. -/
def Place.rank : Place → ℕ
  | .test => 1
  | .enter => 1
  | .polling => 2
  | .handling => 3
  | .left => 4

namespace EventLoop

variable {slack : ℕ} {s t : EventLoop} {a : LoopStep} {k : TimerId} {d : Dispatcher}

def start (now : ℤ) (slack : ℕ) : EventLoop where
  dispatcher := ⟨true, 0, .empty, .empty, []⟩
  nextTimeout := maxTimeouts
  wakeups := 0
  place := .test
  last := false
  clock := now
  deadline := now + slack
  since _ := now
  noticed _ := now
  fired := []
  exited := none

/-- After entries were put into `timers_`, and the next timeout was updated. -/
def inserted (s : EventLoop) (d : Dispatcher) : Option EventLoop :=
  (d.updateNextTimeout s.clock).map fun next =>
    { s with
      dispatcher := d
      nextTimeout := next
      since := fun k => if (s.dispatcher.timers.find? k).isSome then s.since k else s.clock
      noticed := fun k =>
        if (s.dispatcher.timers.find? k).isSome then s.noticed k
        else if s.place = .polling then s.deadline else s.clock }

/-- A call of `run_at` leaves the dispatcher like this. A dispatcher that does not work any more
has done nothing. -/
def ran (s : EventLoop) (x : Option (Dispatcher × TimerId)) : Option EventLoop :=
  if s.dispatcher.working then x.bind fun x => s.inserted x.1 else x.map fun _ => s

/-- The timeout for the poller: `min(ms, next_timeout_)`, but a byte in the pipe ends the wait. -/
def timeout (s : EventLoop) : ℤ :=
  if 0 < s.wakeups then 0 else min (if s.last then 0 else defaultTimeouts) s.nextTimeout

/-- The loop after a `handle_timeout`. -/
def handled (slack : ℕ) (s : EventLoop) (next : ℤ) : EventLoop :=
  { s with
    dispatcher := s.dispatcher.handleTimeout s.clock
    nextTimeout := next
    fired := s.fired ++ (s.dispatcher.expired s.clock).map fun e =>
      ⟨s.clock, e.1, s.since e.1, s.noticed e.1⟩
    place := if s.last then .left else .test
    deadline := s.clock + slack }

def step (slack : ℕ) (s : EventLoop) : LoopStep → Option EventLoop
  | .tick now =>
    if s.clock ≤ now ∧ (s.place = .left ∨ now ≤ s.deadline) then some { s with clock := now }
    else none
  | .test =>
    if s.place = .test then
      if s.dispatcher.working then some { s with place := .enter }
      else
        some { s with
          dispatcher := { s.dispatcher with timers := .empty, repeatableTimers := .empty }
          last := true
          place := .enter }
    else none
  | .poll =>
    if s.place = .enter then
      some { s with place := .polling, deadline := s.clock + s.timeout + slack }
    else none
  | .awake woken =>
    if s.place = .polling ∧ (woken → 0 < s.wakeups) then
      some { s with
        place := .handling
        deadline := s.clock + slack
        wakeups := if woken then s.wakeups - 1 else s.wakeups }
    else none
  | .handleTimeout =>
    if s.place = .handling then
      ((s.dispatcher.handleTimeout s.clock).updateNextTimeout s.clock).map (s.handled slack)
    else none
  | .runAt tp interval => s.ran (s.dispatcher.runAt tp interval)
  | .runAfter ms => s.ran (s.dispatcher.runAfter s.clock ms)
  | .runEvery ms interval => s.ran (s.dispatcher.runEvery s.clock ms interval)
  | .execute i =>
    match s.dispatcher.pool[i]? with
    | some (.again _) => (s.dispatcher.execute i).bind s.inserted
    | _ => (s.dispatcher.execute i).map fun d => { s with dispatcher := d }
  | .cancel tid => (s.dispatcher.cancel tid).map fun x => { s with dispatcher := x.1 }
  | .exit =>
    some { s with
      dispatcher := { s.dispatcher with working := false }
      wakeups := s.wakeups + 1
      deadline := if s.place = .polling then min s.deadline (s.clock + slack) else s.deadline
      exited := some (s.exited.getD s.clock) }

/-- Nothing is put into `timers_` for a time more than 12 days ago, which `update_next_timeout`
could take for a time to come when it converts the difference to `int`. -/
def Recent (slack : ℕ) (s : EventLoop) (a : LoopStep) : Prop :=
  ∀ t ∈ s.step slack a, ∀ e ∈ t.dispatcher.timers.entries,
    (s.dispatcher.timers.find? e.1).isSome = true ∨ s.clock - 2 ^ 30 ≤ e.1.first

instance (slack : ℕ) (s : EventLoop) (a : LoopStep) : Decidable (s.Recent slack a) :=
  inferInstanceAs (Decidable (∀ t ∈ s.step slack a, ∀ e ∈ t.dispatcher.timers.entries, _))

/-- There is an entry with this key. -/
def Waiting (s : EventLoop) (k : TimerId) : Prop := ∃ e ∈ s.dispatcher.timers.entries, e.1 = k

theorem isSome_iff_waiting : (s.dispatcher.timers.find? k).isSome = true ↔ s.Waiting k := by
  rw [Option.isSome_iff_exists]
  constructor
  · rintro ⟨x, hx⟩
    exact ⟨(k, x), OrderedMap.find?_eq_some.mp hx, rfl⟩
  · rintro ⟨⟨k, x⟩, hx, rfl⟩
    exact ⟨x, OrderedMap.find?_eq_some.mpr hx⟩

/-- A dispatcher that does not work any more and has lost its timers. -/
structure Idle (d : Dispatcher) : Prop where
  working : d.working = false
  timers : d.timers.entries = []
  repeatableTimers : d.repeatableTimers.entries = []

/-- Nothing new is put into the maps. -/
structure Quiet (d e : Dispatcher) : Prop where
  working : e.working = d.working
  timers : ∀ x ∈ e.timers.entries, x ∈ d.timers.entries
  repeatableTimers : ∀ x ∈ e.repeatableTimers.entries, x ∈ d.repeatableTimers.entries

theorem Quiet.idle {e : Dispatcher} (hq : Quiet d e) (h : Idle d) : Idle e where
  working := hq.working.trans h.working
  timers := List.eq_nil_iff_forall_not_mem.mpr fun x hx => by simpa [h.timers] using hq.timers x hx
  repeatableTimers := List.eq_nil_iff_forall_not_mem.mpr fun x hx => by
    simpa [h.repeatableTimers] using hq.repeatableTimers x hx

/-- A call puts entries into `timers_`, which a dispatcher that is idle does not do, or nothing. -/
def Called (s t : EventLoop) : Prop :=
  (∃ d, Quiet s.dispatcher d ∧ t = { s with dispatcher := d }) ∨
    ∃ d, ¬ Idle s.dispatcher ∧ d.working = s.dispatcher.working ∧ s.inserted d = some t

theorem called_ran {x : Option (Dispatcher × TimerId)} (hs : s.ran x = some t)
    (hx : ∀ y, x = some y → y.1.working = s.dispatcher.working) : Called s t := by
  unfold ran at hs
  split at hs
  · next hw =>
    obtain ⟨y, hy, hs⟩ := Option.bind_eq_some_iff.mp hs
    exact .inr ⟨y.1, fun h => by simp [h.working] at hw, hx y hy, hs⟩
  · obtain ⟨y, -, rfl⟩ := Option.map_eq_some_iff.mp hs
    exact .inl ⟨s.dispatcher, ⟨rfl, fun _ hx => hx, fun _ hx => hx⟩, rfl⟩

theorem runAt_working {tp interval : ℤ} {y : Dispatcher × TimerId}
    (h : d.runAt tp interval = some y) : y.1.working = d.working := by
  by_cases hw : d.working = true
  · obtain ⟨e, tid⟩ := y
    obtain ⟨-, -, rfl⟩ | ⟨-, -, rfl⟩ := runAt_cases hw h <;> rfl
  · rw [runAt, if_pos (by simpa using hw)] at h
    obtain rfl := Option.some.inj h
    rfl

theorem called_execute {i : ℕ} (hs : s.step slack (.execute i) = some t) : Called s t := by
  simp only [step] at hs
  split at hs
  · next id hi =>
    obtain ⟨d, hd, hs⟩ := Option.bind_eq_some_iff.mp hs
    obtain ⟨x, hx, hne, -⟩ | ⟨id, u, -, rfl, hd⟩ := execute_cases hd
    · rw [hi] at hx
      exact absurd (Option.some.inj hx).symm (hne id)
    · obtain ⟨task, hfind, hd⟩ := repeatTask_eq_some hd
      refine .inr ⟨d, fun h => ?_, by rw [hd], hs⟩
      have hmem := OrderedMap.find?_eq_some.mp hfind
      simp [h.repeatableTimers] at hmem
  · next hi =>
    obtain ⟨d, hd, rfl⟩ := Option.map_eq_some_iff.mp hs
    obtain ⟨x, -, -, hd⟩ | ⟨id, u, hi', -⟩ := execute_cases hd
    · exact .inl ⟨d, by subst hd; exact ⟨rfl, fun _ hx => hx, fun _ hx => hx⟩, rfl⟩
    · exact absurd hi' (hi id)

theorem called_cancel {tid : TimerId} (hs : s.step slack (.cancel tid) = some t) : Called s t := by
  obtain ⟨⟨d, b⟩, hd, rfl⟩ := Option.map_eq_some_iff.mp hs
  refine .inl ⟨d, ?_, rfl⟩
  unfold cancel at hd
  split at hd
  · obtain ⟨task, -, hd⟩ := Option.map_eq_some_iff.mp hd
    obtain ⟨rfl, -⟩ := Prod.mk.inj hd
    exact ⟨rfl, fun x hx => (List.mem_filter.mp hx).1, fun x hx => (List.mem_filter.mp hx).1⟩
  · split at hd
    · obtain ⟨rfl, -⟩ := Prod.mk.inj (Option.some.inj hd)
      exact ⟨rfl, fun x hx => (List.mem_filter.mp hx).1, fun _ hx => hx⟩
    · obtain ⟨rfl, -⟩ := Prod.mk.inj (Option.some.inj hd)
      exact ⟨rfl, fun _ hx => hx, fun _ hx => hx⟩

theorem working_of_bind {v interval : ℤ} {y : Dispatcher × TimerId}
    (hy : ((int64 v).bind fun tp => d.runAt tp interval) = some y) :
    y.1.working = d.working := by
  obtain ⟨tp, -, hy⟩ := Option.bind_eq_some_iff.mp hy
  exact runAt_working hy

theorem called_step (ha : a.IsCall) (hs : s.step slack a = some t) : Called s t := by
  cases a with
  | runAt tp interval => exact called_ran hs fun _ => runAt_working
  | runAfter ms => exact called_ran hs fun _ => working_of_bind
  | runEvery ms interval => exact called_ran hs fun _ => working_of_bind
  | execute i => exact called_execute hs
  | cancel tid => exact called_cancel hs
  | _ => exact ha.elim

/-- The thread of the loop moves on in time: it has not missed its deadline, which is near, but in
the poller. -/
structure Timely (slack : ℕ) (s : EventLoop) : Prop where
  ended : s.last = true → Idle s.dispatcher
  left : s.place = .left → s.last = true
  onTime : s.place ≠ .left → s.clock ≤ s.deadline
  ahead : s.place ≠ .left →
    s.deadline ≤ s.clock + (if s.place = .polling then defaultTimeouts else 0) + slack
  positive : 0 ≤ s.nextTimeout

theorem timely_start (now : ℤ) : Timely slack (start now slack) := by
  refine ⟨?_, ?_, ?_, ?_, ?_⟩ <;> simp [start]

theorem Timely.place_ne_left (h : Timely slack s) (hidle : ¬ Idle s.dispatcher) :
    s.last = false ∧ s.place ≠ .left := by
  have hlast : s.last = false := by
    by_contra hl
    exact hidle (h.ended (by simpa using hl))
  exact ⟨hlast, fun hp => by simp [h.left hp] at hlast⟩

theorem Timely.tick {now : ℤ} (h : Timely slack s) (hle : s.clock ≤ now)
    (hdue : s.place = .left ∨ now ≤ s.deadline) : Timely slack { s with clock := now } := by
  refine ⟨h.ended, h.left, fun hp => hdue.resolve_left hp, ?_, h.positive⟩
  intro hp
  have := h.ahead hp
  dsimp only
  omega

theorem Timely.test (h : Timely slack s) (hp : s.place = .test) :
    Timely slack { s with place := .enter } := by
  have hne : s.place ≠ .left := by simp [hp]
  have hahead := h.ahead hne
  rw [if_neg (by simp [hp])] at hahead
  exact ⟨h.ended, by simp, fun _ => h.onTime hne, fun _ => by simpa using hahead, h.positive⟩

theorem Timely.clear (h : Timely slack s) (hp : s.place = .test)
    (hw : s.dispatcher.working = false) : Timely slack { s with
      dispatcher := { s.dispatcher with timers := .empty, repeatableTimers := .empty }
      last := true
      place := .enter } :=
  ⟨fun _ => ⟨hw, rfl, rfl⟩, fun _ => rfl, (h.test hp).onTime, (h.test hp).ahead, h.positive⟩

theorem timeout_le : s.timeout ≤ defaultTimeouts := by
  unfold timeout
  split
  · decide
  · split
    · exact (min_le_left _ _).trans (by decide)
    · exact min_le_left _ _

theorem timeout_nonneg (h : 0 ≤ s.nextTimeout) : 0 ≤ s.timeout := by
  unfold timeout
  split
  · exact le_rfl
  · refine le_min ?_ h
    split <;> decide

theorem timeout_le_next (h : 0 ≤ s.nextTimeout) : s.timeout ≤ s.nextTimeout := by
  unfold timeout
  split
  · exact h
  · exact min_le_right _ _

theorem Timely.poll (h : Timely slack s) : Timely slack { s with
    place := .polling, deadline := s.clock + s.timeout + slack } := by
  refine ⟨h.ended, by simp, ?_, ?_, h.positive⟩
  · intro _
    have := timeout_nonneg h.positive
    dsimp only
    omega
  · intro _
    have := timeout_le (s := s)
    rw [if_pos rfl]
    dsimp only
    omega

theorem Timely.awake {n : ℕ} (h : Timely slack s) : Timely slack { s with
    place := .handling, deadline := s.clock + slack, wakeups := n } := by
  refine ⟨h.ended, by simp, ?_, ?_, h.positive⟩
  · intro _
    dsimp only
    omega
  · intro _
    simp

theorem updateNextTimeout_nonneg {now next : ℤ} (h : d.updateNextTimeout now = some next) :
    0 ≤ next := by
  unfold updateNextTimeout at h
  split at h
  · obtain rfl := Option.some.inj h
    decide
  · obtain ⟨v, -, rfl⟩ := Option.map_eq_some_iff.mp h
    split <;> omega

theorem inserted_eq_some (h : s.inserted d = some t) : ∃ next,
    d.updateNextTimeout s.clock = some next ∧ t = { s with
      dispatcher := d, nextTimeout := next, since := t.since, noticed := t.noticed } ∧
    (∀ k, s.Waiting k → t.since k = s.since k ∧ t.noticed k = s.noticed k) ∧
    ∀ k, ¬ s.Waiting k → t.since k = s.clock ∧
      t.noticed k = if s.place = .polling then s.deadline else s.clock := by
  obtain ⟨next, hnext, rfl⟩ := Option.map_eq_some_iff.mp h
  refine ⟨next, hnext, rfl, ?_, ?_⟩
  · intro k hk
    simp [isSome_iff_waiting.mpr hk]
  · intro k hk
    rw [← isSome_iff_waiting] at hk
    simp [hk]

theorem Timely.insert (h : Timely slack s) (hidle : ¬ Idle s.dispatcher)
    (hi : s.inserted d = some t) : Timely slack t := by
  obtain ⟨hlast, hplace⟩ := h.place_ne_left hidle
  obtain ⟨next, hnext, ht, -⟩ := inserted_eq_some hi
  rw [ht]
  exact ⟨fun hl => by simp [hlast] at hl, h.left, h.onTime, h.ahead, updateNextTimeout_nonneg hnext⟩

theorem Timely.quiet (h : Timely slack s) (hq : Quiet s.dispatcher d) :
    Timely slack { s with dispatcher := d } :=
  ⟨fun hl => hq.idle (h.ended hl), h.left, h.onTime, h.ahead, h.positive⟩

/-- What a `handle_timeout` leaves is not due. -/
theorem le_of_handled {now : ℤ} {e : TimerId × Task}
    (he : e ∈ (d.handleTimeout now).timers.entries) : e ∈ d.timers.entries ∧ now ≤ e.1.first := by
  have hmem : e ∈ d.timers.entries := (List.dropWhile_sublist _).subset he
  refine ⟨hmem, ?_⟩
  by_contra hlt
  have hearly : e.1 < ⟨now, maxTimeouts⟩ := TimerId.lt_iff.mpr (.inl (not_le.mp hlt))
  have hbefore := OrderedMap.mem_before hmem hearly
  have hsorted := d.timers.sorted
  rw [← OrderedMap.before_append_behind d.timers ⟨now, maxTimeouts⟩] at hsorted
  exact lt_irrefl _ ((List.pairwise_append.mp hsorted).2.2 e hbefore e he)

theorem quiet_handleTimeout (now : ℤ) : Quiet d (d.handleTimeout now) :=
  ⟨rfl, fun _ he => (le_of_handled he).1, fun _ he => he⟩

theorem Timely.handle {next : ℤ} (h : Timely slack s)
    (hnext : (s.dispatcher.handleTimeout s.clock).updateNextTimeout s.clock = some next) :
    Timely slack (s.handled slack next) := by
  have hplace : (s.handled slack next).place ≠ .polling := by
    unfold handled
    split <;> simp
  refine ⟨fun hl => (quiet_handleTimeout _).idle (h.ended hl), ?_, ?_, ?_,
    updateNextTimeout_nonneg hnext⟩
  · intro hl
    by_contra hlast
    simp [handled] at hl hlast
    simp [hlast] at hl
  · intro _
    simp [handled]
  · intro _
    rw [if_neg hplace]
    simp [handled]

theorem exit_deadline :
    (if s.place = .polling then min s.deadline (s.clock + slack) else s.deadline) ≤
      s.deadline := by
  split
  · exact min_le_left _ _
  · exact le_rfl

theorem Timely.exit (h : Timely slack s) (hs : s.step slack .exit = some t) : Timely slack t := by
  obtain rfl := Option.some.inj hs
  refine ⟨?_, h.left, ?_, fun hp => exit_deadline.trans (h.ahead hp), h.positive⟩
  · intro hl
    obtain ⟨-, htimers, hrepeatable⟩ := h.ended hl
    exact ⟨rfl, htimers, hrepeatable⟩
  · intro hp
    have := h.onTime hp
    dsimp only
    split <;> omega

theorem timely_step : TrInv (fun s a t => step slack s a = some t) (Timely slack) := by
  intro s a t hs h
  by_cases ha : a.IsCall
  · obtain ⟨d, hq, rfl⟩ | ⟨d, hidle, -, hi⟩ := called_step ha hs
    · exact h.quiet hq
    · exact h.insert hidle hi
  cases a with
  | tick now =>
    obtain ⟨⟨hle, hdue⟩, hs⟩ := Option.ite_none_right_eq_some.mp hs
    exact Option.some.inj hs ▸ h.tick hle hdue
  | test =>
    obtain ⟨hp, hs⟩ := Option.ite_none_right_eq_some.mp hs
    split at hs
    · exact Option.some.inj hs ▸ h.test hp
    · next hw => exact Option.some.inj hs ▸ h.clear hp (by simpa using hw)
  | poll =>
    obtain ⟨-, hs⟩ := Option.ite_none_right_eq_some.mp hs
    exact Option.some.inj hs ▸ h.poll
  | awake woken =>
    obtain ⟨-, hs⟩ := Option.ite_none_right_eq_some.mp hs
    exact Option.some.inj hs ▸ h.awake
  | handleTimeout =>
    obtain ⟨-, hs⟩ := Option.ite_none_right_eq_some.mp hs
    obtain ⟨next, hnext, rfl⟩ := Option.map_eq_some_iff.mp hs
    exact h.handle hnext
  | exit => exact h.exit hs
  | _ => exact absurd trivial ha

/-- At `u` the next timeout was right for the entries that wait. -/
def Next (s : EventLoop) (u : ℤ) : Prop := ∀ k, Waiting s k → s.nextTimeout ≤ max 0 (k.first - u)

/-- Nothing that waits is late yet, and nothing has fired late. -/
structure Punctual (slack : ℕ) (s : EventLoop) : Prop extends Timely slack s where
  since : ∀ k, Waiting s k → s.since k ≤ s.clock ∧ s.since k - 2 ^ 30 ≤ k.first
  noticed : ∀ k, Waiting s k → s.noticed k ≤ s.since k + defaultTimeouts + slack
  bound : ∀ k, Waiting s k → s.deadline ≤ max (s.noticed k) k.first + s.place.rank * slack
  next : ∃ u ≤ s.clock, (s.place = .test ∨ s.place = .enter → s.deadline ≤ u + slack) ∧ s.Next u
  fired : ∀ f ∈ s.fired, f.key.first ≤ f.clock ∧
    f.clock ≤ max f.noticed f.key.first + 3 * slack ∧ f.noticed ≤ f.since + defaultTimeouts + slack

theorem not_waiting_of_idle (h : Idle s.dispatcher) : ¬ Waiting s k := by
  rintro ⟨e, he, -⟩
  simp [h.timers] at he

/-- A loop without timers has none that is late. -/
theorem punctual_of_empty (h : Timely slack s) (hnone : ∀ k, ¬ Waiting s k)
    (hfired : ∀ f ∈ s.fired, f.key.first ≤ f.clock ∧
      f.clock ≤ max f.noticed f.key.first + 3 * slack ∧
      f.noticed ≤ f.since + defaultTimeouts + slack)
    (hnext : ∃ u ≤ s.clock, s.place = .test ∨ s.place = .enter → s.deadline ≤ u + slack) :
    Punctual slack s := by
  obtain ⟨u, hu, hentered⟩ := hnext
  exact ⟨h, fun k hk => absurd hk (hnone k), fun k hk => absurd hk (hnone k),
    fun k hk => absurd hk (hnone k), ⟨u, hu, hentered, fun k hk => absurd hk (hnone k)⟩, hfired⟩

theorem punctual_start (now : ℤ) : Punctual slack (start now slack) := by
  refine punctual_of_empty (timely_start now) ?_ (by simp [start]) ⟨now, le_rfl, fun _ => le_rfl⟩
  rintro k ⟨e, he, -⟩
  simp [start, OrderedMap.empty] at he

theorem Punctual.tick {now : ℤ} (h : Punctual slack s) (hle : s.clock ≤ now)
    (hdue : s.place = .left ∨ now ≤ s.deadline) : Punctual slack { s with clock := now } := by
  obtain ⟨u, hu, hentered, hnext⟩ := h.next
  refine ⟨h.toTimely.tick hle hdue, ?_, h.noticed, h.bound, ⟨u, hu.trans hle, hentered, hnext⟩,
    h.fired⟩
  intro k hk
  obtain ⟨hclock, hrecent⟩ := h.since k hk
  exact ⟨hclock.trans hle, hrecent⟩

theorem Punctual.test (h : Punctual slack s) (hp : s.place = .test) :
    Punctual slack { s with place := .enter } := by
  obtain ⟨u, hu, hentered, hnext⟩ := h.next
  refine ⟨h.toTimely.test hp, h.since, h.noticed, ?_, ⟨u, hu, fun _ => hentered (.inl hp), hnext⟩,
    h.fired⟩
  intro k hk
  have hbound := h.bound k hk
  rw [hp] at hbound
  exact hbound

theorem Punctual.clear (h : Punctual slack s) (hp : s.place = .test)
    (hw : s.dispatcher.working = false) : Punctual slack { s with
      dispatcher := { s.dispatcher with timers := .empty, repeatableTimers := .empty }
      last := true
      place := .enter } := by
  obtain ⟨u, hu, hentered, -⟩ := h.next
  exact punctual_of_empty (h.toTimely.clear hp hw) (fun k => not_waiting_of_idle ⟨hw, rfl, rfl⟩)
    h.fired ⟨u, hu, fun _ => hentered (.inl hp)⟩

theorem Punctual.poll (h : Punctual slack s) (hp : s.place = .enter) : Punctual slack { s with
    place := .polling, deadline := s.clock + s.timeout + slack } := by
  have hclock := h.onTime (by simp [hp])
  obtain ⟨u, hu, hentered, hnext⟩ := h.next
  have hsince := hentered (.inr hp)
  refine ⟨h.toTimely.poll, h.since, h.noticed, ?_, ⟨u, hu, by simp, hnext⟩, h.fired⟩
  -- the poller was told of every entry that waits, at most `slack` before
  intro k hk
  have hbound := h.bound k hk
  have htold := (timeout_le_next h.positive).trans (hnext k hk)
  rw [hp] at hbound
  simp only [Place.rank] at hbound ⊢
  push_cast at hbound ⊢
  omega

theorem Punctual.awake {n : ℕ} (h : Punctual slack s) (hp : s.place = .polling) :
    Punctual slack { s with
      place := .handling, deadline := s.clock + slack, wakeups := n } := by
  have hclock := h.onTime (by simp [hp])
  obtain ⟨u, hu, -, hnext⟩ := h.next
  refine ⟨h.toTimely.awake, h.since, h.noticed, ?_, ⟨u, hu, by simp, hnext⟩, h.fired⟩
  intro k hk
  have hbound := h.bound k hk
  rw [hp] at hbound
  simp only [Place.rank] at hbound ⊢
  push_cast at hbound ⊢
  omega

theorem int32_le {v : ℤ} (h : -2 ^ 31 ≤ v) : int32 v ≤ max 0 v := by
  have hlt : int32 v < 2 ^ 31 := (Int.bmod_lt (by norm_num)).trans_le (by norm_num)
  by_cases hv : v < 2 ^ 31
  · rw [int32, Int.bmod_eq_of_le (by norm_num; omega) (by norm_num; omega)]
    exact le_max_right _ _
  · exact hlt.le.trans ((not_lt.mp hv).trans (le_max_right _ _))

/-- If no entry is too old for an `int`, the next timeout is right for all entries. -/
theorem updateNextTimeout_le {now next : ℤ} (h : d.updateNextTimeout now = some next)
    (hrecent : ∀ e ∈ d.timers.entries, now - 2 ^ 31 ≤ e.1.first) :
    ∀ e ∈ d.timers.entries, next ≤ max 0 (e.1.first - now) := by
  have hsorted := d.timers.sorted
  unfold updateNextTimeout at h
  split at h
  · next hnil => simp [hnil]
  · next e l hcons =>
    rw [hcons] at hrecent hsorted ⊢
    obtain ⟨v, hv, rfl⟩ := Option.map_eq_some_iff.mp h
    obtain rfl := int64_eq_some hv
    have hfirst := hrecent e List.mem_cons_self
    have hle := int32_le (v := e.1.first - now) (by omega)
    have hnext : (if int32 (e.1.first - now) ≤ 0 then 0 else int32 (e.1.first - now)) ≤
        max 0 (e.1.first - now) := by
      split
      · exact le_max_left _ _
      · exact hle
    intro e' he'
    have horder : e.1.first ≤ e'.1.first := by
      rcases List.mem_cons.mp he' with rfl | he'
      · exact le_rfl
      · rcases TimerId.lt_iff.mp ((List.pairwise_cons.mp hsorted).1 e' he') with hlt | ⟨heq, -⟩
        · exact hlt.le
        · exact heq.le
    omega

theorem rank_mul_le (p : Place) (hslack : slack ≤ 2 ^ 27) :
    (slack : ℤ) ≤ p.rank * slack ∧ (p.rank : ℤ) * slack ≤ 4 * 2 ^ 27 := by
  have hpos : 1 ≤ p.rank := by cases p <;> decide
  have hle : p.rank ≤ 4 := by cases p <;> decide
  have hlow : 1 * slack ≤ p.rank * slack := Nat.mul_le_mul_right slack hpos
  have hhigh : p.rank * slack ≤ 4 * 2 ^ 27 := Nat.mul_le_mul hle hslack
  rw [Nat.one_mul] at hlow
  exact ⟨by exact_mod_cast hlow, by exact_mod_cast hhigh⟩

/-- An entry that waits is not older than what an `int` can hold. -/
theorem Punctual.recent (h : Punctual slack s) (hp : s.place ≠ .left) (hslack : slack ≤ 2 ^ 27)
    (hk : Waiting s k) : s.clock - 2 ^ 31 ≤ k.first := by
  obtain ⟨-, hsince⟩ := h.since k hk
  have hnoticed := h.noticed k hk
  have hbound := h.bound k hk
  have hclock := h.onTime hp
  have hrank := (rank_mul_le s.place hslack).2
  have hd : defaultTimeouts = 10000 := rfl
  omega

theorem Punctual.insert (h : Punctual slack s) (hslack : slack ≤ 2 ^ 27)
    (hidle : ¬ Idle s.dispatcher) (hi : s.inserted d = some t)
    (hrecent : ∀ k, t.Waiting k → s.Waiting k ∨ s.clock - 2 ^ 30 ≤ k.first) : Punctual slack t := by
  have htimely := h.toTimely.insert hidle hi
  obtain ⟨-, hplace⟩ := h.place_ne_left hidle
  have hahead := h.ahead hplace
  obtain ⟨next, hnext, ht, hold, hnew⟩ := inserted_eq_some hi
  have hdisp : t.dispatcher = d := by rw [ht]
  have hle := updateNextTimeout_le hnext fun e he => by
    rcases hrecent e.1 ⟨e, hdisp ▸ he, rfl⟩ with hk | hk
    · exact h.recent hplace hslack hk
    · omega
  have hsince : ∀ k, t.Waiting k → t.since k ≤ s.clock ∧ t.since k - 2 ^ 30 ≤ k.first := by
    intro k hk
    by_cases hw : s.Waiting k
    · rw [(hold k hw).1]
      exact h.since k hw
    · rw [(hnew k hw).1]
      exact ⟨le_rfl, (hrecent k hk).resolve_left hw⟩
  have hnoticed : ∀ k, t.noticed k ≤ t.since k + defaultTimeouts + slack ∨ s.Waiting k := by
    intro k
    by_cases hw : s.Waiting k
    · exact .inr hw
    · left
      rw [(hnew k hw).1, (hnew k hw).2]
      split
      · next hpoll => rwa [if_pos hpoll] at hahead
      · have hd : defaultTimeouts = 10000 := rfl
        omega
  have hbound : ∀ k, s.deadline ≤ max (t.noticed k) k.first + s.place.rank * slack := by
    intro k
    by_cases hw : s.Waiting k
    · rw [(hold k hw).2]
      exact h.bound k hw
    · rw [(hnew k hw).2]
      have hrank := (rank_mul_le s.place hslack).1
      split
      · omega
      · next hpoll =>
        rw [if_neg hpoll] at hahead
        omega
  rw [ht] at htimely ⊢
  refine ⟨htimely, fun k hk => hsince k (by rwa [ht]), ?_, fun k _ => hbound k,
    ⟨s.clock, le_rfl, ?_, ?_⟩, h.fired⟩
  · intro k _
    rcases hnoticed k with hk | hk
    · exact hk
    · dsimp only
      rw [(hold k hk).1, (hold k hk).2]
      exact h.noticed k hk
  · intro hp
    have hpoll : s.place ≠ .polling := by
      rcases hp with hp | hp <;> simp [show s.place = _ from hp]
    rw [if_neg hpoll] at hahead
    dsimp only
    omega
  · rintro k ⟨e, he, rfl⟩
    exact hle e he

theorem Punctual.quiet (h : Punctual slack s) (hq : Quiet s.dispatcher d) :
    Punctual slack { s with dispatcher := d } := by
  have hw : ∀ k, Waiting { s with dispatcher := d } k → Waiting s k := by
    rintro k ⟨e, he, rfl⟩
    exact ⟨e, hq.timers e he, rfl⟩
  obtain ⟨u, hu, hentered, hnext⟩ := h.next
  exact ⟨h.toTimely.quiet hq, fun k hk => h.since k (hw k hk), fun k hk => h.noticed k (hw k hk),
    fun k hk => h.bound k (hw k hk), ⟨u, hu, hentered, fun k hk => hnext k (hw k hk)⟩, h.fired⟩

theorem Punctual.handle {next : ℤ} (h : Punctual slack s) (hslack : slack ≤ 2 ^ 27)
    (hp : s.place = .handling)
    (hnext : (s.dispatcher.handleTimeout s.clock).updateNextTimeout s.clock = some next) :
    Punctual slack (s.handled slack next) := by
  have hclock := h.onTime (by simp [hp])
  have hstill := h.quiet (quiet_handleTimeout s.clock)
  have hle := updateNextTimeout_le hnext fun e he => by
    have := (le_of_handled he).2
    omega
  refine ⟨h.toTimely.handle hnext, hstill.since, hstill.noticed, ?_,
    ⟨s.clock, le_rfl, fun _ => le_rfl, ?_⟩, ?_⟩
  · rintro k ⟨e, he, rfl⟩
    have hdue := (le_of_handled he).2
    have hrank := (rank_mul_le (s.handled slack next).place hslack).1
    have hdeadline : (s.handled slack next).deadline = s.clock + slack := rfl
    omega
  · rintro k ⟨e, he, rfl⟩
    exact hle e he
  · intro f hf
    rcases List.mem_append.mp hf with hf | hf
    · exact h.fired f hf
    · obtain ⟨e, he, rfl⟩ := List.mem_map.mp hf
      have hwait : Waiting s e.1 := ⟨e, TimerRun.mem_timers_of_expired he, rfl⟩
      have hbound := h.bound e.1 hwait
      rw [hp] at hbound
      simp only [Place.rank] at hbound
      push_cast at hbound
      exact ⟨TimerRun.le_of_expired he, hclock.trans hbound, h.noticed e.1 hwait⟩

theorem Punctual.exit (h : Punctual slack s) (hs : s.step slack .exit = some t) :
    Punctual slack t := by
  have htimely := h.toTimely.exit hs
  obtain rfl := Option.some.inj hs
  obtain ⟨u, hu, hentered, hnext⟩ := h.next
  exact ⟨htimely, h.since, h.noticed, fun k hk => exit_deadline.trans (h.bound k hk),
    ⟨u, hu, fun hp => exit_deadline.trans (hentered hp), hnext⟩, h.fired⟩

theorem punctual_step (hslack : slack ≤ 2 ^ 27) :
    TrInv (Guarded (Recent slack) (step slack)) (Punctual slack) := by
  rintro s a t ⟨hrecent, hs⟩ h
  by_cases ha : a.IsCall
  · obtain ⟨d, hq, rfl⟩ | ⟨d, hidle, -, hi⟩ := called_step ha hs
    · exact h.quiet hq
    · refine h.insert hslack hidle hi ?_
      rintro k ⟨e, he, rfl⟩
      exact (hrecent t hs e he).imp isSome_iff_waiting.mp id
  cases a with
  | tick now =>
    obtain ⟨⟨hle, hdue⟩, hs⟩ := Option.ite_none_right_eq_some.mp hs
    exact Option.some.inj hs ▸ h.tick hle hdue
  | test =>
    obtain ⟨hp, hs⟩ := Option.ite_none_right_eq_some.mp hs
    split at hs
    · exact Option.some.inj hs ▸ h.test hp
    · next hw => exact Option.some.inj hs ▸ h.clear hp (by simpa using hw)
  | poll =>
    obtain ⟨hp, hs⟩ := Option.ite_none_right_eq_some.mp hs
    exact Option.some.inj hs ▸ h.poll hp
  | awake woken =>
    obtain ⟨⟨hp, -⟩, hs⟩ := Option.ite_none_right_eq_some.mp hs
    exact Option.some.inj hs ▸ h.awake hp
  | handleTimeout =>
    obtain ⟨hp, hs⟩ := Option.ite_none_right_eq_some.mp hs
    obtain ⟨next, hnext, rfl⟩ := Option.map_eq_some_iff.mp hs
    exact h.handle hslack hp hnext
  | exit => exact h.exit hs
  | _ => exact absurd trivial ha

/-- An entry for the year 1970 does not end a wait in 2023: the difference is positive as an
`int`. -/
example : Dispatcher.updateNextTimeout
    ⟨true, 1, OrderedMap.empty.insert ⟨0, 1⟩ (.once ⟨0, 1⟩), .empty, []⟩ 1700000000000 =
      some 807049216 := by
  decide +kernel

/-- How many moves behind `exit` the loop is at most. -/
def behindExit (s : EventLoop) : ℕ :=
  match s.place, s.last with
  | .enter, false => 1
  | .polling, false => 2
  | .handling, false => 3
  | .test, _ => 4
  | .enter, true => 4
  | .polling, true => 5
  | .handling, true => 6
  | .left, _ => 6

/-- The loop after an `exit` at `x`: it is on its way out. -/
structure Leaving (slack : ℕ) (s : EventLoop) (x : ℤ) : Prop where
  working : s.dispatcher.working = false
  woken : s.place = .enter → s.last = false → 0 < s.wakeups
  deadline : s.place ≠ .left → s.deadline ≤ x + s.behindExit * slack

theorem timeout_of_leaving {x : ℤ} (h : Leaving slack s x) (hp : s.place = .enter) :
    s.timeout ≤ 0 := by
  unfold timeout
  split
  · exact le_rfl
  · next hw =>
    have hl : s.last = true := by
      by_contra hl
      exact hw (h.woken hp (by simpa using hl))
    rw [if_pos hl]
    exact min_le_left _ _

theorem leaving_step (ht : Timely slack s) (hl : ∀ x, s.exited = some x → Leaving slack s x)
    (hs : s.step slack a = some t) : ∀ x, t.exited = some x → Leaving slack t x := by
  intro x hx
  by_cases ha : a.IsCall
  · obtain ⟨d, hq, rfl⟩ | ⟨d, -, hw, hi⟩ := called_step ha hs
    · obtain ⟨hworking, hwoken, hdeadline⟩ := hl x hx
      exact ⟨hq.working.trans hworking, hwoken, hdeadline⟩
    · obtain ⟨next, -, heq, -⟩ := inserted_eq_some hi
      rw [heq] at hx ⊢
      obtain ⟨hworking, hwoken, hdeadline⟩ := hl x hx
      exact ⟨hw.trans hworking, hwoken, hdeadline⟩
  cases a with
  | tick now =>
    obtain ⟨-, hs⟩ := Option.ite_none_right_eq_some.mp hs
    obtain rfl := Option.some.inj hs
    obtain ⟨hworking, hwoken, hdeadline⟩ := hl x hx
    exact ⟨hworking, hwoken, hdeadline⟩
  | test =>
    obtain ⟨hp, hs⟩ := Option.ite_none_right_eq_some.mp hs
    split at hs
    · next hw =>
      obtain rfl := Option.some.inj hs
      have hworking := (hl x hx).working
      rw [hw] at hworking
      cases hworking
    · obtain rfl := Option.some.inj hs
      obtain ⟨hworking, -, hdeadline⟩ := hl x hx
      refine ⟨hworking, fun _ hlast => by simp at hlast, fun _ => ?_⟩
      simpa [behindExit, hp] using hdeadline (by simp [hp])
  | poll =>
    obtain ⟨hp, hs⟩ := Option.ite_none_right_eq_some.mp hs
    obtain rfl := Option.some.inj hs
    have hx' := hl x hx
    have hdeadline := hx'.deadline (by simp [hp])
    have hclock := ht.onTime (by simp [hp])
    have hzero := timeout_of_leaving hx' hp
    refine ⟨hx'.working, by simp, fun _ => ?_⟩
    simp only [behindExit, hp] at hdeadline ⊢
    cases hlast : s.last <;> simp only [hlast] at hdeadline ⊢ <;> push_cast at hdeadline ⊢ <;> omega
  | awake woken =>
    obtain ⟨⟨hp, -⟩, hs⟩ := Option.ite_none_right_eq_some.mp hs
    obtain rfl := Option.some.inj hs
    have hx' := hl x hx
    have hdeadline := hx'.deadline (by simp [hp])
    have hclock := ht.onTime (by simp [hp])
    refine ⟨hx'.working, by simp, fun _ => ?_⟩
    simp only [behindExit, hp] at hdeadline ⊢
    cases hlast : s.last <;> simp only [hlast] at hdeadline ⊢ <;> push_cast at hdeadline ⊢ <;> omega
  | handleTimeout =>
    obtain ⟨hp, hs⟩ := Option.ite_none_right_eq_some.mp hs
    obtain ⟨next, -, rfl⟩ := Option.map_eq_some_iff.mp hs
    have hx' := hl x hx
    have hdeadline := hx'.deadline (by simp [hp])
    have hclock := ht.onTime (by simp [hp])
    simp only [behindExit, hp] at hdeadline
    refine ⟨hx'.working, ?_, ?_⟩
    · intro hplace
      unfold handled at hplace
      split at hplace <;> cases hplace
    · intro hplace
      unfold handled behindExit at *
      cases hlast : s.last <;> simp_all
      omega
  | exit =>
    obtain rfl := Option.some.inj hs
    cases he : s.exited with
    | none =>
      obtain rfl : s.clock = x := by simpa [he] using hx
      refine ⟨rfl, fun _ _ => Nat.succ_pos _, fun hp => ?_⟩
      have hone : (1 : ℤ) * slack ≤ s.behindExit * slack := by
        have hle : 1 ≤ s.behindExit := by unfold behindExit; split <;> decide
        exact_mod_cast Nat.mul_le_mul_right slack hle
      have hahead := ht.ahead hp
      change (if s.place = .polling then _ else _) ≤ s.clock + (s.behindExit : ℤ) * slack
      split
      · exact (min_le_right _ _).trans (by omega)
      · next hpoll =>
        rw [if_neg hpoll] at hahead
        omega
    | some y =>
      obtain rfl : y = x := by simpa [he] using hx
      obtain ⟨-, -, hdeadline⟩ := hl y he
      exact ⟨rfl, fun _ _ => Nat.succ_pos _, fun hp => exit_deadline.trans (hdeadline hp)⟩
  | _ => exact absurd trivial ha

end EventLoop

end AlphaDb.Network
