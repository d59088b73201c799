import AlphaDb.Lib.OrderedMap

/-! The timers of a dispatcher (`network/dispatcher`). Signed arithmetic that overflows and the use
of an element that is not there have no result. -/
namespace AlphaDb.Network

/-- A time point in milliseconds and a sequence number; a repeating timer has its time point
negated. -/
structure TimerId where
  first : ℤ
  second : ℕ
  deriving DecidableEq, Repr

namespace TimerId

variable {a b : TimerId}

def toPair (a : TimerId) : ℤ ×ₗ ℕ := toLex (a.first, a.second)

theorem toPair_injective : Function.Injective toPair := by
  intro a b h
  obtain ⟨hfirst, hsecond⟩ := Prod.mk.inj (toLex.injective h)
  cases a
  cases b
  congr

instance : LinearOrder TimerId := LinearOrder.lift' toPair toPair_injective

theorem lt_iff : a < b ↔ a.first < b.first ∨ a.first = b.first ∧ a.second < b.second := by
  show toPair a < toPair b ↔ _
  simp [toPair, Prod.Lex.lt_iff]

end TimerId

/-- What the pool is given: a one-shot task, or a call of `repeat` with a pointer to the element of
`repeatable_timers_` that has this key. The end of such a call, which calls the callback that is in
the element, is a task of its own. -/
inductive Task
  | once (id : TimerId)
  | again (id : TimerId)
  | callback (id : TimerId)
  deriving DecidableEq, Repr

/-- The field `at` of the source is `tp` here. -/
structure RepeatableTask where
  tp : ℤ
  interval : ℤ
  timerId : TimerId
  deriving DecidableEq, Repr

def maxTimeouts : ℕ := 2 ^ 30

/-- A result of signed 64-bit arithmetic. -/
def int64 (v : ℤ) : Option ℤ := if -2 ^ 63 ≤ v ∧ v < 2 ^ 63 then some v else none

/-- `pool` holds what has been enqueued and not yet been executed to its end. -/
structure Dispatcher where
  working : Bool
  timeSeq : ℕ
  timers : OrderedMap TimerId Task
  repeatableTimers : OrderedMap TimerId RepeatableTask
  pool : List Task

namespace Dispatcher

variable {d e : Dispatcher} {id tid : TimerId} {tp interval : ℤ}

def runAt (d : Dispatcher) (tp interval : ℤ) : Option (Dispatcher × TimerId) :=
  if d.working = false then some (d, ⟨0, 0⟩)
  else if interval ≠ 0 then
    (int64 (-tp)).map fun first =>
      let tid : TimerId := ⟨first, d.timeSeq + 1⟩
      let timerId : TimerId := ⟨tp, d.timeSeq + 2⟩
      ({ d with
          timeSeq := d.timeSeq + 2
          repeatableTimers := d.repeatableTimers.insert tid ⟨tp, interval, timerId⟩
          timers := d.timers.insert timerId (.again tid) },
        tid)
  else
    let tid : TimerId := ⟨tp, d.timeSeq + 1⟩
    some ({ d with timeSeq := d.timeSeq + 1, timers := d.timers.insertNew tid (.once tid) }, tid)

def runAfter (d : Dispatcher) (now ms : ℤ) : Option (Dispatcher × TimerId) :=
  (int64 (now + ms)).bind fun tp => d.runAt tp 0

def runEvery (d : Dispatcher) (now ms interval : ℤ) : Option (Dispatcher × TimerId) :=
  (int64 (now + ms)).bind fun tp => d.runAt tp interval

/-- `repeat` up to the callback: the task is put into `timers_` again, for one interval later. -/
def repeatTask (d : Dispatcher) (id : TimerId) : Option Dispatcher :=
  (d.repeatableTimers.find? id).bind fun task =>
    (int64 (task.tp + task.interval)).map fun tp =>
      let timerId : TimerId := ⟨tp, d.timeSeq + 1⟩
      { d with
        timeSeq := d.timeSeq + 1
        repeatableTimers := d.repeatableTimers.insert id ⟨tp, task.interval, timerId⟩
        timers := d.timers.insert timerId (.again id) }

/-- The entries that a `handle_timeout` at this time takes out of `timers_`, the first one first. -/
def expired (d : Dispatcher) (now : ℤ) : List (TimerId × Task) :=
  d.timers.before ⟨now, maxTimeouts⟩

def handleTimeout (d : Dispatcher) (now : ℤ) : Dispatcher :=
  { d with
    pool := d.pool ++ (d.expired now).map Prod.snd
    timers := d.timers.behind ⟨now, maxTimeouts⟩ }

/-- A thread of the pool goes on with one of the enqueued tasks, which one is up to the
scheduler. -/
def execute (d : Dispatcher) (i : ℕ) : Option Dispatcher :=
  match d.pool[i]? with
  | none => none
  | some (.once _) => some { d with pool := d.pool.eraseIdx i }
  | some (.again id) => { d with pool := d.pool.set i (.callback id) }.repeatTask id
  | some (.callback id) =>
    (d.repeatableTimers.find? id).map fun _ => { d with pool := d.pool.eraseIdx i }

def cancel (d : Dispatcher) (tid : TimerId) : Option (Dispatcher × Bool) :=
  if tid.first < 0 then
    (d.repeatableTimers.find? tid).map fun task =>
      ({ d with
          timers := d.timers.erase task.timerId
          repeatableTimers := d.repeatableTimers.erase tid },
        true)
  else if (d.timers.find? tid).isSome then some ({ d with timers := d.timers.erase tid }, true)
  else some (d, false)

/-- Entries of a task in `timers_`. -/
def pending (d : Dispatcher) (t : Task) : ℕ := d.timers.entries.countP (·.2 = t)

theorem pending_eq_zero {x : Task} :
    d.pending x = 0 ↔ ∀ e ∈ d.timers.entries, e.2 ≠ x := by
  simp [pending, List.countP_eq_zero]

theorem pending_pos {x : Task} : 0 < d.pending x ↔ ∃ e ∈ d.timers.entries, e.2 = x := by
  simp [pending, List.countP_pos_iff]

theorem int64_eq_some {v w : ℤ} (h : int64 v = some w) : w = v := by
  unfold int64 at h
  split at h
  · exact (Option.some.inj h).symm
  · simp at h

/-- What `run_at` does: a repeating timer gets an element and an entry, a one-shot timer an
entry. -/
theorem runAt_cases (hw : d.working = true) (h : d.runAt tp interval = some (e, tid)) :
    (interval ≠ 0 ∧ tid = ⟨-tp, d.timeSeq + 1⟩ ∧ e = { d with
      timeSeq := d.timeSeq + 2
      repeatableTimers :=
        d.repeatableTimers.insert tid ⟨tp, interval, ⟨tp, d.timeSeq + 2⟩⟩
      timers := d.timers.insert ⟨tp, d.timeSeq + 2⟩ (.again tid) }) ∨
    (interval = 0 ∧ tid = ⟨tp, d.timeSeq + 1⟩ ∧ e = { d with
      timeSeq := d.timeSeq + 1
      timers := d.timers.insertNew tid (.once tid) }) := by
  unfold runAt at h
  rw [if_neg (by simp [hw])] at h
  split at h
  · next hne =>
    obtain ⟨first, hfirst, h⟩ := Option.map_eq_some_iff.mp h
    obtain ⟨rfl, rfl⟩ := Prod.mk.inj h
    obtain rfl := int64_eq_some hfirst
    exact Or.inl ⟨hne, rfl, rfl⟩
  · next heq =>
    obtain ⟨rfl, rfl⟩ := Prod.mk.inj (Option.some.inj h)
    exact Or.inr ⟨not_not.mp heq, rfl, rfl⟩

theorem repeatTask_eq_some (h : d.repeatTask id = some e) :
    ∃ task, d.repeatableTimers.find? id = some task ∧ e = { d with
      timeSeq := d.timeSeq + 1
      repeatableTimers := d.repeatableTimers.insert id
        ⟨task.tp + task.interval, task.interval, ⟨task.tp + task.interval, d.timeSeq + 1⟩⟩
      timers := d.timers.insert ⟨task.tp + task.interval, d.timeSeq + 1⟩ (.again id) } := by
  obtain ⟨task, htask, h⟩ := Option.bind_eq_some_iff.mp h
  obtain ⟨tp, htp, rfl⟩ := Option.map_eq_some_iff.mp h
  obtain rfl := int64_eq_some htp
  exact ⟨task, htask, rfl⟩

theorem execute_cases {i : ℕ} (h : d.execute i = some e) :
    (∃ x, d.pool[i]? = some x ∧ (∀ id, x ≠ .again id) ∧
      e = { d with pool := d.pool.eraseIdx i }) ∨
    ∃ id u, d.pool[i]? = some (.again id) ∧ u = { d with pool := d.pool.set i (.callback id) } ∧
      u.repeatTask id = some e := by
  unfold execute at h
  split at h
  · simp at h
  · next id hid => exact Or.inl ⟨_, hid, by simp, (Option.some.inj h).symm⟩
  · next id hid => exact Or.inr ⟨id, _, hid, rfl, h⟩
  · next id hid =>
    obtain ⟨_, -, rfl⟩ := Option.map_eq_some_iff.mp h
    exact Or.inl ⟨_, hid, by simp, rfl⟩

end Dispatcher

end AlphaDb.Network
