import AlphaDb.Lib.Trace

/-! The worker threads of `network/thread_pool`, one section under `mutex_` at a time. -/
namespace AlphaDb.Network

open Trace
open scoped List

variable {τ : Type*} {n : ℕ}

structure ThreadPool (τ : Type*) where
  working : Bool
  tasks : List τ
  deriving DecidableEq, Repr

/-- Where a worker stands: about to lock `mutex_`, asleep on `condition_`, outside with a task, or
returned. -/
inductive Worker (τ : Type*)
  | ready
  | waiting
  | running (task : τ)
  | exited
  deriving DecidableEq, Repr

/-- How far `~thread_pool` is: not called, `working_` cleared, or `count` workers joined. -/
inductive Destructor
  | idle
  | cleared
  | joining (count : ℕ)
  deriving DecidableEq, Repr

namespace ThreadPool

/-- The section of `enqueue` under `mutex_`. -/
def enqueue (p : ThreadPool τ) (task : τ) : Except String (ThreadPool τ) :=
  if !p.working then .error "enqueue on stopped thread pool"
  else .ok { p with tasks := p.tasks ++ [task] }

/-- The section of a worker under `mutex_`, from the test of the predicate on: it goes to sleep,
returns, or takes the front of `tasks_`. -/
def workerSection (p : ThreadPool τ) : ThreadPool τ × Worker τ :=
  match p.tasks with
  | [] => (p, if !p.working then .exited else .waiting)
  | task :: tasks => ({ p with tasks := tasks }, .running task)

end ThreadPool

/-- A pool of `n` workers with its callers. `calls` are the tasks of the calls of `enqueue` between
the section and `notify_one`. `accepted`, `returned`, `thrown` and `taken` are history. -/
structure PoolRun (τ : Type*) (n : ℕ) where
  pool : ThreadPool τ
  workers : Fin n → Worker τ
  destructor : Destructor
  calls : List τ
  accepted : List τ
  returned : List τ
  thrown : List τ
  taken : List (Fin n × τ)

/-- `notifyOne` names the worker that it wakes, if any is asleep; `wake` is a spurious wakeup. -/
inductive PoolStep (τ : Type*) (n : ℕ)
  | enqueue (task : τ)
  | notifyOne (task : τ) (woken : Option (Fin n))
  | wake (w : Fin n)
  | workerSection (w : Fin n)
  | taskDone (w : Fin n)
  | stop
  | notifyAll
  | join
  deriving DecidableEq, Repr

namespace PoolRun

def init (n : ℕ) : PoolRun τ n where
  pool := ⟨true, []⟩
  workers := fun _ => .ready
  destructor := .idle
  calls := []
  accepted := []
  returned := []
  thrown := []
  taken := []

/-- The tasks that a worker takes when it goes on to this place. -/
def takenBy (w : Fin n) : Worker τ → List (Fin n × τ)
  | .running task => [(w, task)]
  | _ => []

def setWorker (r : PoolRun τ n) (w : Fin n) (x : Worker τ) : PoolRun τ n :=
  { r with workers := Function.update r.workers w x }

variable {r q : PoolRun τ n} {w : Fin n}

/-- Every task that came in is in `tasks_` or was taken, in order and once; a worker returns only
from a stopped and empty pool; and a task in `tasks_` has a worker or a `notify_one` to come. -/
structure Accounted (r : PoolRun τ n) : Prop where
  order : r.accepted = r.taken.map Prod.snd ++ r.pool.tasks
  calls : (r.returned ++ r.calls).Perm r.accepted
  stopped : r.pool.working = false ↔ r.destructor ≠ .idle
  exited : ∀ w, r.workers w = .exited → r.pool.working = false ∧ r.pool.tasks = []
  awake : r.pool.tasks ≠ [] → r.calls ≠ [] ∨
    ∃ w, r.workers w ≠ .waiting ∧ r.workers w ≠ .exited
  notified : ∀ count, r.destructor = .joining count → ∀ w, r.workers w ≠ .waiting

@[simp] theorem setWorker_same (x : Worker τ) : (r.setWorker w x).workers w = x :=
  Function.update_self ..

theorem setWorker_other {v : Fin n} (x : Worker τ) (hv : v ≠ w) :
    (r.setWorker w x).workers v = r.workers v :=
  Function.update_of_ne hv ..

theorem init_accounted : Accounted (init n : PoolRun τ n) := by
  refine ⟨rfl, .refl _, by simp [init], ?_, ?_, ?_⟩
  · intro w hw
    cases hw
  · intro hne
    exact (hne rfl).elim
  · intro count hc
    cases hc

/-- A worker goes to another place: to sleep or back only when the predicate says so. -/
theorem Accounted.setWorker {x : Worker τ} (h : Accounted r)
    (hexit : x = .exited → r.pool.working = false ∧ r.pool.tasks = [])
    (hwait : x = .waiting → r.pool.working = true ∧ r.pool.tasks = []) :
    Accounted (r.setWorker w x) := by
  refine ⟨h.order, h.calls, h.stopped, ?_, ?_, ?_⟩
  · intro v hv
    by_cases hvw : v = w
    · rw [hvw, setWorker_same] at hv
      exact hexit hv
    · rw [setWorker_other _ hvw] at hv
      exact h.exited v hv
  · intro hne
    right
    refine ⟨w, ?_, ?_⟩
    · rw [setWorker_same]
      intro hx
      exact hne (hwait hx).2
    · rw [setWorker_same]
      intro hx
      exact hne (hexit hx).2
  · intro count hc v hv
    by_cases hvw : v = w
    · rw [hvw, setWorker_same] at hv
      have hstop : r.pool.working = false := by
        apply h.stopped.mpr
        rw [show r.destructor = _ from hc]
        simp
      rw [(hwait hv).1] at hstop
      cases hstop
    · rw [setWorker_other _ hvw] at hv
      exact h.notified count hc v hv

theorem Accounted.setReady (h : Accounted r) : Accounted (r.setWorker w .ready) := by
  apply h.setWorker
  · intro hx
    cases hx
  · intro hx
    cases hx

/-- How many internal steps a worker can still take without a further task or wakeup. -/
def workerWeight : Worker τ → ℕ
  | .ready => 1
  | .running _ => 2
  | .waiting | .exited => 0

def destructorWeight (n : ℕ) : Destructor → ℕ
  | .idle => 0
  | .cleared => 2 * n + 1
  | .joining count => n - count

/-- A bound on the internal steps from here on. -/
def weight (r : PoolRun τ n) : ℕ :=
  2 * r.pool.tasks.length + 2 * r.calls.length + ∑ w, workerWeight (r.workers w) +
    destructorWeight n r.destructor

/-- A worker that moves changes the weight by the difference of its two places. -/
theorem weight_setWorker {y : Worker τ} (hy : r.workers w = y) (x : Worker τ) :
    (r.setWorker w x).weight + workerWeight y = r.weight + workerWeight x := by
  have hrest : ∑ v ∈ Finset.univ.erase w, workerWeight ((r.setWorker w x).workers v) =
      ∑ v ∈ Finset.univ.erase w, workerWeight (r.workers v) := by
    apply Finset.sum_congr rfl
    intro v hv
    rw [setWorker_other x (Finset.ne_of_mem_erase hv)]
  have hset := Finset.add_sum_erase Finset.univ
    (fun v => workerWeight ((r.setWorker w x).workers v)) (Finset.mem_univ w)
  have hold := Finset.add_sum_erase Finset.univ (fun v => workerWeight (r.workers v))
    (Finset.mem_univ w)
  simp only [setWorker_same, hy] at hset hold
  simp only [weight, ← hset, ← hold, hrest]
  simp only [setWorker]
  omega

theorem workerSection_weight (p : ThreadPool τ) :
    2 * p.workerSection.1.tasks.length + workerWeight p.workerSection.2 ≤
      2 * p.tasks.length := by
  cases htasks : p.tasks with
  | nil =>
    simp only [ThreadPool.workerSection, htasks]
    cases p.working <;> simp [workerWeight]
  | cons task tasks => simp [ThreadPool.workerSection, htasks, workerWeight, Nat.mul_succ]

variable [DecidableEq τ]

variable {a : PoolStep τ n}

def step (r : PoolRun τ n) : PoolStep τ n → Option (PoolRun τ n)
  | .enqueue task =>
    match r.pool.enqueue task with
    | .error _ => some { r with thrown := r.thrown ++ [task] }
    | .ok pool =>
      some { r with
        pool := pool
        calls := task :: r.calls
        accepted := r.accepted ++ [task] }
  | .notifyOne task woken =>
    if task ∈ r.calls then
      let r' := { r with calls := r.calls.erase task, returned := task :: r.returned }
      match woken with
      | some w => if r.workers w = .waiting then some (r'.setWorker w .ready) else none
      | none => if ∀ w, r.workers w ≠ .waiting then some r' else none
    else none
  | .wake w => if r.workers w = .waiting then some (r.setWorker w .ready) else none
  | .workerSection w =>
    if r.workers w = .ready then
      let (pool, x) := r.pool.workerSection
      some ({ r with pool := pool, taken := r.taken ++ takenBy w x }.setWorker w x)
    else none
  | .taskDone w =>
    match r.workers w with
    | .running _ => some (r.setWorker w .ready)
    | _ => none
  | .stop =>
    if r.destructor = .idle then
      some { r with pool := { r.pool with working := false }, destructor := .cleared }
    else none
  | .notifyAll =>
    if r.destructor = .cleared then
      some { r with
        destructor := .joining 0
        workers := fun w => if r.workers w = .waiting then .ready else r.workers w }
    else none
  | .join =>
    match r.destructor with
    | .joining count =>
      if h : count < n then
        if r.workers ⟨count, h⟩ = .exited then some { r with destructor := .joining (count + 1) }
        else none
      else none
    | _ => none

/-- `notify_one` wakes a worker that is asleep, and does nothing only if none is. -/
theorem notifyOne_cases {task : τ} {woken : Option (Fin n)}
    (hs : r.step (.notifyOne task woken) = some q) : task ∈ r.calls ∧
      ((∃ w, r.workers w = .waiting ∧ q = { r with
          calls := r.calls.erase task, returned := task :: r.returned }.setWorker w .ready) ∨
        (∀ w, r.workers w ≠ .waiting) ∧ q = { r with
          calls := r.calls.erase task, returned := task :: r.returned }) := by
  simp only [step] at hs
  split at hs
  · rename_i hmem
    refine ⟨hmem, ?_⟩
    cases woken with
    | some w =>
      left
      obtain ⟨hw, hs⟩ := Option.ite_none_right_eq_some.mp hs
      obtain rfl := Option.some.inj hs
      exact ⟨w, hw, rfl⟩
    | none =>
      right
      obtain ⟨hawake, hs⟩ := Option.ite_none_right_eq_some.mp hs
      obtain rfl := Option.some.inj hs
      exact ⟨hawake, rfl⟩
  · cases hs

theorem workerSection_cases (hs : r.step (.workerSection w) = some q) : r.workers w = .ready ∧
    q = { r with
      pool := r.pool.workerSection.1
      taken := r.taken ++ takenBy w r.pool.workerSection.2 }.setWorker w
        r.pool.workerSection.2 := by
  obtain ⟨hw, hs⟩ := Option.ite_none_right_eq_some.mp hs
  obtain rfl := Option.some.inj hs
  exact ⟨hw, rfl⟩

theorem taskDone_cases (hs : r.step (.taskDone w) = some q) :
    (∃ task, r.workers w = .running task) ∧ q = r.setWorker w .ready := by
  simp only [step] at hs
  split at hs
  · rename_i task hw
    obtain rfl := Option.some.inj hs
    exact ⟨⟨task, hw⟩, rfl⟩
  · cases hs

theorem notifyAll_cases (hs : r.step .notifyAll = some q) : r.destructor = .cleared ∧
    q = { r with
      destructor := .joining 0
      workers := fun w => if r.workers w = .waiting then .ready else r.workers w } := by
  obtain ⟨hc, hs⟩ := Option.ite_none_right_eq_some.mp hs
  obtain rfl := Option.some.inj hs
  exact ⟨hc, rfl⟩

theorem join_cases (hs : r.step .join = some q) : ∃ count, r.destructor = .joining count ∧
    count < n ∧ q = { r with destructor := .joining (count + 1) } := by
  simp only [step] at hs
  split at hs
  · rename_i count hc
    obtain ⟨hlt, hs⟩ := Option.dite_none_right_eq_some.mp hs
    obtain ⟨-, hs⟩ := Option.ite_none_right_eq_some.mp hs
    obtain rfl := Option.some.inj hs
    exact ⟨count, hc, hlt, rfl⟩
  · cases hs

theorem Accounted.enqueue {task : τ} (h : Accounted r) (hs : r.step (.enqueue task) = some q) :
    Accounted q := by
  cases hw : r.pool.working with
  | false =>
    simp only [step, ThreadPool.enqueue, hw, Bool.not_false, if_true, Option.some.injEq] at hs
    subst hs
    exact ⟨h.order, h.calls, h.stopped, h.exited, h.awake, h.notified⟩
  | true =>
    simp only [step, ThreadPool.enqueue, hw, Bool.not_true, Bool.false_eq_true, if_false,
      Option.some.injEq] at hs
    subst hs
    refine ⟨?_, ?_, ?_, ?_, ?_, h.notified⟩
    · simp [h.order]
    · calc r.returned ++ task :: r.calls
        _ ~ task :: (r.returned ++ r.calls) := List.perm_middle
        _ ~ task :: r.accepted := h.calls.cons task
        _ ~ r.accepted ++ [task] := (List.perm_append_singleton task _).symm
    · simpa [hw] using h.stopped
    · intro w hexit
      have := (h.exited w hexit).1
      simp [hw] at this
    · intro _
      left
      simp

theorem Accounted.notifyOne {task : τ} {woken : Option (Fin n)} (hn : 0 < n) (h : Accounted r)
    (hs : r.step (.notifyOne task woken) = some q) : Accounted q := by
  obtain ⟨hmem, hwoken⟩ := notifyOne_cases hs
  have hcalls : (task :: r.returned ++ r.calls.erase task).Perm r.accepted := by
    calc task :: (r.returned ++ r.calls.erase task)
      _ ~ r.returned ++ task :: r.calls.erase task := List.perm_middle.symm
      _ ~ r.returned ++ r.calls := (List.perm_cons_erase hmem).symm.append_left _
      _ ~ r.accepted := h.calls
  rcases hwoken with ⟨w, -, rfl⟩ | ⟨hawake, rfl⟩
  · have hready : Accounted (r.setWorker w .ready) := h.setReady
    refine ⟨h.order, hcalls, h.stopped, hready.exited, ?_, hready.notified⟩
    intro _
    right
    exact ⟨w, by simp, by simp⟩
  · refine ⟨h.order, hcalls, h.stopped, h.exited, ?_, h.notified⟩
    intro hne
    right
    -- nobody is asleep, and a worker that had returned would have left `tasks_` empty
    refine ⟨⟨0, hn⟩, hawake _, ?_⟩
    intro hexit
    exact hne (h.exited _ hexit).2

theorem Accounted.workerSection (h : Accounted r) (hs : r.step (.workerSection w) = some q) :
    Accounted q := by
  obtain ⟨-, rfl⟩ := workerSection_cases hs
  cases htasks : r.pool.tasks with
  | nil =>
    simp only [ThreadPool.workerSection, htasks]
    have hnone : takenBy w (if (!r.pool.working) = true then Worker.exited else .waiting) =
        ([] : List (Fin n × τ)) := by
      split <;> rfl
    rw [hnone, List.append_nil]
    apply h.setWorker
    · intro hx
      refine ⟨?_, htasks⟩
      cases hw : r.pool.working <;> simp [hw] at hx ⊢
    · intro hx
      refine ⟨?_, htasks⟩
      cases hw : r.pool.working <;> simp [hw] at hx ⊢
  | cons task tasks =>
    simp only [ThreadPool.workerSection, htasks, takenBy]
    have hfull : r.pool.tasks ≠ [] := by simp [htasks]
    have htaken : Accounted { r with
        pool := { r.pool with tasks := tasks }, taken := r.taken ++ [(w, task)] } := by
      refine ⟨?_, h.calls, h.stopped, ?_, fun _ => h.awake hfull, h.notified⟩
      · simp [h.order, htasks]
      · intro v hv
        exact absurd (h.exited v hv).2 hfull
    apply htaken.setWorker
    · intro hx
      cases hx
    · intro hx
      cases hx

theorem Accounted.notifyAll (h : Accounted r) (hs : r.step .notifyAll = some q) :
    Accounted q := by
  obtain ⟨hcleared, rfl⟩ := notifyAll_cases hs
  have hstop : r.pool.working = false := h.stopped.mpr (by simp [hcleared])
  refine ⟨h.order, h.calls, by simp [hstop], ?_, ?_, ?_⟩
  · intro w hw
    simp only at hw
    split at hw
    · cases hw
    · exact h.exited w hw
  · intro hne
    rcases h.awake hne with hcalls | ⟨w, hw, hexit⟩
    · exact .inl hcalls
    · right
      refine ⟨w, by simp [hw], ?_⟩
      simpa [hw] using hexit
  · intro _ _ w
    simp only
    split
    · simp
    · assumption

theorem trInv_accounted (hn : 0 < n) :
    TrInv (fun r a q => step r a = some q) (Accounted (τ := τ) (n := n)) := by
  intro r a q hs h
  cases a with
  | enqueue task => exact h.enqueue hs
  | notifyOne task woken => exact h.notifyOne hn hs
  | wake w =>
    obtain ⟨-, hs⟩ := Option.ite_none_right_eq_some.mp hs
    obtain rfl := Option.some.inj hs
    exact h.setReady
  | workerSection w => exact h.workerSection hs
  | taskDone w =>
    obtain ⟨-, rfl⟩ := taskDone_cases hs
    exact h.setReady
  | stop =>
    obtain ⟨-, hs⟩ := Option.ite_none_right_eq_some.mp hs
    obtain rfl := Option.some.inj hs
    refine ⟨h.order, h.calls, by simp, ?_, h.awake, ?_⟩
    · intro w hw
      exact ⟨rfl, (h.exited w hw).2⟩
    · intro count hc
      cases hc
  | notifyAll => exact h.notifyAll hs
  | join =>
    obtain ⟨count, hc, -, rfl⟩ := join_cases hs
    refine ⟨h.order, h.calls, ?_, h.exited, h.awake, fun _ _ => h.notified count hc⟩
    have hstop := h.stopped
    rw [hc] at hstop
    simpa using hstop

/-- The steps that the pool takes by itself: everything but a new call, the start of the destructor
and a spurious wakeup. -/
def Internal : PoolStep τ n → Prop
  | .enqueue _ | .wake _ | .stop => False
  | .notifyOne .. | .workerSection _ | .taskDone _ | .notifyAll | .join => True

theorem sum_notifyAll (workers : Fin n → Worker τ) :
    ∑ w, workerWeight (if workers w = .waiting then .ready else workers w) ≤
      ∑ w, workerWeight (workers w) + n := by
  calc ∑ w, workerWeight (if workers w = .waiting then .ready else workers w)
    _ ≤ ∑ w, (workerWeight (workers w) + 1) := by
        apply Finset.sum_le_sum
        intro w _
        split
        · simp [workerWeight]
        · exact Nat.le_succ _
    _ = ∑ w, workerWeight (workers w) + n := by simp [Finset.sum_add_distrib]

theorem weight_lt (ha : Internal a) (hs : r.step a = some q) : q.weight < r.weight := by
  cases a with
  | enqueue _ | wake _ | stop => cases ha
  | notifyOne task woken =>
    obtain ⟨hmem, hwoken⟩ := notifyOne_cases hs
    have hcall : { r with
        calls := r.calls.erase task, returned := task :: r.returned }.weight + 2 = r.weight := by
      have hlen := List.length_erase_add_one hmem
      simp only [weight]
      omega
    rcases hwoken with ⟨w, hw, rfl⟩ | ⟨-, rfl⟩
    · have hset := weight_setWorker (r := { r with
        calls := r.calls.erase task, returned := task :: r.returned }) hw .ready
      simp only [workerWeight] at hset
      omega
    · omega
  | workerSection w =>
    obtain ⟨hw, rfl⟩ := workerSection_cases hs
    have hset := weight_setWorker (r := { r with
      pool := r.pool.workerSection.1
      taken := r.taken ++ takenBy w r.pool.workerSection.2 }) hw r.pool.workerSection.2
    have hpool := workerSection_weight r.pool
    have hready : workerWeight (τ := τ) .ready = 1 := rfl
    simp only [weight] at hset ⊢
    omega
  | taskDone w =>
    obtain ⟨⟨task, hw⟩, rfl⟩ := taskDone_cases hs
    have hset := weight_setWorker hw .ready
    simp only [workerWeight] at hset
    omega
  | notifyAll =>
    obtain ⟨hc, rfl⟩ := notifyAll_cases hs
    have hsum := sum_notifyAll r.workers
    simp only [weight, hc, destructorWeight]
    omega
  | join =>
    obtain ⟨count, hc, hlt, rfl⟩ := join_cases hs
    simp only [weight, hc, destructorWeight]
    omega

theorem accepted_eq (ha : Internal a) (hs : r.step a = some q) : q.accepted = r.accepted := by
  cases a with
  | enqueue _ | wake _ | stop => cases ha
  | notifyOne task woken =>
    obtain ⟨-, ⟨w, -, rfl⟩ | ⟨-, rfl⟩⟩ := notifyOne_cases hs <;> rfl
  | workerSection w =>
    obtain ⟨-, rfl⟩ := workerSection_cases hs
    rfl
  | taskDone w =>
    obtain ⟨-, rfl⟩ := taskDone_cases hs
    rfl
  | notifyAll =>
    obtain ⟨-, rfl⟩ := notifyAll_cases hs
    rfl
  | join =>
    obtain ⟨count, -, -, rfl⟩ := join_cases hs
    rfl

/-- A run of internal steps accepts nothing and is no longer than the weight. -/
theorem internal_run {xs : List (PoolStep τ n)} (hint : ∀ a ∈ xs, Internal a)
    (hrun : MTr (fun r a q => step r a = some q) r xs q) :
    xs.length ≤ r.weight ∧ q.accepted = r.accepted := by
  induction hrun with
  | refl => simp
  | stepL hs _ ih =>
    have ha := hint _ List.mem_cons_self
    have hlt := weight_lt ha hs
    obtain ⟨hlen, hacc⟩ := ih fun a hmem => hint a (List.mem_cons_of_mem _ hmem)
    refine ⟨?_, hacc.trans (accepted_eq ha hs)⟩
    simp only [List.length_cons]
    omega

/-- With no internal step left every worker is asleep or has returned, and no call is on its way
to `notify_one`. -/
theorem quiet_workers (hquiet : ∀ a, Internal a → r.step a = none) (w : Fin n) :
    r.workers w = .waiting ∨ r.workers w = .exited := by
  cases hw : r.workers w with
  | ready =>
    have := hquiet (.workerSection w) trivial
    simp [step, hw] at this
  | waiting => exact .inl rfl
  | running task =>
    have := hquiet (.taskDone w) trivial
    simp [step, hw] at this
  | exited => exact .inr rfl

theorem quiet_calls (hquiet : ∀ a, Internal a → r.step a = none) : r.calls = [] := by
  cases hcalls : r.calls with
  | nil => rfl
  | cons task calls =>
    by_cases hasleep : ∃ w, r.workers w = .waiting
    · obtain ⟨w, hw⟩ := hasleep
      have := hquiet (.notifyOne task (some w)) trivial
      simp [step, hcalls, hw] at this
    · have hnone : ∀ w, r.workers w ≠ .waiting := fun w hw => hasleep ⟨w, hw⟩
      have := hquiet (.notifyOne task none) trivial
      simp only [step, hcalls, List.mem_cons, true_or, if_true] at this
      rw [if_pos hnone] at this
      cases this

theorem Accounted.quiet (h : Accounted r) (hquiet : ∀ a, Internal a → r.step a = none) :
    r.pool.tasks = [] ∧ (r.destructor ≠ .idle → ∀ w, r.workers w = .exited) := by
  constructor
  · by_contra hne
    rcases h.awake hne with hcalls | ⟨w, hw, hexit⟩
    · exact hcalls (quiet_calls hquiet)
    · rcases quiet_workers hquiet w with hw' | hexit'
      · exact hw hw'
      · exact hexit hexit'
  · intro hd w
    cases hdes : r.destructor with
    | idle => exact absurd hdes hd
    | cleared =>
      have := hquiet .notifyAll trivial
      simp [step, hdes] at this
    | joining count =>
      rcases quiet_workers hquiet w with hw | hexit
      · exact absurd hw (h.notified count hdes w)
      · exact hexit

/-- After any interleaving the tasks that came in are those taken, in this order and each by one
worker, followed by those still in `tasks_`; a stopped pool takes no further task; workers that have
all returned left none; and the pool by itself stops only after every task has been taken. -/
theorem tasks_accounted (hn : 0 < n) {xs : List (PoolStep τ n)}
    (hrun : MTr (fun r a q => step r a = some q) (init n) xs r) :
    (r.accepted = r.taken.map Prod.snd ++ r.pool.tasks ∧
      (r.returned ++ r.calls).Perm r.accepted) ∧
    (r.destructor ≠ .idle → ∀ task,
      r.pool.enqueue task = .error "enqueue on stopped thread pool" ∧
      r.step (.enqueue task) = some { r with thrown := r.thrown ++ [task] }) ∧
    ((∀ w, r.workers w = .exited) → r.pool.tasks = []) ∧
    ∀ ys q, (∀ a ∈ ys, Internal a) → MTr (fun r a q => step r a = some q) r ys q →
      ys.length ≤ r.weight ∧
      ((∀ a, Internal a → q.step a = none) → q.taken.map Prod.snd = r.accepted) := by
  have h : Accounted r := mTr_trInv (trInv_accounted hn) hrun init_accounted
  refine ⟨⟨h.order, h.calls⟩, ?_, ?_, ?_⟩
  · intro hd task
    have hw := h.stopped.mpr hd
    have herr : r.pool.enqueue task = .error "enqueue on stopped thread pool" := by
      simp [ThreadPool.enqueue, hw]
    exact ⟨herr, by simp only [step, herr]⟩
  · intro hexit
    exact (h.exited ⟨0, hn⟩ (hexit _)).2
  · intro ys q hint hys
    obtain ⟨hlen, hacc⟩ := internal_run hint hys
    refine ⟨hlen, ?_⟩
    intro hquiet
    have hq : Accounted q := mTr_trInv (trInv_accounted hn) hys h
    rw [← hacc, hq.order, (hq.quiet hquiet).1, List.append_nil]

/-- Two tasks for two workers, and a destructor that is called before either has been taken. -/
theorem tasks_accounted_two : ∃ r : PoolRun ℕ 2,
    (r.accepted = r.taken.map Prod.snd ++ r.pool.tasks ∧
      (r.returned ++ r.calls).Perm r.accepted) ∧
    r.taken = [(1, 5), (0, 7)] ∧ (∀ w, r.workers w = .exited) ∧ r.pool.tasks = [] ∧
    r.thrown = [9] ∧ r.destructor = .joining 2 := by
  have h : (exec step (init 2 : PoolRun ℕ 2) [.workerSection 0, .enqueue 5,
      .notifyOne 5 (some 0), .enqueue 7, .stop, .enqueue 9, .workerSection 1, .workerSection 0,
      .notifyOne 7 none, .notifyAll, .taskDone 0, .taskDone 1, .workerSection 0, .workerSection 1,
      .join, .join]).any (fun r => r.taken = [(1, 5), (0, 7)] ∧ (∀ w, r.workers w = .exited) ∧
      r.thrown = [9] ∧ r.destructor = .joining 2) = true := by
    decide +kernel
  obtain ⟨r, hrun, hp⟩ := exists_mTr_of_exec h
  obtain ⟨htaken, hexit, hthrown, hdes⟩ := of_decide_eq_true hp
  have h := tasks_accounted (by decide) hrun
  exact ⟨r, h.1, htaken, hexit, h.2.2.1 hexit, hthrown, hdes⟩

end PoolRun

end AlphaDb.Network
