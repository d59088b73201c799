import AlphaDb.Network.TimerRuns

/-! When timers fire, and in which order. -/
namespace AlphaDb.Network

open Trace

namespace TimerRun

open Dispatcher

variable {r q : TimerRun} {a : TimerCall} {t : Timer}

/-- No `cancel`, and sequence numbers stay below the bound that `handle_timeout` compares with. -/
def WithoutCancel (r : TimerRun) : TimerCall → Prop
  | .cancel _ => False
  | a => ∀ q ∈ r.step a, q.dispatcher.timeSeq < maxTimeouts

instance : ∀ (r : TimerRun) (a : TimerCall), Decidable (r.WithoutCancel a)
  | _, .cancel _ => inferInstanceAs (Decidable False)
  | r, .handleTimeout _ | r, .runAt .. | r, .runAfter .. | r, .runEvery .. | r, .execute _ =>
    inferInstanceAs (Decidable (∀ q ∈ r.step _, _ < _))

theorem WithoutCancel.small (h : r.WithoutCancel a) (hs : r.step a = some q) :
    (∀ tid, a ≠ .cancel tid) ∧ q.dispatcher.timeSeq < maxTimeouts := by
  cases a with
  | cancel tid => exact h.elim
  | _ => exact ⟨by simp, h q hs⟩

/-- What has been enqueued so far, and what a `handle_timeout` at any time would enqueue. -/
structure Dispatched (r : TimerRun) : Prop where
  atMostOnce : ∀ t ∈ r.created, t.interval = 0 → (r.firings t.task).length ≤ 1
  notBefore : ∀ f ∈ r.fired, f.key.first ≤ f.clock ∧
    ∀ t ∈ r.created, t.interval = 0 → f.task = t.task → f.key = t.id ∧ f.key.first = t.first
  reached : ∀ now, ∀ t ∈ r.created, t.interval = 0 → t.first ≤ now →
    (r.expire now).firings t.task ≠ []
  ordered : ∀ now, (r.dispatcher.expired now).Pairwise fun e e' =>
    e.1.first < e'.1.first ∨ e.1.first = e'.1.first ∧ e.1.second < e'.1.second
  created : r.created.Pairwise fun t u => t.id.second < u.id.second
  times : ∀ t ∈ r.created, t.interval ≠ 0 → ∀ (k : ℕ) f, (r.firings t.task)[k]? = some f →
    f.key.first = t.first + k * t.interval
  next : ∀ t ∈ r.created, t.interval ≠ 0 → ∀ e ∈ r.dispatcher.timers.entries, e.2 = t.task →
    e.1.first = t.first + (r.firings t.task).length * t.interval
  single : ∀ t ∈ r.created, t.interval ≠ 0 → r.dispatcher.pending t.task ≤ 1

/-- The invariant of a run without `cancel`. -/
structure Uncancelled (r : TimerRun) : Prop extends Scheduled r where
  none : r.cancelled = []
  small : r.dispatcher.timeSeq < maxTimeouts
  clocks : ∀ f ∈ r.fired, f.key.first ≤ f.clock

theorem uncancelled_initial : Uncancelled initial :=
  ⟨scheduled_initial, rfl, by decide, by simp [initial]⟩

/-- What a call other than `cancel` leaves alone: it numbers new entries on, and enqueues nothing
before its time. -/
structure Forward (r q : TimerRun) : Prop where
  cancelled : q.cancelled = r.cancelled
  entries : ∀ e ∈ q.dispatcher.timers.entries,
    e ∈ r.dispatcher.timers.entries ∨ r.dispatcher.timeSeq < e.1.second
  fired : ∀ f ∈ q.fired, f ∈ r.fired ∨ f.key.first ≤ f.clock

theorem forward_record (hw : r.dispatcher.working = true) {tp interval : ℤ}
    {x : Dispatcher × TimerId} (hx : r.dispatcher.runAt tp interval = some x) :
    Forward r (r.record tp interval x) := by
  obtain ⟨d, tid⟩ := x
  obtain ⟨-, rfl, rfl⟩ | ⟨-, rfl, rfl⟩ := runAt_cases hw hx
  · refine ⟨rfl, ?_, fun f hf => Or.inl hf⟩
    intro e he
    rcases OrderedMap.mem_insert he with rfl | he
    · right
      dsimp only
      omega
    · exact Or.inl he
  · refine ⟨rfl, ?_, fun f hf => Or.inl hf⟩
    intro e he
    have he : e ∈ (r.dispatcher.timers.insertNew ⟨tp, r.dispatcher.timeSeq + 1⟩ _).entries := he
    unfold OrderedMap.insertNew at he
    split at he
    · exact Or.inl he
    · rcases OrderedMap.mem_insert he with rfl | he
      · exact Or.inr (Nat.lt_succ_self _)
      · exact Or.inl he

theorem forward_execute {i : ℕ} {d : Dispatcher} (hd : r.dispatcher.execute i = some d) :
    Forward r { r with dispatcher := d } := by
  obtain ⟨x, -, -, rfl⟩ | ⟨id, u, -, hu, hd⟩ := execute_cases hd
  · exact ⟨rfl, fun e he => Or.inl he, fun f hf => Or.inl hf⟩
  · obtain ⟨task, -, hd⟩ := repeatTask_eq_some hd
    rw [hu] at hd
    rw [hd]
    refine ⟨rfl, ?_, fun f hf => Or.inl hf⟩
    intro e he
    rcases OrderedMap.mem_insert he with rfl | he
    · exact Or.inr (Nat.lt_succ_self _)
    · exact Or.inl he

theorem forward_expire (now : ℤ) : Forward r (r.expire now) := by
  refine ⟨rfl, fun e he => Or.inl (mem_timers_expire he), ?_⟩
  intro f hf
  rcases List.mem_append.mp hf with hf | hf
  · exact Or.inl hf
  · obtain ⟨e, he, rfl⟩ := List.mem_map.mp hf
    exact Or.inr (le_of_expired he)

theorem forward_call (hw : r.dispatcher.working = true) (hne : ∀ tid, a ≠ .cancel tid)
    (hs : r.step a = some q) : Forward r q := by
  obtain ⟨tp, interval, x, hx, rfl⟩ | ⟨now, rfl⟩ | ⟨i, d, hd, rfl⟩ := call_cases hne hs
  · exact forward_record hw hx
  · exact forward_expire now
  · exact forward_execute hd

theorem uncancelled_step : TrInv (Guarded WithoutCancel step) Uncancelled := by
  rintro r a q ⟨hc, hs⟩ h
  obtain ⟨hne, hseq⟩ := hc.small hs
  have hforward := forward_call h.working hne hs
  refine ⟨scheduled_call h.toScheduled hne hs, hforward.cancelled.trans h.none, hseq, ?_⟩
  intro f hf
  rcases hforward.fired f hf with hf | hle
  · exact h.clocks f hf
  · exact hle

/-- A one-shot timer whose time has come and that has not fired is pending, and expires. -/
theorem Uncancelled.reached (h : Uncancelled r) (ht : t ∈ r.created) (hzero : t.interval = 0)
    {now : ℤ} (hle : t.first ≤ now) : (r.expire now).firings t.task ≠ [] := by
  have hone := h.oneShot t ht hzero
  have hcount := hone.count
  rw [task_of_zero hzero, firings_expire]
  intro hnil
  obtain ⟨hold, hnew⟩ := List.append_eq_nil_iff.mp hnil
  rw [hold, if_neg (by simp [h.none]), List.length_nil] at hcount
  -- the one entry of the timer is below the bound
  have hpos : 0 < r.dispatcher.pending (.once t.id) := by omega
  obtain ⟨e, he, htask⟩ := pending_pos.mp hpos
  have hkey := hone.key e he htask
  have hlt : e.1 < ⟨now, maxTimeouts⟩ := by
    rw [TimerId.lt_iff, hkey, hone.id]
    rcases hle.lt_or_eq with hlt | heq
    · exact Or.inl hlt
    · exact Or.inr ⟨heq, (h.ids t ht).trans_lt h.small⟩
  have hmem : e ∈ (r.dispatcher.expired now).filter (·.2 = .once t.id) :=
    List.mem_filter.mpr ⟨OrderedMap.mem_before he hlt, by simpa using htask⟩
  rw [List.map_eq_nil_iff.mp hnew] at hmem
  exact absurd hmem List.not_mem_nil

theorem Uncancelled.dispatched (h : Uncancelled r) : Dispatched r := by
  have hlive : ∀ id, id ∉ r.cancelled := by simp [h.none]
  refine ⟨?_, ?_, fun now t ht hzero hle => h.reached ht hzero hle, ?_, h.order, ?_, ?_, ?_⟩
  · intro t ht hzero
    have hcount := (h.oneShot t ht hzero).count
    rw [task_of_zero hzero]
    omega
  · intro f hf
    refine ⟨h.clocks f hf, ?_⟩
    intro t ht hzero htask
    have hone := h.oneShot t ht hzero
    rw [task_of_zero hzero] at htask
    have hkey := (hone.fired f hf htask).1
    exact ⟨hkey, by rw [hkey, hone.id]⟩
  · intro now
    exact (OrderedMap.before_sorted _ _).imp fun hlt => TimerId.lt_iff.mp hlt
  · intro t ht hne k f hf
    rw [task_of_ne_zero hne] at hf
    have htimes := congrArg (·[k]?) (h.repeating t ht hne).times
    obtain ⟨hk, rfl⟩ := List.getElem?_eq_some_iff.mp hf
    simpa [hk, Timer.due] using htimes
  · intro t ht hne e he htask
    rw [task_of_ne_zero hne] at htask ⊢
    obtain ⟨task, harmed⟩ := (h.repeating t ht hne).armed (hlive t.id)
    have hpos : 0 < r.dispatcher.pending (.again t.id) := pending_pos.mpr ⟨e, he, htask⟩
    have hcount := harmed.count
    have hidle : r.dispatcher.pool.count (.again t.id) = 0 := by omega
    have htp := harmed.tp
    rw [hidle] at htp
    rw [(harmed.key e he htask).2]
    push_cast at htp
    linarith
  · intro t ht hne
    obtain ⟨task, harmed⟩ := (h.repeating t ht hne).armed (hlive t.id)
    have hcount := harmed.count
    rw [task_of_ne_zero hne]
    omega

end TimerRun

end AlphaDb.Network
