import AlphaDb.Lib.Trace
import AlphaDb.Transaction.LockManager

/-! The queue discipline of one lock entry, over any order of requests, wake-ups and releases. -/
namespace AlphaDb.Transaction

open Trace

/-- An entry with the lock calls on it: `inWait` has the mode of every call that waits, `arrival`
the number of the last request of a transaction in the order of arrival. -/
structure LockQueue where
  entry : LockEntry
  inWait : TxnId → Option LockMode
  arrival : TxnId → ℕ
  clock : ℕ

/-- The push of a request, one evaluation of a wait predicate, and a release. -/
inductive QueueStep
  | request (txnId : TxnId) (mode : LockMode)
  | evaluate (txnId : TxnId)
  | unlock (txnId : TxnId)

namespace LockQueue

open LockEntry

variable {s t : LockQueue} {txnId : TxnId} {mode : LockMode} {r r' : Record}

def init (e : LockEntry) : LockQueue := ⟨e, fun _ => none, fun _ => 0, 0⟩

/-- A transaction requests the item only when it has no record; a waiting call may evaluate its
predicate at any time; anybody may unlock. -/
def step (s : LockQueue) : QueueStep → Option LockQueue
  | .request txnId mode =>
    if mode ≠ .none ∧ ∀ r ∈ s.entry.waitList, r.txnId ≠ txnId then
      some
        { entry := s.entry.push txnId mode
          inWait := Function.update s.inWait txnId (some mode)
          arrival := Function.update s.arrival txnId s.clock
          clock := s.clock + 1 }
    else none
  | .evaluate txnId =>
    (s.inWait txnId).bind fun mode =>
      (s.entry.evaluate txnId mode).map fun x =>
        { s with
          entry := x.2
          inWait := if x.1 then Function.update s.inWait txnId none else s.inWait }
  | .unlock txnId => some { s with entry := (s.entry.release txnId).2 }

/-- A record is granted behind others only if all of them are granted and shared, and it is. -/
def Behind (a b : Record) : Prop :=
  b.status = .granted → a.status = .granted ∧ a.mode = .shared ∧ b.mode = .shared

structure Disciplined (s : LockQueue) : Prop where
  discipline : s.entry.waitList.Pairwise Behind
  order : s.entry.waitList.Pairwise fun a b => s.arrival a.txnId < s.arrival b.txnId
  stamps : ∀ r ∈ s.entry.waitList, s.arrival r.txnId < s.clock
  modes : ∀ r ∈ s.entry.waitList, r.mode ≠ .none
  waits : ∀ txnId mode, s.inWait txnId = some mode ↔ ⟨txnId, mode, .waiting⟩ ∈ s.entry.waitList

theorem Disciplined.unique (h : Disciplined s) (hr : r ∈ s.entry.waitList)
    (hr' : r' ∈ s.entry.waitList) (he : r.txnId = r'.txnId) : r = r' := by
  have hnodup : (s.entry.waitList.map Record.txnId).Nodup := by
    refine List.pairwise_map.mpr (h.order.imp ?_)
    intro a b hlt hab
    rw [hab] at hlt
    exact absurd hlt (lt_irrefl _)
  exact List.inj_on_of_nodup_map hnodup hr hr' he

theorem disciplined_init {mode : LockMode} {cnt : ℤ} : Disciplined (init (.new mode cnt)) := by
  refine ⟨?_, ?_, ?_, ?_, ?_⟩ <;> simp [init, LockEntry.new]

theorem disciplined_request (h : Disciplined s) (hm : mode ≠ .none)
    (hnew : ∀ r ∈ s.entry.waitList, r.txnId ≠ txnId) :
    Disciplined
      { entry := s.entry.push txnId mode
        inWait := Function.update s.inWait txnId (some mode)
        arrival := Function.update s.arrival txnId s.clock
        clock := s.clock + 1 } := by
  have harrival : ∀ r ∈ s.entry.waitList,
      Function.update s.arrival txnId s.clock r.txnId = s.arrival r.txnId :=
    fun r hr => Function.update_of_ne (hnew r hr) ..
  refine ⟨?_, ?_, ?_, ?_, ?_⟩
  · refine List.pairwise_append.mpr ⟨h.discipline, List.pairwise_singleton .., ?_⟩
    intro a _ b hb
    obtain rfl := List.mem_singleton.mp hb
    exact fun hg => absurd hg (by simp)
  · refine List.pairwise_append.mpr ⟨?_, List.pairwise_singleton .., ?_⟩
    · refine h.order.imp_of_mem ?_
      intro a b ha hb hab
      dsimp only
      rw [harrival a ha, harrival b hb]
      exact hab
    · intro a ha b hb
      obtain rfl := List.mem_singleton.mp hb
      dsimp only
      rw [harrival a ha, Function.update_self]
      exact h.stamps a ha
  · intro r hr
    dsimp only
    rcases List.mem_append.mp hr with hr | hr
    · rw [harrival r hr]
      exact Nat.lt_succ_of_lt (h.stamps r hr)
    · obtain rfl := List.mem_singleton.mp hr
      rw [Function.update_self]
      exact Nat.lt_succ_self _
  · intro r hr
    rcases List.mem_append.mp hr with hr | hr
    · exact h.modes r hr
    · obtain rfl := List.mem_singleton.mp hr
      exact hm
  · intro txnId' mode'
    dsimp only
    rw [LockEntry.push, List.mem_append, List.mem_singleton]
    by_cases he : txnId' = txnId
    · subst he
      rw [Function.update_self]
      constructor
      · intro hmode
        right
        rw [Option.some.inj hmode]
      · rintro (hr | hr)
        · exact absurd rfl (hnew _ hr)
        · simpa using (congrArg Record.mode hr).symm
    · rw [Function.update_of_ne he, h.waits]
      simp [he]

theorem disciplined_unlock (h : Disciplined s) :
    Disciplined { s with entry := (s.entry.release txnId).2 } := by
  have hl : (s.entry.release txnId).2.waitList = s.entry.waitList.filter fun r =>
      r ≠ ⟨txnId, s.entry.currentLockMode, .granted⟩ := release_waitList
  have hsub : (s.entry.release txnId).2.waitList.Sublist s.entry.waitList := by
    rw [hl]
    exact List.filter_sublist
  refine ⟨h.discipline.sublist hsub, h.order.sublist hsub, fun r hr => h.stamps r (hsub.mem hr),
    fun r hr => h.modes r (hsub.mem hr), ?_⟩
  intro txnId' mode'
  dsimp only
  rw [h.waits, hl, List.mem_filter]
  simp

/-- A grant: the record of the transaction was waiting, and the queue is as before around it. -/
theorem Disciplined.granted {e : LockEntry} (h : Disciplined s) (hw : s.inWait txnId = some mode)
    (he : s.entry.evaluate txnId mode = some (true, e)) :
    ∃ pre post, s.entry.waitList = pre ++ ⟨txnId, mode, .waiting⟩ :: post ∧
      e.waitList = pre ++ ⟨txnId, mode, .granted⟩ :: post ∧
      ∀ a ∈ pre, a.mode = .shared ∧ a.status = .granted ∧ mode = .shared := by
  obtain ⟨pre, r, post, hl, ⟨hb, -⟩ | ⟨-, hr, -, hl', hcase⟩⟩ := evaluate_eq_some he
  · simp at hb
  · have hmem := (h.waits txnId mode).mp hw
    have hmode := h.modes _ hmem
    obtain rfl : r = ⟨txnId, mode, .waiting⟩ := h.unique (by simp [hl]) hmem hr
    refine ⟨pre, post, hl, hl', ?_⟩
    rcases hcase with ⟨-, rfl, -⟩ | ⟨hne, hall, -⟩
    · simp
    · intro a ha
      refine ⟨(hall a ha).1, (hall a ha).2, ?_⟩
      cases mode with
      | none => exact absurd rfl hmode
      | shared => rfl
      | exclusive => exact absurd rfl hne

theorem disciplined_grant {e : LockEntry} (h : Disciplined s) (hw : s.inWait txnId = some mode)
    (he : s.entry.evaluate txnId mode = some (true, e)) :
    Disciplined { s with entry := e, inWait := Function.update s.inWait txnId none } := by
  obtain ⟨pre, post, hl, hl', hpre⟩ := h.granted hw he
  have hd := h.discipline
  have ho := h.order
  rw [hl, List.pairwise_append, List.pairwise_cons] at hd ho
  obtain ⟨hdpre, ⟨hdr, hdpost⟩, hdcross⟩ := hd
  obtain ⟨hopre, ⟨hor, hopost⟩, hocross⟩ := ho
  have hmem : ∀ r ∈ e.waitList, r ∈ s.entry.waitList ∨ r = ⟨txnId, mode, .granted⟩ := by
    intro r hr
    rw [hl', List.mem_append, List.mem_cons] at hr
    rw [hl, List.mem_append, List.mem_cons]
    tauto
  have hself : (⟨txnId, mode, .waiting⟩ : Record) ∈ s.entry.waitList := by simp [hl]
  refine ⟨?_, ?_, ?_, ?_, ?_⟩
  · dsimp only
    rw [hl', List.pairwise_append, List.pairwise_cons]
    refine ⟨hdpre, ⟨?_, hdpost⟩, ?_⟩
    · intro b hb hg
      have := (hdr b hb hg).1
      simp at this
    · intro a ha b hb
      rcases List.mem_cons.mp hb with rfl | hb
      · obtain ⟨hm, hg, hshared⟩ := hpre a ha
        exact fun _ => ⟨hg, hm, hshared⟩
      · exact hdcross a ha b (List.mem_cons_of_mem _ hb)
  · dsimp only
    rw [hl', List.pairwise_append, List.pairwise_cons]
    refine ⟨hopre, ⟨hor, hopost⟩, ?_⟩
    intro a ha b hb
    rcases List.mem_cons.mp hb with rfl | hb
    · exact hocross a ha ⟨txnId, mode, .waiting⟩ List.mem_cons_self
    · exact hocross a ha b (List.mem_cons_of_mem _ hb)
  · intro r hr
    rcases hmem r hr with hr | rfl
    · exact h.stamps r hr
    · exact h.stamps ⟨txnId, mode, .waiting⟩ hself
  · intro r hr
    rcases hmem r hr with hr | rfl
    · exact h.modes r hr
    · exact h.modes ⟨txnId, mode, .waiting⟩ hself
  · intro txnId' mode'
    dsimp only
    by_cases hne : txnId' = txnId
    · subst hne
      rw [Function.update_self]
      refine ⟨fun hn => absurd hn (by simp), fun hr => ?_⟩
      -- the transaction would have a second record
      rw [hl', List.mem_append, List.mem_cons] at hr
      rcases hr with hr | hr | hr
      · have := (hpre _ hr).2.1
        simp at this
      · simp at hr
      · exact absurd (hor _ hr) (lt_irrefl _)
    · rw [Function.update_of_ne hne, h.waits, hl, hl']
      simp [hne]

/-- A request is granted only ahead of every other request that still waits. -/
theorem granted_first {e : LockEntry} {txnId' : TxnId} {mode' : LockMode} (h : Disciplined s)
    (hw : s.inWait txnId = some mode) (he : s.entry.evaluate txnId mode = some (true, e))
    (hne : txnId' ≠ txnId) (hw' : s.inWait txnId' = some mode') :
    s.arrival txnId < s.arrival txnId' := by
  obtain ⟨pre, post, hl, -, hpre⟩ := h.granted hw he
  have ho := h.order
  rw [hl, List.pairwise_append, List.pairwise_cons] at ho
  have hmem := (h.waits txnId' mode').mp hw'
  rw [hl, List.mem_append, List.mem_cons] at hmem
  rcases hmem with hmem | hmem | hmem
  · have := (hpre _ hmem).2.1
    simp at this
  · exact absurd (congrArg Record.txnId hmem) hne
  · exact ho.2.1.1 _ hmem

theorem disciplined_step : TrInv (fun s a t => step s a = some t) Disciplined := by
  intro s a t hs h
  cases a with
  | request txnId mode =>
    simp only [step] at hs
    split at hs
    · next hc =>
      obtain rfl := Option.some.inj hs
      exact disciplined_request h hc.1 hc.2
    · simp at hs
  | evaluate txnId =>
    obtain ⟨mode, hw, hs⟩ := Option.bind_eq_some_iff.mp hs
    obtain ⟨⟨b, e⟩, he, rfl⟩ := Option.map_eq_some_iff.mp hs
    cases b with
    | true => exact disciplined_grant h hw he
    | false =>
      obtain ⟨_, _, _, -, ⟨-, hsame⟩ | ⟨hb, -⟩⟩ := evaluate_eq_some he
      · obtain rfl : e = s.entry := hsame
        exact h
      · simp at hb
  | unlock txnId =>
    obtain rfl := Option.some.inj hs
    exact disciplined_unlock h

/-- Records in which a granted one is never behind a waiting one: the granted ones are a prefix. -/
theorem granted_prefix {l : List Record} (h : l.Pairwise Behind) :
    ∃ granted rest, l = granted ++ rest ∧ (∀ r ∈ granted, r.status = .granted) ∧
      (∀ r ∈ rest, r.status = .waiting) ∧
      ((∃ r, granted = [r]) ∨ ∀ r ∈ granted, r.mode = .shared) := by
  induction l with
  | nil => exact ⟨[], [], rfl, by simp, by simp, Or.inr (by simp)⟩
  | cons a l ih =>
    obtain ⟨ha, hl⟩ := List.pairwise_cons.mp h
    cases hs : a.status with
    | waiting =>
      refine ⟨[], a :: l, rfl, by simp, ?_, Or.inr (by simp)⟩
      intro r hr
      rcases List.mem_cons.mp hr with rfl | hr
      · exact hs
      · cases hst : r.status with
        | waiting => rfl
        | granted =>
          have := (ha r hr hst).1
          simp [hs] at this
    | granted =>
      obtain ⟨g, rest, rfl, hg, hrest, -⟩ := ih hl
      refine ⟨a :: g, rest, rfl, ?_, hrest, ?_⟩
      · intro r hr
        rcases List.mem_cons.mp hr with rfl | hr
        · exact hs
        · exact hg r hr
      · cases g with
        | nil => exact Or.inl ⟨a, rfl⟩
        | cons b g =>
          right
          have hb := ha b (by simp) (hg b (by simp))
          intro r hr
          rcases List.mem_cons.mp hr with rfl | hr
          · exact hb.2.1
          · exact (ha r (List.mem_append_left _ hr) (hg r hr)).2.2

/-- The discipline over whole runs: the granted records are a prefix of the queue, one exclusive
record alone or only shared ones, and a request is granted only if it arrived before every other
request that still waits. -/
theorem run_disciplined {mode : LockMode} {cnt : ℤ} {steps : List QueueStep} {s : LockQueue}
    (h : MTr (fun s a t => step s a = some t) (init (.new mode cnt)) steps s) :
    (∃ granted rest, s.entry.waitList = granted ++ rest ∧ (∀ r ∈ granted, r.status = .granted) ∧
      (∀ r ∈ rest, r.status = .waiting) ∧
      ((∃ r, granted = [r] ∧ r.mode = .exclusive) ∨ ∀ r ∈ granted, r.mode = .shared)) ∧
    ∀ txnId t, step s (.evaluate txnId) = some t → t.inWait txnId = none →
      ∀ txnId', txnId' ≠ txnId → s.inWait txnId' ≠ none →
        s.arrival txnId < s.arrival txnId' := by
  have hd := mTr_trInv disciplined_step h disciplined_init
  constructor
  · obtain ⟨g, rest, hl, hg, hrest, hone⟩ := granted_prefix hd.discipline
    refine ⟨g, rest, hl, hg, hrest, ?_⟩
    rcases hone with ⟨r, rfl⟩ | hshared
    · cases hm : r.mode with
      | none => exact absurd hm (hd.modes r (by simp [hl]))
      | shared => exact Or.inr (by simpa using hm)
      | exclusive => exact Or.inl ⟨r, rfl, hm⟩
    · exact Or.inr hshared
  · intro txnId t hs ht txnId' hne hw'
    obtain ⟨mode, hw, hs⟩ := Option.bind_eq_some_iff.mp hs
    obtain ⟨⟨b, e⟩, he, rfl⟩ := Option.map_eq_some_iff.mp hs
    obtain ⟨mode', hw'⟩ := Option.ne_none_iff_exists'.mp hw'
    cases b with
    | true => exact granted_first hd hw he hne hw'
    | false => simp [hw] at ht

/-- Two shared requests are granted and an exclusive one waits behind them. -/
theorem run_disciplined_three : ∃ s : LockQueue,
    MTr (fun s a t => step s a = some t) (init (.new .none 0))
      [.request 1 .shared, .request 2 .shared, .request 3 .exclusive, .evaluate 2, .evaluate 3,
        .evaluate 1, .evaluate 2] s ∧
    s.entry.waitList =
      [⟨1, .shared, .granted⟩, ⟨2, .shared, .granted⟩, ⟨3, .exclusive, .waiting⟩] ∧
    ∃ granted rest, s.entry.waitList = granted ++ rest ∧ (∀ r ∈ granted, r.status = .granted) ∧
      ∀ r ∈ rest, r.status = .waiting := by
  have h : (exec step (init (.new .none 0))
      [.request 1 .shared, .request 2 .shared, .request 3 .exclusive, .evaluate 2, .evaluate 3,
        .evaluate 1, .evaluate 2]).any (fun s => s.entry.waitList =
          [⟨1, .shared, .granted⟩, ⟨2, .shared, .granted⟩, ⟨3, .exclusive, .waiting⟩]) = true := by
    decide +kernel
  obtain ⟨s, hs, hp⟩ := exists_mTr_of_exec h
  obtain ⟨⟨g, rest, hl, hg, hrest, -⟩, -⟩ := run_disciplined hs
  exact ⟨s, hs, of_decide_eq_true hp, g, rest, hl, hg, hrest⟩

end LockQueue

end AlphaDb.Transaction
