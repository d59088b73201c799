import AlphaDb.Lib.Trace
import AlphaDb.Transaction.LockManager

/-! Lock conversion: a transaction may request an item on which it already has a record. The
exclusive predicate finds its request by the transaction at the head of the queue only. -/
namespace AlphaDb.Transaction

open Trace

/-- An entry with the calls of `lock` that wait on it; a transaction may have any number of them. -/
structure ConversionQueue where
  entry : LockEntry
  calls : List (TxnId × LockMode)

inductive ConversionStep
  | request (txnId : TxnId) (mode : LockMode)
  | evaluate (txnId : TxnId) (mode : LockMode)
  | unlock (txnId : TxnId)

namespace ConversionQueue

open LockEntry

variable {s t : ConversionQueue} {e e' : LockEntry} {txnId : TxnId} {mode : LockMode} {b : Bool}
  {a : ConversionStep}

def init (e : LockEntry) : ConversionQueue := ⟨e, []⟩

/-- Anybody may request and unlock; a call that waits may evaluate its predicate at any time. -/
def step (s : ConversionQueue) : ConversionStep → Option ConversionQueue
  | .request txnId mode => some ⟨s.entry.push txnId mode, (txnId, mode) :: s.calls⟩
  | .evaluate txnId mode =>
    if (txnId, mode) ∈ s.calls then
      (s.entry.evaluate txnId mode).map fun x =>
        ⟨x.2, if x.1 then s.calls.erase (txnId, mode) else s.calls⟩
    else none
  | .unlock txnId => some { s with entry := (s.entry.release txnId).2 }

/-- No transaction shares the item with one that holds it exclusively. -/
def ExclusiveAlone (e : LockEntry) : Prop :=
  ∀ r ∈ e.waitList, ∀ r' ∈ e.waitList, r.status = .granted → r.mode = .exclusive →
    r'.status = .granted → r'.txnId = r.txnId

/-- If the first record is one of the transaction, then the record behind it still waits. -/
def NextWaits (txnId : TxnId) : List Record → Prop
  | a :: b :: _ => a.txnId = txnId → b.status = .waiting
  | _ => True

instance (txnId : TxnId) : ∀ l, Decidable (NextWaits txnId l)
  | [] => .isTrue trivial
  | [_] => .isTrue trivial
  | a :: b :: _ => inferInstanceAs (Decidable (a.txnId = txnId → b.status = .waiting))

/-- An exclusive predicate is evaluated only while the next record behind one of its own
transaction at the head waits. -/
def ConvertsFirst (s : ConversionQueue) : ConversionStep → Prop
  | .evaluate txnId .exclusive => NextWaits txnId s.entry.waitList
  | _ => True

instance : ∀ (s : ConversionQueue) (a : ConversionStep), Decidable (s.ConvertsFirst a)
  | _, .request .. => .isTrue trivial
  | _, .evaluate _ .none => .isTrue trivial
  | _, .evaluate _ .shared => .isTrue trivial
  | s, .evaluate txnId .exclusive => inferInstanceAs (Decidable (NextWaits txnId s.entry.waitList))
  | _, .unlock .. => .isTrue trivial

theorem step_evaluate (hs : step s (.evaluate txnId mode) = some t) :
    (txnId, mode) ∈ s.calls ∧ ∃ b e, s.entry.evaluate txnId mode = some (b, e) ∧
      t = ⟨e, if b then s.calls.erase (txnId, mode) else s.calls⟩ := by
  simp only [step] at hs
  split at hs
  · next hc =>
    obtain ⟨⟨b, e⟩, he, rfl⟩ := Option.map_eq_some_iff.mp hs
    exact ⟨hc, b, e, he, rfl⟩
  · simp at hs

/-- A record is granted behind another only if both are granted to different transactions, and
neither is exclusive. -/
def Shares (a b : Record) : Prop :=
  b.status = .granted →
    a.status = .granted ∧ a.mode ≠ .exclusive ∧ b.mode ≠ .exclusive ∧ a.txnId ≠ b.txnId

theorem exclusiveAlone_of_shares (h : e.waitList.Pairwise Shares) : ExclusiveAlone e := by
  have hboth := List.Pairwise.forall_of_forall_of_flip
    (R := fun r r' => r.status = .granted → r.mode = .exclusive → r'.status = .granted →
      r'.txnId = r.txnId) (l := e.waitList) (fun _ _ _ _ _ => rfl) ?_ ?_
  · exact fun r hr r' hr' => hboth hr hr'
  · -- the exclusive record in front
    apply h.imp
    intro r r' hs _ hx hg'
    exact absurd hx (hs hg').2.1
  · -- the exclusive record behind
    apply h.imp
    intro r' r hs hg hx _
    exact absurd hx (hs hg).2.2.1

theorem shares_push (h : e.waitList.Pairwise Shares) :
    (e.push txnId mode).waitList.Pairwise Shares := by
  refine List.pairwise_append.mpr ⟨h, List.pairwise_singleton .., ?_⟩
  intro a _ b hb hg
  obtain rfl := List.mem_singleton.mp hb
  simp at hg

theorem shares_release (h : e.waitList.Pairwise Shares) :
    (e.release txnId).2.waitList.Pairwise Shares := by
  rw [release_waitList]
  exact h.sublist List.filter_sublist

/-- Behind a record that waits every record waits. -/
theorem waiting_behind {r b : Record} {rest : List Record} (h : (r :: b :: rest).Pairwise Shares)
    (hb : b.status = .waiting) : ∀ a ∈ b :: rest, a.status = .waiting := by
  intro a ha
  rcases List.mem_cons.mp ha with rfl | ha
  · exact hb
  · cases hs : a.status with
    | waiting => rfl
    | granted =>
      have hba := ((List.pairwise_cons.mp (List.pairwise_cons.mp h).2).1 a ha hs).1
      simp [hb] at hba

/-- A grant keeps the order of the queue if an exclusive one has only waiting records behind. -/
theorem shares_evaluate (h : e.waitList.Pairwise Shares)
    (hc : mode = .exclusive → NextWaits txnId e.waitList)
    (he : e.evaluate txnId mode = some (b, e')) : e'.waitList.Pairwise Shares := by
  obtain ⟨pre, r, post, hl, ⟨-, rfl⟩ | ⟨-, hr, hpre, hl', hcase⟩⟩ := evaluate_eq_some he
  · exact h
  rw [hl] at h hc
  rw [hl']
  rcases hcase with ⟨rfl, rfl, -⟩ | ⟨hm, hall, -⟩
  · -- the head becomes exclusive, and nothing behind it is granted
    refine List.pairwise_cons.mpr ⟨?_, (List.pairwise_cons.mp h).2⟩
    intro a ha hg
    cases post with
    | nil => simp at ha
    | cons b rest =>
      have := waiting_behind h (hc rfl hr) a ha
      simp [hg] at this
  · obtain ⟨hpp, hrp, hcross⟩ := List.pairwise_append.mp h
    obtain ⟨hpost, htail⟩ := List.pairwise_cons.mp hrp
    refine List.pairwise_append.mpr ⟨hpp, List.pairwise_cons.mpr ⟨?_, htail⟩, ?_⟩
    · intro a ha hg
      obtain ⟨-, -, hx, hne⟩ := hpost a ha hg
      exact ⟨rfl, hm, hx, hr ▸ hne⟩
    · intro a ha c hc'
      rcases List.mem_cons.mp hc' with rfl | hc'
      · intro _
        refine ⟨(hall a ha).2, ?_, hm, hpre a ha⟩
        simp [(hall a ha).1]
      · exact hcross a ha c (List.mem_cons_of_mem _ hc')

/-- One evaluation of an exclusive predicate keeps exclusive holders alone exactly if the next
record waits when the transaction has the head. -/
theorem evaluate_exclusiveAlone (h : e.waitList.Pairwise Shares)
    (he : e.evaluate txnId .exclusive = some (b, e')) :
    ExclusiveAlone e' ↔ NextWaits txnId e.waitList := by
  refine ⟨fun halone => ?_, fun hc => exclusiveAlone_of_shares (shares_evaluate h (fun _ => hc) he)⟩
  cases hl : e.waitList with
  | nil => trivial
  | cons r rest =>
    cases rest with
    | nil => trivial
    | cons a rest =>
      intro hr
      by_contra hw
      have hg : a.status = .granted := by
        cases hs : a.status with
        | granted => rfl
        | waiting => exact absurd hs hw
      rw [hl] at h
      have hne := ((List.pairwise_cons.mp h).1 a (by simp) hg).2.2.2
      -- the predicate grants the head, with the other holder right behind it
      have hhead : e'.waitList = ⟨txnId, .exclusive, .granted⟩ :: a :: rest := by
        simp only [evaluate, hl, hr, if_true] at he
        rw [← (Prod.mk.inj (Option.some.inj he)).2]
      have := halone ⟨txnId, .exclusive, .granted⟩ (by simp [hhead]) a (by simp [hhead]) rfl rfl hg
      exact hne (hr.trans this.symm)

theorem shares_step (hc : s.ConvertsFirst a) (hs : step s a = some t)
    (h : s.entry.waitList.Pairwise Shares) : t.entry.waitList.Pairwise Shares := by
  cases a with
  | request txnId mode =>
    obtain rfl := Option.some.inj hs
    exact shares_push h
  | unlock txnId =>
    obtain rfl := Option.some.inj hs
    exact shares_release h
  | evaluate txnId mode =>
    obtain ⟨_, b, e, he, rfl⟩ := step_evaluate hs
    apply shares_evaluate h _ he
    rintro rfl
    exact hc

/-- Over whole runs in which a conversion is evaluated only while the next record waits, exclusive
holders are alone; and the condition is exact for every evaluation of an exclusive predicate. -/
theorem run_exclusiveAlone {cnt : ℤ} {steps : List ConversionStep}
    (h : MTr (Guarded ConvertsFirst step) (init (.new mode cnt)) steps s) :
    ExclusiveAlone s.entry ∧
      ∀ txnId t, step s (.evaluate txnId .exclusive) = some t →
        (ExclusiveAlone t.entry ↔ s.ConvertsFirst (.evaluate txnId .exclusive)) := by
  have hinv : TrInv (Guarded ConvertsFirst step) fun s => s.entry.waitList.Pairwise Shares :=
    fun _ _ _ hs hsh => shares_step hs.1 hs.2 hsh
  have hsh := mTr_trInv hinv h (by simp [init, LockEntry.new])
  refine ⟨exclusiveAlone_of_shares hsh, ?_⟩
  intro txnId t hs
  obtain ⟨_, b, e, he, rfl⟩ := step_evaluate hs
  exact evaluate_exclusiveAlone hsh he

/-- A sole holder converts its lock; a request of another transaction then waits behind it. -/
theorem run_exclusiveAlone_converted : ∃ s : ConversionQueue,
    MTr (Guarded ConvertsFirst step) (init (.new .none 0))
      [.request 1 .shared, .evaluate 1 .shared, .request 1 .exclusive, .request 2 .shared,
        .evaluate 1 .exclusive, .evaluate 2 .shared] s ∧
    s.entry.waitList = [⟨1, .exclusive, .granted⟩, ⟨1, .exclusive, .waiting⟩,
      ⟨2, .shared, .waiting⟩] ∧
    ExclusiveAlone s.entry := by
  have h : (execGuarded ConvertsFirst step (init (.new .none 0))
      [.request 1 .shared, .evaluate 1 .shared, .request 1 .exclusive, .request 2 .shared,
        .evaluate 1 .exclusive, .evaluate 2 .shared]).any (fun s => s.entry.waitList =
          [⟨1, .exclusive, .granted⟩, ⟨1, .exclusive, .waiting⟩, ⟨2, .shared, .waiting⟩]) =
        true := by
    decide +kernel
  obtain ⟨s, hs, hp⟩ := exists_mTr_of_execGuarded h
  exact ⟨s, hs, of_decide_eq_true hp, (run_exclusiveAlone hs).1⟩

/-- Two transactions share the item; the first one asks for it exclusively and gets it at once. -/
theorem conversion_over_shared : ∃ s : ConversionQueue,
    MTr (fun s a t => step s a = some t) (init (.new .none 0))
      [.request 1 .shared, .evaluate 1 .shared, .request 2 .shared, .evaluate 2 .shared,
        .request 1 .exclusive, .evaluate 1 .exclusive] s ∧
    ¬ ExclusiveAlone s.entry := by
  have h : (exec step (init (.new .none 0))
      [.request 1 .shared, .evaluate 1 .shared, .request 2 .shared, .evaluate 2 .shared,
        .request 1 .exclusive, .evaluate 1 .exclusive]).any (fun s => s.entry.waitList =
          [⟨1, .exclusive, .granted⟩, ⟨2, .shared, .granted⟩, ⟨1, .exclusive, .waiting⟩]) =
        true := by
    decide +kernel
  obtain ⟨s, hs, hp⟩ := exists_mTr_of_exec h
  refine ⟨s, hs, fun halone => ?_⟩
  have := halone ⟨1, .exclusive, .granted⟩ (by simp [of_decide_eq_true hp])
    ⟨2, .shared, .granted⟩ (by simp [of_decide_eq_true hp]) rfl rfl rfl
  simp at this

end ConversionQueue

end AlphaDb.Transaction
