import AlphaDb.Lib.Serial
import AlphaDb.Transaction.TableQueues

/-! Two-phase locking by the rules of `twopl_txn_manager`: a transaction accesses an item only with
a lock on it, and requests no lock once it has begun to unlock. What any interleaving of such
transactions does to the database is what they do one after another, in the order of their last
grants. -/
namespace AlphaDb.Transaction

open Trace

/-- A transaction reads an item, or writes it. -/
structure Access where
  txnId : TxnId
  item : DataItem
  write : Bool
  deriving DecidableEq, Repr

namespace Access

/-- Accesses of two transactions to one item conflict unless both read. -/
def Conflicts (a b : Access) : Prop :=
  a.txnId ≠ b.txnId ∧ a.item = b.item ∧ (a.write = true ∨ b.write = true)

end Access

/-- What transactions make of the values they find, over the values `V` of items and the private
state `L` of a transaction. -/
structure Program (V L : Type*) where
  read : TxnId → DataItem → V → L → L
  write : TxnId → DataItem → V → L → V × L

/-- The database, and what every transaction knows. -/
structure Store (V L : Type*) where
  value : DataItem → V
  known : TxnId → L

namespace Program

variable {V L : Type*} {prog : Program V L} {a b : Access}

def access (prog : Program V L) (m : Store V L) (a : Access) : Store V L :=
  if a.write then
    let x := prog.write a.txnId a.item (m.value a.item) (m.known a.txnId)
    ⟨Function.update m.value a.item x.1, Function.update m.known a.txnId x.2⟩
  else
    { m with
      known := Function.update m.known a.txnId
        (prog.read a.txnId a.item (m.value a.item) (m.known a.txnId)) }

/-- Accesses of two transactions that do not conflict have the same effect in both orders. -/
theorem access_commute (hid : a.txnId ≠ b.txnId) (h : ¬ a.Conflicts b) :
    Serial.Commute prog.access a b := by
  intro m
  have hread : a.item = b.item → a.write = false ∧ b.write = false := by
    intro hi
    simpa [Access.Conflicts, hid, hi, not_or] using h
  by_cases hi : a.item = b.item
  · obtain ⟨ha, hb⟩ := hread hi
    simp [access, ha, hb, Function.update_of_ne hid, Function.update_of_ne hid.symm,
      Function.update_comm hid]
  · cases ha : a.write <;> cases hb : b.write <;>
      simp [access, ha, hb, Function.update_of_ne hid, Function.update_of_ne hid.symm,
        Function.update_of_ne hi, Function.update_of_ne (Ne.symm hi), Function.update_comm hid,
        Function.update_comm hi]

end Program

/-- The lock manager and the history of its clients: which transactions have begun to unlock, when
each got its last lock, and all accesses so far. -/
structure TwoPhase (n : ℕ) where
  locks : LockSystem n
  shrinking : TxnId → Bool
  lockPoint : TxnId → ℕ
  clock : ℕ
  schedule : List Access

inductive TwoPhaseStep (n : ℕ)
  | lock (a : LockStep n)
  | access (a : Access)

namespace TwoPhase

variable {n : ℕ} {s t : TwoPhase n} {l : LockSystem n} {a : LockStep n} {c : Fin n} {call : Call}
  {txnId : TxnId} {mode : LockMode} {item : DataItem}

def init : TwoPhase n := ⟨.init, fun _ => false, fun _ => 0, 1, []⟩

/-- The transaction whose request a step of the lock manager grants. -/
def granted (s t : LockSystem n) : LockStep n → Option TxnId
  | .evaluate c => if (t.calls c).isNone then (s.calls c).map Call.txnId else none
  | _ => none

/-- The transaction that begins to unlock. -/
def unlocks : LockStep n → Option TxnId
  | .search _ txnId _ => some txnId
  | _ => none

def locked (s : TwoPhase n) (a : LockStep n) (locks : LockSystem n) : TwoPhase n :=
  { locks := locks
    shrinking := (unlocks a).elim s.shrinking fun txnId => Function.update s.shrinking txnId true
    lockPoint := (granted s.locks locks a).elim s.lockPoint fun txnId =>
      Function.update s.lockPoint txnId s.clock
    clock := s.clock + 1
    schedule := s.schedule }

def step (s : TwoPhase n) : TwoPhaseStep n → Option (TwoPhase n)
  | .lock a => (s.locks.step a).map (s.locked a)
  | .access a => some { s with schedule := s.schedule ++ [a] }

/-- The transaction has the lock that it needs for the access. -/
def Permits (s : LockSystem n) (a : Access) : Prop :=
  s.Holds a.txnId a.item .exclusive ∨ (a.write = false ∧ s.Holds a.txnId a.item .shared)

/-- The rules of the clients. -/
def Rules (s : TwoPhase n) : TwoPhaseStep n → Prop
  | .lock (.add c txnId mode item raw) =>
    s.locks.OneAtATime (.add c txnId mode item raw) ∧ s.shrinking txnId = false
  | .lock a => s.locks.OneAtATime a
  | .access a => Permits s.locks a

instance {s : LockSystem n} {a : Access} : Decidable (Permits s a) :=
  inferInstanceAs (Decidable (_ ∨ _))

instance : ∀ (s : TwoPhase n) (a : TwoPhaseStep n), Decidable (s.Rules a)
  | _, .lock (.add ..) => inferInstanceAs (Decidable (_ ∧ _))
  | s, .lock (.push c) => inferInstanceAs (Decidable (s.locks.OneAtATime (.push c)))
  | s, .lock (.evaluate c) => inferInstanceAs (Decidable (s.locks.OneAtATime (.evaluate c)))
  | s, .lock (.search c txnId item) =>
    inferInstanceAs (Decidable (s.locks.OneAtATime (.search c txnId item)))
  | s, .lock (.delete c) => inferInstanceAs (Decidable (s.locks.OneAtATime (.delete c)))
  | s, .lock (.finish c) => inferInstanceAs (Decidable (s.locks.OneAtATime (.finish c)))
  | s, .access a => inferInstanceAs (Decidable (Permits s.locks a))

/-- The transactions of the history, in the order of their last grants. -/
def serialOrder (s : TwoPhase n) : List TxnId :=
  (s.schedule.map Access.txnId).dedup.insertionSort fun i j => s.lockPoint i ≤ s.lockPoint j

/-- What holds in every run by the rules. An access is still covered by its lock, or its transaction
shrinks and any conflicting holder got its lock later. -/
structure Serializes (s : TwoPhase n) : Prop where
  orderly : s.locks.Orderly
  phases : ∀ c call, s.locks.calls c = some call →
    (s.shrinking call.txnId = true ↔ call.phase = .searched ∨ call.phase = .deleted)
  stamps : ∀ txnId, s.lockPoint txnId < s.clock
  past : ∀ a ∈ s.schedule, Permits s.locks a ∨
    (s.shrinking a.txnId = true ∧ ∀ txnId mode, txnId ≠ a.txnId →
      s.locks.Holds txnId a.item mode → a.write = true ∨ mode = .exclusive →
      s.lockPoint a.txnId < s.lockPoint txnId)
  conflicts : s.schedule.Pairwise fun a b => a.Conflicts b →
    s.shrinking a.txnId = true ∧ s.lockPoint a.txnId < s.lockPoint b.txnId

theorem serializes_init : Serializes (init : TwoPhase n) := by
  refine ⟨LockSystem.orderly_init, ?_, ?_, ?_, ?_⟩ <;> simp [init, LockSystem.init]

theorem Rules.oneAtATime (h : s.Rules (.lock a)) : s.locks.OneAtATime a := by
  cases a with
  | add => exact h.1
  | push | evaluate | search | delete | finish => exact h

theorem shrinking_locked (h : s.shrinking txnId = true) :
    (s.locked a l).shrinking txnId = true := by
  unfold locked
  cases unlocks a with
  | none => exact h
  | some txnId' => simp [Function.update_apply, h]

/-- A lock point moves only to the present, when a request of the transaction is granted. -/
theorem lockPoint_locked (txnId : TxnId) : (s.locked a l).lockPoint txnId = s.lockPoint txnId ∨
    ((s.locked a l).lockPoint txnId = s.clock ∧ granted s.locks l a = some txnId) := by
  unfold locked
  cases hg : granted s.locks l a with
  | none => exact Or.inl rfl
  | some txnId' =>
    by_cases he : txnId = txnId'
    · subst he
      exact Or.inr ⟨by simp, rfl⟩
    · exact Or.inl (by simp [he])

theorem Serializes.lockPoint_le (h : Serializes s) :
    s.lockPoint txnId ≤ (s.locked a l).lockPoint txnId := by
  rcases lockPoint_locked (s := s) (a := a) (l := l) txnId with he | ⟨he, -⟩
  · exact he.ge
  · rw [he]
    exact (h.stamps txnId).le

/-- A transaction that shrinks has its lock point for good. -/
theorem Serializes.lockPoint_eq (h : Serializes s) (hs : s.locks.step a = some l)
    (hsh : s.shrinking txnId = true) : (s.locked a l).lockPoint txnId = s.lockPoint txnId := by
  rcases lockPoint_locked (s := s) (a := a) (l := l) txnId with he | ⟨-, hg⟩
  · exact he
  · cases a with
    | evaluate c =>
      -- the granted call waits, so its transaction does not shrink
      obtain ⟨call, hc, hp, -⟩ := LockSystem.step_evaluate hs
      have hcall : call.txnId = txnId := by
        simpa [granted, hc] using (Option.ite_none_right_eq_some.mp hg).2
      have := (h.phases c call hc).mp (hcall ▸ hsh)
      simp [hp] at this
    | add | push | search | delete | finish => simp [granted] at hg

theorem phases_locked (h : Serializes s) (hr : s.Rules (.lock a)) (hs : s.locks.step a = some l) :
    ∀ c call, l.calls c = some call → ((s.locked a l).shrinking call.txnId = true ↔
      call.phase = .searched ∨ call.phase = .deleted) := by
  -- a thread changes its own call; the other calls keep their phases and transactions
  have hframe : ∀ c x, unlocks a = none → l.calls = Function.update s.locks.calls c x →
      (∀ call, x = some call → (s.shrinking call.txnId = true ↔
        call.phase = .searched ∨ call.phase = .deleted)) →
      ∀ c call, l.calls c = some call → ((s.locked a l).shrinking call.txnId = true ↔
        call.phase = .searched ∨ call.phase = .deleted) := by
    intro c x hu hcalls hx c' call hc'
    rw [hcalls] at hc'
    simp only [locked, hu, Option.elim_none]
    by_cases he : c' = c
    · subst he
      rw [Function.update_self] at hc'
      exact hx call hc'
    · rw [Function.update_of_ne he] at hc'
      exact h.phases c' call hc'
  cases a with
  | add c txnId mode item raw =>
    obtain ⟨-, rfl⟩ := LockSystem.step_add hs
    refine hframe c _ rfl rfl ?_
    rintro _ ⟨⟩
    simp [hr.2]
  | push c =>
    obtain ⟨call, hc, hp, rfl⟩ := LockSystem.step_push hs
    refine hframe c _ rfl rfl ?_
    rintro _ ⟨⟩
    simpa [hp] using h.phases c call hc
  | evaluate c =>
    obtain ⟨call, hc, -, ⟨rfl, -⟩ | ⟨e, -, rfl⟩⟩ := LockSystem.step_evaluate hs
    · exact h.phases
    · exact hframe c none rfl rfl (by simp)
  | search c txnId item =>
    obtain ⟨-, p, -, rfl⟩ := LockSystem.step_search hs
    intro c' call hc'
    by_cases he : c' = c
    · subst he
      obtain rfl := by simpa using hc'
      simp [locked, unlocks]
    · have hc' : s.locks.calls c' = some call := by simpa [he] using hc'
      have hne : call.txnId ≠ txnId := hr c' call hc'
      simpa [locked, unlocks, hne] using h.phases c' call hc'
  | delete c =>
    obtain ⟨call, hc, hp, rfl⟩ := LockSystem.step_delete hs
    refine hframe c _ rfl rfl ?_
    rintro _ ⟨⟩
    simpa [hp] using h.phases c call hc
  | finish c =>
    obtain ⟨call, hc, -, hcalls, -⟩ := LockSystem.step_finish hs
    exact hframe c none rfl hcalls (by simp)

/-- An access stays covered by its lock until its transaction unlocks the item, and then nobody
holds a conflicting lock. -/
theorem past_locked (h : Serializes s) (hr : s.Rules (.lock a)) (hs : s.locks.step a = some l)
    {x : Access} (hx : x ∈ s.schedule) : Permits l x ∨
      ((s.locked a l).shrinking x.txnId = true ∧ ∀ txnId mode, txnId ≠ x.txnId →
        l.Holds txnId x.item mode → x.write = true ∨ mode = .exclusive →
        (s.locked a l).lockPoint x.txnId < (s.locked a l).lockPoint txnId) := by
  have hg : Guarded LockSystem.OneAtATime LockSystem.step s.locks a l := ⟨hr.oneAtATime, hs⟩
  -- a lock that covers the access is kept, or its transaction is unlocking
  have hkeep : ∀ mode, s.locks.Holds x.txnId x.item mode → (x.write = true → mode = .exclusive) →
      l.Holds x.txnId x.item mode ∨ ((s.locked a l).shrinking x.txnId = true ∧
        ∀ txnId mode, txnId ≠ x.txnId → l.Holds txnId x.item mode →
          x.write = true ∨ mode = .exclusive →
          (s.locked a l).lockPoint x.txnId < (s.locked a l).lockPoint txnId) := by
    intro mode hh hw
    rcases LockSystem.holds_step h.orderly hg hh with hh' | ⟨c, call, rfl, hc, hp, hid⟩
    · exact Or.inl hh'
    · have hsh := (h.phases c call hc).mpr (Or.inl hp)
      rw [hid] at hsh
      refine Or.inr ⟨shrinking_locked hsh, ?_⟩
      intro txnId mode' hne hother hconf
      rcases LockSystem.holds_of_step h.orderly hg hother with ho | ⟨_, _, hev, -⟩
      · obtain ⟨hm, hm'⟩ := h.orderly.shared_of_holds hh ho hne.symm
        rcases hconf with hwrite | hex
        · simp [hw hwrite] at hm
        · simp [hex] at hm'
      · simp at hev
  rcases h.past x hx with hx' | ⟨hsh, hlater⟩
  · rcases hx' with hx' | ⟨hread, hx'⟩
    · exact (hkeep .exclusive hx' fun _ => rfl).imp_left Or.inl
    · refine (hkeep .shared hx' ?_).imp_left fun hh => Or.inr ⟨hread, hh⟩
      simp [hread]
  · refine Or.inr ⟨shrinking_locked hsh, ?_⟩
    intro txnId mode hne hh hconf
    rw [h.lockPoint_eq hs hsh]
    rcases LockSystem.holds_of_step h.orderly hg hh with ho | ⟨c, call, rfl, hc, -, hn, hid, -⟩
    · exact (hlater txnId mode hne ho hconf).trans_le h.lockPoint_le
    · have hnow : (s.locked (.evaluate c) l).lockPoint txnId = s.clock := by
        simp [locked, granted, hc, hn, hid]
      rw [hnow]
      exact h.stamps x.txnId

theorem serializes_lock (h : Serializes s) (hr : s.Rules (.lock a))
    (hs : s.locks.step a = some l) : Serializes (s.locked a l) := by
  refine ⟨LockSystem.orderly_step _ _ _ ⟨hr.oneAtATime, hs⟩ h.orderly, phases_locked h hr hs, ?_,
    fun x hx => past_locked h hr hs hx, ?_⟩
  · intro txnId
    rcases lockPoint_locked (s := s) (a := a) (l := l) txnId with he | ⟨he, -⟩
    · rw [he]
      exact (h.stamps txnId).trans (Nat.lt_succ_self _)
    · rw [he]
      exact Nat.lt_succ_self _
  · refine h.conflicts.imp ?_
    intro x y hxy hconf
    obtain ⟨hsh, hlt⟩ := hxy hconf
    refine ⟨shrinking_locked hsh, ?_⟩
    rw [h.lockPoint_eq hs hsh]
    exact hlt.trans_le h.lockPoint_le

/-- An access that is permitted comes after every conflicting one in the order of lock points. -/
theorem serializes_access {x : Access} (h : Serializes s) (hp : Permits s.locks x) :
    Serializes { s with schedule := s.schedule ++ [x] } := by
  refine ⟨h.orderly, h.phases, h.stamps, ?_, ?_⟩
  · intro y hy
    rcases List.mem_append.mp hy with hy | hy
    · exact h.past y hy
    · obtain rfl := List.mem_singleton.mp hy
      exact Or.inl hp
  · refine List.pairwise_append.mpr ⟨h.conflicts, List.pairwise_singleton .., ?_⟩
    intro y hy z hz
    obtain rfl := List.mem_singleton.mp hz
    rintro ⟨hne, hitem, hwrite⟩
    obtain ⟨mode, hh, hmode⟩ : ∃ mode, s.locks.Holds z.txnId y.item mode ∧
        (z.write = true → mode = .exclusive) := by
      rw [hitem]
      rcases hp with hp | ⟨hread, hp⟩
      · exact ⟨.exclusive, hp, fun _ => rfl⟩
      · exact ⟨.shared, hp, by simp [hread]⟩
    have hconf : y.write = true ∨ mode = .exclusive := hwrite.imp_right hmode
    rcases h.past y hy with hy' | ⟨hsh, hlater⟩
    · -- both would hold the item now
      exfalso
      rcases hy' with hy' | ⟨hread, hy'⟩
      · simpa using (h.orderly.shared_of_holds hy' hh hne).1
      · have hm := (h.orderly.shared_of_holds hy' hh hne).2
        simp [hread, hm] at hconf
    · exact ⟨hsh, hlater z.txnId mode hne.symm hh hconf⟩

theorem serializes_step :
    TrInv (Guarded Rules step) (Serializes : TwoPhase n → Prop) := by
  rintro s a t ⟨hr, hs⟩ h
  cases a with
  | lock a =>
    obtain ⟨l, hl, rfl⟩ := Option.map_eq_some_iff.mp hs
    exact serializes_lock h hr hl
  | access x =>
    obtain rfl := Option.some.inj hs
    exact serializes_access h hr

theorem mem_serialOrder : txnId ∈ s.serialOrder ↔ ∃ a ∈ s.schedule, a.txnId = txnId := by
  simp [serialOrder, List.mem_insertionSort]

theorem nodup_serialOrder : s.serialOrder.Nodup :=
  (List.perm_insertionSort _ _).nodup_iff.mpr (List.nodup_dedup _)

theorem serialOrder_sorted :
    s.serialOrder.Pairwise fun i j => s.lockPoint i ≤ s.lockPoint j := by
  have htotal : Std.Total fun i j : TxnId => s.lockPoint i ≤ s.lockPoint j :=
    ⟨fun _ _ => Nat.le_total _ _⟩
  have htrans : IsTrans TxnId fun i j => s.lockPoint i ≤ s.lockPoint j :=
    ⟨fun _ _ _ => Nat.le_trans⟩
  exact List.pairwise_insertionSort _ _

end TwoPhase

end AlphaDb.Transaction
