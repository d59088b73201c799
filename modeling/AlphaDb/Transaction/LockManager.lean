import Mathlib

/-! The lock manager (`transaction/lock_manager`, `transaction/lock_table`): the queue of one data
item with its critical sections, and the table that finds the queue of an item. -/
namespace AlphaDb.Transaction

abbrev TxnId := ℕ

inductive LockStatus
  | granted
  | waiting
  deriving DecidableEq, Repr

inductive LockMode
  | none
  | shared
  | exclusive
  deriving DecidableEq, Repr

/-- A request in a queue. -/
structure Record where
  txnId : TxnId
  mode : LockMode
  status : LockStatus
  deriving DecidableEq, Repr

/-- The constructor sets neither the mode nor the count. -/
structure LockEntry where
  waitList : List Record
  currentLockMode : LockMode
  sharedLockCnt : ℤ

namespace LockEntry

def new (mode : LockMode) (cnt : ℤ) : LockEntry := ⟨[], mode, cnt⟩

/-- The first critical section of `lock`. -/
def push (e : LockEntry) (txnId : TxnId) (mode : LockMode) : LockEntry :=
  { e with waitList := e.waitList ++ [⟨txnId, mode, .waiting⟩] }

/-- The scan of the shared predicate. It returns nothing if the transaction has no record: the
source then runs off the end of the lambda. -/
def scan (txnId : TxnId) (mode : LockMode) (allShared allGranted : Bool) :
    List Record → Option (Bool × List Record)
  | [] => none
  | r :: rest =>
    if r.txnId = txnId then
      if allShared && allGranted then some (true, ⟨txnId, mode, .granted⟩ :: rest)
      else some (false, r :: rest)
    else
      (scan txnId mode (allShared && r.mode = .shared) (allGranted && r.status = .granted)
        rest).map fun x => (x.1, r :: x.2)

/-- One evaluation of the wait predicate; nothing where the source is undefined. -/
def evaluate (e : LockEntry) (txnId : TxnId) (mode : LockMode) : Option (Bool × LockEntry) :=
  if mode = .exclusive then
    match e.waitList with
    | [] => none
    | head :: rest =>
      if head.txnId = txnId then
        some (true,
          { e with
            waitList := ⟨txnId, mode, .granted⟩ :: rest
            currentLockMode := .exclusive })
      else some (false, e)
  else
    (scan txnId mode true true e.waitList).map fun x =>
      (x.1,
        { e with
          waitList := x.2
          sharedLockCnt := if x.1 then e.sharedLockCnt + 1 else e.sharedLockCnt })

/-- The critical section of `unlock`, with `need_notify`. -/
def release (e : LockEntry) (txnId : TxnId) : Bool × LockEntry :=
  let waitList := e.waitList.filter fun r => r ≠ ⟨txnId, e.currentLockMode, .granted⟩
  if e.currentLockMode = .shared then
    if e.sharedLockCnt - 1 = 0 then (true, ⟨waitList, .none, e.sharedLockCnt - 1⟩)
    else (false, ⟨waitList, .shared, e.sharedLockCnt - 1⟩)
  else if e.currentLockMode = .exclusive then (true, ⟨waitList, .none, e.sharedLockCnt⟩)
  else (false, ⟨waitList, e.currentLockMode, e.sharedLockCnt⟩)

variable {e e' : LockEntry} {txnId : TxnId} {mode : LockMode} {b : Bool}

theorem release_waitList : (e.release txnId).2.waitList =
    e.waitList.filter fun r => r ≠ ⟨txnId, e.currentLockMode, .granted⟩ := by
  unfold release
  dsimp only
  split
  · split <;> rfl
  · split <;> rfl

/-- The scan finds the first record of the transaction, and grants it if every record before it
is shared and granted. -/
theorem scan_eq_some {sh gr : Bool} {l l' : List Record}
    (h : scan txnId mode sh gr l = some (b, l')) :
    ∃ pre r post, l = pre ++ r :: post ∧ r.txnId = txnId ∧ (∀ a ∈ pre, a.txnId ≠ txnId) ∧
      ((b = false ∧ l' = l) ∨
        (b = true ∧ sh = true ∧ gr = true ∧
          (∀ a ∈ pre, a.mode = .shared ∧ a.status = .granted) ∧
          l' = pre ++ ⟨txnId, mode, .granted⟩ :: post)) := by
  induction l generalizing sh gr l' with
  | nil => simp [scan] at h
  | cons r rest ih =>
    by_cases hr : r.txnId = txnId
    · rw [scan, if_pos hr] at h
      refine ⟨[], r, rest, rfl, hr, by simp, ?_⟩
      by_cases hc : (sh && gr) = true
      · rw [if_pos hc] at h
        obtain ⟨rfl, rfl⟩ := Prod.mk.inj (Option.some.inj h)
        simp only [Bool.and_eq_true] at hc
        exact Or.inr ⟨rfl, hc.1, hc.2, by simp, rfl⟩
      · rw [if_neg hc] at h
        obtain ⟨rfl, rfl⟩ := Prod.mk.inj (Option.some.inj h)
        exact Or.inl ⟨rfl, rfl⟩
    · rw [scan, if_neg hr] at h
      obtain ⟨⟨b', l''⟩, hscan, heq⟩ := Option.map_eq_some_iff.mp h
      obtain ⟨rfl, rfl⟩ := Prod.mk.inj heq
      obtain ⟨pre, x, post, hl, hx, hpre, hcase⟩ := ih hscan
      refine ⟨r :: pre, x, post, by simp [hl], hx, ?_, ?_⟩
      · intro a ha
        rcases List.mem_cons.mp ha with rfl | ha
        · exact hr
        · exact hpre a ha
      · rcases hcase with ⟨hb, hl'⟩ | ⟨hb, hsh, hgr, hall, hl'⟩
        · exact Or.inl ⟨hb, by simpa using hl'⟩
        · simp only [Bool.and_eq_true, decide_eq_true_eq] at hsh hgr
          refine Or.inr ⟨hb, hsh.1, hgr.1, ?_, by simp [hl']⟩
          intro a ha
          rcases List.mem_cons.mp ha with rfl | ha
          · exact ⟨hsh.2, hgr.2⟩
          · exact hall a ha

/-- What one evaluation does: nothing, or it grants the first record of the transaction. An
exclusive record is granted only at the head, and sets the mode; a shared one only behind records
that are shared and granted, and is counted. -/
theorem evaluate_eq_some (h : e.evaluate txnId mode = some (b, e')) :
    ∃ pre r post, e.waitList = pre ++ r :: post ∧
      ((b = false ∧ e' = e) ∨
        (b = true ∧ r.txnId = txnId ∧ (∀ a ∈ pre, a.txnId ≠ txnId) ∧
          e'.waitList = pre ++ ⟨txnId, mode, .granted⟩ :: post ∧
          ((mode = .exclusive ∧ pre = [] ∧ e'.currentLockMode = .exclusive ∧
              e'.sharedLockCnt = e.sharedLockCnt) ∨
            (mode ≠ .exclusive ∧ (∀ a ∈ pre, a.mode = .shared ∧ a.status = .granted) ∧
              e'.currentLockMode = e.currentLockMode ∧
              e'.sharedLockCnt = e.sharedLockCnt + 1)))) := by
  unfold evaluate at h
  by_cases hm : mode = .exclusive
  · rw [if_pos hm] at h
    cases hl : e.waitList with
    | nil => simp [hl] at h
    | cons head rest =>
      simp only [hl] at h
      refine ⟨[], head, rest, rfl, ?_⟩
      by_cases hh : head.txnId = txnId
      · rw [if_pos hh] at h
        obtain ⟨rfl, rfl⟩ := Prod.mk.inj (Option.some.inj h)
        exact Or.inr ⟨rfl, hh, by simp, rfl, Or.inl ⟨hm, rfl, rfl, rfl⟩⟩
      · rw [if_neg hh] at h
        obtain ⟨rfl, rfl⟩ := Prod.mk.inj (Option.some.inj h)
        exact Or.inl ⟨rfl, rfl⟩
  · rw [if_neg hm] at h
    obtain ⟨⟨b', l'⟩, hscan, heq⟩ := Option.map_eq_some_iff.mp h
    obtain ⟨rfl, rfl⟩ := Prod.mk.inj heq
    obtain ⟨pre, r, post, hl, hr, hpre, hcase⟩ := scan_eq_some hscan
    refine ⟨pre, r, post, hl, ?_⟩
    rcases hcase with ⟨rfl, rfl⟩ | ⟨rfl, -, -, hall, rfl⟩
    · exact Or.inl ⟨rfl, rfl⟩
    · exact Or.inr ⟨rfl, hr, hpre, rfl, Or.inr ⟨hm, hall, rfl, rfl⟩⟩

end LockEntry

abbrev DataItem := ℕ

/-- The table as a map from items to entries, with the memory the entries live in. An entry that
was deleted keeps its contents, but is no longer live. -/
structure LockTable where
  table : DataItem → Option ℕ
  entry : ℕ → LockEntry
  item : ℕ → DataItem
  live : ℕ → Bool
  next : ℕ

namespace LockTable

/-- `none` is the null pointer. -/
def search (t : LockTable) (item : DataItem) : Option ℕ := t.table item

/-- The entry of an item, made new if there is none; `raw` is what its fields held before. -/
def add (t : LockTable) (item : DataItem) (raw : LockMode × ℤ) : ℕ × LockTable :=
  match t.search item with
  | some p => (p, t)
  | none =>
    (t.next,
      { table := Function.update t.table item (some t.next)
        entry := Function.update t.entry t.next (.new raw.1 raw.2)
        item := Function.update t.item t.next item
        live := Function.update t.live t.next true
        next := t.next + 1 })

def remove (t : LockTable) (item : DataItem) : LockTable :=
  match t.search item with
  | none => t
  | some p =>
    { t with
      table := Function.update t.table item none
      live := Function.update t.live p false }

def setEntry (t : LockTable) (p : ℕ) (e : LockEntry) : LockTable :=
  { t with entry := Function.update t.entry p e }

end LockTable

end AlphaDb.Transaction
