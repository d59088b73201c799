import AlphaDb.Lib.Trace
import AlphaDb.Transaction.LockManager

/-! The life of a lock entry between the table that finds it and the calls that use it. -/
namespace AlphaDb.Transaction

open Trace

/-- How far a call has come: `lock` has its entry, or waits in it; `unlock` has its entry, or has
deleted its record. -/
inductive Phase
  | added
  | waiting
  | searched
  | deleted
  deriving DecidableEq

/-- A call of `lock` or `unlock` in progress, with the pointer it holds. -/
structure Call where
  txnId : TxnId
  mode : LockMode
  item : DataItem
  entry : ℕ
  phase : Phase

/-- The table and the calls in progress of `n` threads. -/
structure LockSystem (n : ℕ) where
  table : LockTable
  calls : Fin n → Option Call

inductive LockStep (n : ℕ)
  | add (c : Fin n) (txnId : TxnId) (mode : LockMode) (item : DataItem) (raw : LockMode × ℤ)
  | push (c : Fin n)
  | evaluate (c : Fin n)
  | search (c : Fin n) (txnId : TxnId) (item : DataItem)
  | delete (c : Fin n)
  | finish (c : Fin n)

namespace LockSystem

variable {n : ℕ} {s t : LockSystem n} {c : Fin n} {call : Call}

def init : LockSystem n where
  table := ⟨fun _ => none, fun _ => .new .none 0, fun _ => 0, fun _ => false, 0⟩
  calls _ := none

/-- The call of a thread, if it has come to this phase. -/
def inPhase (s : LockSystem n) (c : Fin n) (phase : Phase) : Option Call :=
  (s.calls c).filter fun call => call.phase = phase

def setCall (s : LockSystem n) (c : Fin n) (call : Option Call) : LockSystem n :=
  { s with calls := Function.update s.calls c call }

def setEntry (s : LockSystem n) (p : ℕ) (e : LockEntry) : LockSystem n :=
  { s with table := s.table.setEntry p e }

/-- The steps of `lock` and of `unlock`; a null pointer has no next step. -/
def step (s : LockSystem n) : LockStep n → Option (LockSystem n)
  | .add c txnId mode item raw =>
    if (s.calls c).isNone then
      let x := s.table.add item raw
      some ({ s with table := x.2 }.setCall c (some ⟨txnId, mode, item, x.1, .added⟩))
    else none
  | .push c =>
    (s.inPhase c .added).map fun call =>
      (s.setEntry call.entry ((s.table.entry call.entry).push call.txnId call.mode)).setCall c
        (some { call with phase := .waiting })
  | .evaluate c =>
    (s.inPhase c .waiting).bind fun call =>
      ((s.table.entry call.entry).evaluate call.txnId call.mode).map fun x =>
        if x.1 then (s.setEntry call.entry x.2).setCall c none else s.setEntry call.entry x.2
  | .search c txnId item =>
    if (s.calls c).isNone then
      (s.table.search item).map fun p =>
        s.setCall c (some ⟨txnId, .none, item, p, .searched⟩)
    else none
  | .delete c =>
    (s.inPhase c .searched).map fun call =>
      (s.setEntry call.entry ((s.table.entry call.entry).release call.txnId).2).setCall c
        (some { call with phase := .deleted })
  | .finish c =>
    (s.inPhase c .deleted).map fun call =>
      if (s.table.entry call.entry).waitList = [] then
        { s with table := s.table.remove call.item }.setCall c none
      else s.setCall c none

/-- The last step of `unlock` deletes an entry only if no other call in progress has a pointer
to it. -/
def FreesUnshared (s : LockSystem n) : LockStep n → Prop
  | .finish c => ∀ call ∈ s.inPhase c .deleted, (s.table.entry call.entry).waitList = [] →
      ∀ p ∈ s.table.search call.item, ∀ c', c' ≠ c → ∀ call' ∈ s.calls c', call'.entry ≠ p
  | _ => True

instance : ∀ (s : LockSystem n) (a : LockStep n), Decidable (s.FreesUnshared a)
  | _, .finish _ => inferInstanceAs (Decidable (∀ _ ∈ _, _))
  | _, .add .. | _, .push _ | _, .evaluate _ | _, .search .. | _, .delete _ =>
    inferInstanceAs (Decidable True)

/-- Every record, and every call in progress, is in the entry that the table has for its item. -/
structure Consistent (s : LockSystem n) : Prop where
  table : ∀ i p, s.table.table i = some p → s.table.live p = true ∧ s.table.item p = i ∧
    p < s.table.next
  calls : ∀ c call, s.calls c = some call → s.table.table call.item = some call.entry
  records : ∀ p, (s.table.entry p).waitList ≠ [] → s.table.table (s.table.item p) = some p

theorem consistent_init : Consistent (init : LockSystem n) := by
  refine ⟨?_, ?_, ?_⟩ <;> simp [init, LockEntry.new]

theorem inPhase_eq_some {phase : Phase} : s.inPhase c phase = some call ↔
    s.calls c = some call ∧ call.phase = phase := by
  simp [inPhase, Option.filter_eq_some_iff]

/-- A call changes its thread's pointer only to the entry of its item. -/
theorem Consistent.setCall (h : Consistent s) {call : Option Call}
    (hc : ∀ x, call = some x → s.table.table x.item = some x.entry) :
    Consistent (s.setCall c call) := by
  refine ⟨h.table, ?_, h.records⟩
  intro c' x hx
  by_cases he : c' = c
  · subst he
    exact hc x (by simpa [LockSystem.setCall] using hx)
  · exact h.calls c' x (by simpa [LockSystem.setCall, Function.update, he] using hx)

/-- A call writes only to the entry the table has for its item. -/
theorem Consistent.setEntry (h : Consistent s) (hc : s.calls c = some call) (e : LockEntry) :
    Consistent (s.setEntry call.entry e) := by
  have hp := h.calls c call hc
  refine ⟨h.table, h.calls, ?_⟩
  intro q hq
  by_cases he : q = call.entry
  · subst he
    change s.table.table (s.table.item call.entry) = _
    rw [(h.table _ _ hp).2.1]
    exact hp
  · exact h.records q (by
      simpa [LockSystem.setEntry, LockTable.setEntry, Function.update, he] using hq)

theorem consistent_add (h : Consistent s) (item : DataItem) (raw : LockMode × ℤ) :
    Consistent { s with table := (s.table.add item raw).2 } ∧
      (s.table.add item raw).2.table item = some (s.table.add item raw).1 := by
  cases hs : s.table.search item with
  | some p =>
    simp only [LockTable.add, hs]
    exact ⟨h, hs⟩
  | none =>
    have hnone : s.table.table item = none := hs
    simp only [LockTable.add, hs]
    refine ⟨⟨?_, ?_, ?_⟩, Function.update_self ..⟩
    · intro i p hp
      dsimp only at hp ⊢
      by_cases hi : i = item
      · subst hi
        obtain rfl : s.table.next = p := by simpa using hp
        simp
      · rw [Function.update_of_ne hi] at hp
        obtain ⟨hl, hitem, hlt⟩ := h.table i p hp
        have hne : p ≠ s.table.next := by omega
        rw [Function.update_of_ne hne, Function.update_of_ne hne]
        exact ⟨hl, hitem, by omega⟩
    · intro c call hc
      have hp := h.calls c call hc
      have hne : call.item ≠ item := by
        intro he
        rw [he, hnone] at hp
        simp at hp
      simpa [Function.update, hne] using hp
    · intro p hp
      dsimp only at hp ⊢
      by_cases he : p = s.table.next
      · subst he
        simp [LockEntry.new] at hp
      · rw [Function.update_of_ne he] at hp
        have hr := h.records p hp
        have hne : s.table.item p ≠ item := by
          intro hi
          rw [hi, hnone] at hr
          simp at hr
        rw [Function.update_of_ne he, Function.update_of_ne hne]
        exact hr

/-- Deleting an entry that is empty and that no other call points to. -/
theorem consistent_remove (h : Consistent s) (hc : s.calls c = some call)
    (hempty : (s.table.entry call.entry).waitList = [])
    (hfree : ∀ c', c' ≠ c → ∀ call' ∈ s.calls c', call'.entry ≠ call.entry) :
    Consistent ({ s with table := s.table.remove call.item }.setCall c none) := by
  have hp := h.calls c call hc
  have hs : s.table.search call.item = some call.entry := hp
  simp only [LockTable.remove, hs]
  -- only the item of the call is mapped to its entry
  have hitem : ∀ i q, s.table.table i = some q → q ≠ call.entry → i ≠ call.item := by
    rintro i q hq hne rfl
    rw [hp] at hq
    exact hne (Option.some.inj hq).symm
  refine ⟨?_, ?_, ?_⟩
  · intro i q hq
    dsimp only [LockSystem.setCall] at hq ⊢
    by_cases hi : i = call.item
    · subst hi
      simp at hq
    · rw [Function.update_of_ne hi] at hq
      obtain ⟨hl, hqi, hlt⟩ := h.table i q hq
      have hne : q ≠ call.entry := by
        rintro rfl
        rw [(h.table _ _ hp).2.1] at hqi
        exact hi hqi.symm
      rw [Function.update_of_ne hne]
      exact ⟨hl, hqi, hlt⟩
  · intro c' call' hc'
    have hne : c' ≠ c := by
      rintro rfl
      simp [LockSystem.setCall] at hc'
    have hc' : s.calls c' = some call' := by
      simpa [LockSystem.setCall, Function.update, hne] using hc'
    have hp' := h.calls c' call' hc'
    have hi := hitem _ _ hp' (hfree c' hne call' hc')
    change Function.update s.table.table call.item none call'.item = _
    rw [Function.update_of_ne hi]
    exact hp'
  · intro q hq
    have hr := h.records q hq
    have hne : q ≠ call.entry := by
      rintro rfl
      exact hq hempty
    change Function.update s.table.table call.item none (s.table.item q) = _
    rw [Function.update_of_ne (hitem _ _ hr hne)]
    exact hr

theorem consistent_step :
    TrInv (Guarded FreesUnshared step) (Consistent : LockSystem n → Prop) := by
  rintro s a t ⟨hfree, hs⟩ h
  cases a with
  | add c txnId mode item raw =>
    simp only [step] at hs
    split at hs
    · obtain rfl := Option.some.inj hs
      obtain ⟨ht, hp⟩ := consistent_add h item raw
      refine ht.setCall ?_
      rintro x hx
      obtain rfl := Option.some.inj hx
      exact hp
    · simp at hs
  | push c | delete c =>
    obtain ⟨call, hc, rfl⟩ := Option.map_eq_some_iff.mp hs
    obtain ⟨hc, -⟩ := inPhase_eq_some.mp hc
    refine (h.setEntry hc _).setCall ?_
    rintro x hx
    obtain rfl := Option.some.inj hx
    exact h.calls c call hc
  | evaluate c =>
    obtain ⟨call, hc, hs⟩ := Option.bind_eq_some_iff.mp hs
    obtain ⟨hc, -⟩ := inPhase_eq_some.mp hc
    obtain ⟨⟨b, e⟩, -, rfl⟩ := Option.map_eq_some_iff.mp hs
    cases b with
    | false => exact h.setEntry hc e
    | true => exact (h.setEntry hc e).setCall (by simp)
  | search c txnId item =>
    simp only [step] at hs
    split at hs
    · obtain ⟨p, hp, rfl⟩ := Option.map_eq_some_iff.mp hs
      refine h.setCall ?_
      rintro x hx
      obtain rfl := Option.some.inj hx
      exact hp
    · simp at hs
  | finish c =>
    obtain ⟨call, hcd, rfl⟩ := Option.map_eq_some_iff.mp hs
    obtain ⟨hc, -⟩ := inPhase_eq_some.mp hcd
    split
    · next hempty =>
      exact consistent_remove h hc hempty (hfree call hcd hempty _ (h.calls c call hc))
    · exact h.setCall (by simp)

/-- The lifecycle over whole runs in which entries are deleted only when no other call has a
pointer to them: every record of an item, and every call on it, is in the one live entry that the
table has for it. -/
theorem run_one_entry {steps : List (LockStep n)} {s : LockSystem n}
    (h : MTr (Guarded FreesUnshared step) init steps s) :
    (∀ p r, r ∈ (s.table.entry p).waitList →
      s.table.live p = true ∧ s.table.search (s.table.item p) = some p) ∧
    (∀ c call, s.calls c = some call →
      s.table.live call.entry = true ∧ s.table.search call.item = some call.entry) ∧
    ∀ p q r r', r ∈ (s.table.entry p).waitList → r' ∈ (s.table.entry q).waitList →
      s.table.item p = s.table.item q → p = q := by
  have hc := mTr_trInv consistent_step h consistent_init
  have hrecords : ∀ p r, r ∈ (s.table.entry p).waitList →
      s.table.live p = true ∧ s.table.search (s.table.item p) = some p := by
    intro p r hr
    have hp := hc.records p (List.ne_nil_of_mem hr)
    exact ⟨(hc.table _ _ hp).1, hp⟩
  refine ⟨hrecords, ?_, ?_⟩
  · intro c call hcall
    have hp := hc.calls c call hcall
    exact ⟨(hc.table _ _ hp).1, hp⟩
  · intro p q r r' hr hr' he
    have hp := (hrecords p r hr).2
    have hq := (hrecords q r' hr').2
    rw [he, hq] at hp
    exact (Option.some.inj hp).symm

/-- A transaction locks and unlocks an item, and another one locks it after the entry is gone. -/
theorem run_one_entry_two_locks : ∃ s : LockSystem 3,
    MTr (Guarded FreesUnshared step) init
      [.add 0 1 .exclusive 7 (.none, 0), .push 0, .evaluate 0, .search 1 1 7, .delete 1,
        .finish 1, .add 2 2 .exclusive 7 (.none, 0), .push 2, .evaluate 2] s ∧
    (s.table.entry 1).waitList = [⟨2, .exclusive, .granted⟩] ∧ s.table.live 1 = true := by
  have h : (execGuarded FreesUnshared step (init : LockSystem 3)
      [.add 0 1 .exclusive 7 (.none, 0), .push 0, .evaluate 0, .search 1 1 7, .delete 1,
        .finish 1, .add 2 2 .exclusive 7 (.none, 0), .push 2, .evaluate 2]).any (fun s =>
        (s.table.entry 1).waitList = [⟨2, .exclusive, .granted⟩]) = true := by
    decide +kernel
  obtain ⟨s, hs, hp⟩ := exists_mTr_of_execGuarded h
  have hl := of_decide_eq_true hp
  obtain ⟨hrecords, -⟩ := run_one_entry hs
  exact ⟨s, hs, hl, (hrecords 1 ⟨2, .exclusive, .granted⟩ (by rw [hl]; simp)).1⟩

/-- An entry deleted between `add` and the push of another call: two transactions then hold the
item exclusively, through two entries. -/
theorem deleted_entry_granted : ∃ s : LockSystem 4,
    MTr (fun s a t => step s a = some t) init
      [.add 0 2 .exclusive 7 (.none, 0), .push 0, .evaluate 0, .add 1 1 .exclusive 7 (.none, 0),
        .search 2 2 7, .delete 2, .finish 2, .push 1, .evaluate 1,
        .add 3 3 .exclusive 7 (.none, 0), .push 3, .evaluate 3] s ∧
    s.table.item 0 = 7 ∧ s.table.item 1 = 7 ∧ s.table.live 0 = false ∧
    (s.table.entry 0).waitList = [⟨1, .exclusive, .granted⟩] ∧
    (s.table.entry 1).waitList = [⟨3, .exclusive, .granted⟩] := by
  have h : (exec step (init : LockSystem 4)
      [.add 0 2 .exclusive 7 (.none, 0), .push 0, .evaluate 0, .add 1 1 .exclusive 7 (.none, 0),
        .search 2 2 7, .delete 2, .finish 2, .push 1, .evaluate 1,
        .add 3 3 .exclusive 7 (.none, 0), .push 3, .evaluate 3]).any (fun s =>
        s.table.item 0 = 7 ∧ s.table.item 1 = 7 ∧ s.table.live 0 = false ∧
        (s.table.entry 0).waitList = [⟨1, .exclusive, .granted⟩] ∧
        (s.table.entry 1).waitList = [⟨3, .exclusive, .granted⟩]) = true := by
    decide +kernel
  obtain ⟨s, hs, hp⟩ := exists_mTr_of_exec h
  exact ⟨s, hs, of_decide_eq_true hp⟩

end LockSystem

end AlphaDb.Transaction
