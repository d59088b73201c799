import AlphaDb.Io.SlotOwnership

/-! Runs of calls on one buffer pool. -/
namespace AlphaDb.Io.BufferManager

open EStateM Trace

variable {n : ℕ} {s t : BufferManager n} {fd page : ℤ} {slot i : ℕ} {e : Error} {u : Unit}

/-- The public calls of the pool. -/
inductive Call
  | getPage (fd page : ℤ) (multiplePins : Bool)
  | allocatePage (fd page : ℤ)
  | markDirty (fd page : ℤ)
  | unpinPage (fd page : ℤ)
  | forcePage (fd page : ℤ)
  | flushPages (fd : ℤ)
  deriving DecidableEq, Repr

def Call.perform : Call → Op n Unit
  | .getPage fd page multiplePins => do
    let _ ← BufferManager.getPage fd page multiplePins
    return ()
  | .allocatePage fd page => do
    let _ ← BufferManager.allocatePage fd page
    return ()
  | .markDirty fd page => BufferManager.markDirty fd page
  | .unpinPage fd page => BufferManager.unpinPage fd page
  | .forcePage fd page => BufferManager.forcePage fd page
  | .flushPages fd => BufferManager.flushPages fd

/-- The bucket a call looks its page up in lies inside the bucket array. -/
def Call.InRange (s : BufferManager n) : Call → Prop
  | .getPage fd page _ | .allocatePage fd page | .markDirty fd page | .unpinPage fd page =>
    s.hashTable.InRange fd page
  | .forcePage _ _ | .flushPages _ => True

instance (c : Call) : Decidable (c.InRange s) :=
  match c with
  | .getPage fd page _ => inferInstanceAs (Decidable (s.hashTable.InRange fd page))
  | .allocatePage fd page => inferInstanceAs (Decidable (s.hashTable.InRange fd page))
  | .markDirty fd page => inferInstanceAs (Decidable (s.hashTable.InRange fd page))
  | .unpinPage fd page => inferInstanceAs (Decidable (s.hashTable.InRange fd page))
  | .forcePage _ _ => isTrue trivial
  | .flushPages _ => isTrue trivial

/-- One call whose I/O succeeds; it may still throw for another reason. -/
def step (s : BufferManager n) (c : Call) : Option (BufferManager n) :=
  if c.InRange s then outcome (c.perform s) (fun _ t => t) id else none

theorem step_cases {c : Call} (h : step s c = some t) :
    c.perform s = .ok () t ∨ ∃ e, c.perform s = .error e t ∧ e.isIo = false := by
  unfold step at h
  split at h
  · obtain ⟨_, v, hp, rfl⟩ | ⟨e, v, hp, he, rfl⟩ := outcome_eq_some h
    · exact Or.inl hp
    · exact Or.inr ⟨e, hp, he⟩
  · simp at h

theorem step_after {c : Call} (h : step s c = some t) : after c.perform s = t := by
  obtain hp | ⟨e, hp, -⟩ := step_cases h <;> simp [after, hp]

/-- A flush meets no free slot that still carries its descriptor. -/
def FlushesUsed (s : BufferManager n) : Call → Prop
  | .flushPages fd => ∀ i ∈ s.reached fd (List.range s.poolSize), i ∉ s.freeList
  | _ => True

instance (c : Call) : Decidable (FlushesUsed s c) :=
  match c with
  | .flushPages fd =>
    inferInstanceAs (Decidable (∀ i ∈ s.reached fd (List.range s.poolSize), i ∉ s.freeList))
  | .getPage _ _ _ => isTrue trivial
  | .allocatePage _ _ => isTrue trivial
  | .markDirty _ _ => isTrue trivial
  | .unpinPage _ _ => isTrue trivial
  | .forcePage _ _ => isTrue trivial

theorem owned_new (poolSize : ℕ) (raw : ℕ → BufferEntry n) (disk : Disk) :
    Owned (new poolSize raw disk) := by
  refine ⟨?_, ?_, ?_⟩
  · simp [new]
  · simp [new]
  · simp [new]

/-- Every call keeps slot ownership, a flush under its condition. -/
theorem owned_step : TrInv (Guarded FlushesUsed (step (n := n))) Owned := by
  rintro s c t ⟨hc, hs⟩ h
  cases c with
  | getPage fd page mp =>
    obtain hp | ⟨e, hp, he⟩ := step_cases hs
    · obtain ⟨slot, v, hg, hv⟩ := bind_ok_iff.mp hp
      obtain ⟨-, rfl⟩ := pure_ok_iff.mp hv
      exact getPage_owned h hg
    · obtain hg | ⟨_, _, _, hv⟩ := bind_error_iff.mp hp
      · obtain hio | ⟨rfl, -⟩ := getPage_error hg
        · simp [hio] at he
        · exact h
      · exact absurd hv pure_ne_error
  | allocatePage fd page =>
    obtain hp | ⟨e, hp, -⟩ := step_cases hs
    · obtain ⟨slot, v, ha, hv⟩ := bind_ok_iff.mp hp
      obtain ⟨-, rfl⟩ := pure_ok_iff.mp hv
      exact allocatePage_owned h ha
    · obtain ha | ⟨_, _, _, hv⟩ := bind_error_iff.mp hp
      · obtain ⟨rfl, -⟩ := allocatePage_error ha
        exact h
      · exact absurd hv pure_ne_error
  | markDirty fd page =>
    obtain hp | ⟨e, hp, -⟩ := step_cases hs
    · exact markDirty_owned h hp
    · obtain ⟨rfl, -⟩ := markDirty_error hp
      exact h
  | unpinPage fd page =>
    obtain hp | ⟨e, hp, -⟩ := step_cases hs
    · exact unpinPage_owned h hp
    · obtain ⟨rfl, -⟩ := unpinPage_error hp
      exact h
  | forcePage fd page =>
    rw [← step_after hs]
    exact forceSlots_owned _ h
  | flushPages fd =>
    rw [← step_after hs]
    exact flushSlots_owned h List.nodup_range (fun i hi => List.mem_range.mp hi) hc

/-- Slot ownership over whole runs: it holds in every state that calls lead to from a fresh pool,
as long as no flush meets a free slot that still carries its descriptor. -/
theorem run_owned {poolSize : ℕ} {raw : ℕ → BufferEntry n} {disk : Disk} {calls : List Call}
    {s : BufferManager n} (h : MTr (Guarded FlushesUsed step) (new poolSize raw disk) calls s) :
    Owned s ∧ ∀ fd page fd' page' slot, s.hashTable.find fd page = some slot →
      s.hashTable.find fd' page' = some slot → fd = fd' ∧ page = page' := by
  have ho := mTr_trInv owned_step h (owned_new poolSize raw disk)
  refine ⟨ho, ?_⟩
  intro fd page fd' page' slot hf hf'
  obtain ⟨-, rfl, rfl⟩ := (ho.hash fd page slot).mp hf
  obtain ⟨-, rfl, rfl⟩ := (ho.hash fd' page' slot).mp hf'
  exact ⟨rfl, rfl⟩

/-- A pool of one buffer over files of two pages. -/
def onePool : BufferManager 4096 :=
  new 1 (fun _ => ⟨false, 0, 0, fun _ => 0, 0⟩) fun _ => some ⟨3 * 4096, fun _ => 0⟩

/-- A flush, a reload and a second flush of one descriptor, each freeing only used slots. -/
theorem run_owned_two_flushes : ∃ s : BufferManager 4096,
    MTr (Guarded FlushesUsed step) onePool
      [.getPage 3 0 true, .unpinPage 3 0, .flushPages 3, .getPage 3 1 true, .unpinPage 3 1,
        .flushPages 3] s ∧ Owned s := by
  have h : (execGuarded FlushesUsed step onePool
      [.getPage 3 0 true, .unpinPage 3 0, .flushPages 3, .getPage 3 1 true, .unpinPage 3 1,
        .flushPages 3]).any (fun _ => true) = true := by decide +kernel
  obtain ⟨s, hs, -⟩ := exists_mTr_of_execGuarded h
  exact ⟨s, hs, (run_owned hs).1⟩

/-- Two flushes in a row free slot 0 twice, and two pages then share it. -/
theorem double_flush_shares_slot : ∃ s : BufferManager 4096,
    MTr (fun s c t => step s c = some t) onePool
      [.getPage 3 0 true, .unpinPage 3 0, .flushPages 3, .flushPages 3, .getPage 3 0 true,
        .getPage 3 1 true] s ∧
    s.hashTable.find 3 0 = some 0 ∧ s.hashTable.find 3 1 = some 0 ∧ ¬ Owned s := by
  have h : (exec step onePool
      [.getPage 3 0 true, .unpinPage 3 0, .flushPages 3, .flushPages 3, .getPage 3 0 true,
        .getPage 3 1 true]).any (fun s => s.hashTable.find 3 0 = some 0 ∧
          s.hashTable.find 3 1 = some 0) = true := by decide +kernel
  obtain ⟨s, hs, hp⟩ := exists_mTr_of_exec h
  obtain ⟨h0, h1⟩ := of_decide_eq_true hp
  refine ⟨s, hs, h0, h1, ?_⟩
  intro ho
  have hp0 := ((ho.hash 3 0 0).mp h0).2.2
  have hp1 := ((ho.hash 3 1 0).mp h1).2.2
  omega

end AlphaDb.Io.BufferManager
