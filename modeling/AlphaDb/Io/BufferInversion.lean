import AlphaDb.Io.BufferManager

/-! What each call of the buffer pool can do, said once for all later invariants. -/
namespace AlphaDb.Io.BufferManager

open EStateM

variable {n : ℕ} {s t : BufferManager n} {fd page : ℤ} {slot i : ℕ} {e : Error} {u : Unit}
  {src : Block n}

section Fields

@[simp] theorem insertUsed_bufferPool : (s.insertUsed slot).bufferPool = s.bufferPool := rfl
@[simp] theorem insertUsed_hashTable : (s.insertUsed slot).hashTable = s.hashTable := rfl
@[simp] theorem insertUsed_freeList : (s.insertUsed slot).freeList = s.freeList := rfl
@[simp] theorem insertUsed_poolSize : (s.insertUsed slot).poolSize = s.poolSize := rfl
@[simp] theorem insertUsed_disk : (s.insertUsed slot).disk = s.disk := rfl

@[simp] theorem insertUsed_usedList :
    (s.insertUsed slot).usedList = s.usedList.pushFront slot := rfl

@[simp] theorem remove_bufferPool : (s.remove slot).bufferPool = s.bufferPool := by
  unfold remove; split <;> rfl

@[simp] theorem remove_hashTable : (s.remove slot).hashTable = s.hashTable := by
  unfold remove; split <;> rfl

@[simp] theorem remove_freeList : (s.remove slot).freeList = s.freeList := by
  unfold remove; split <;> rfl

@[simp] theorem remove_poolSize : (s.remove slot).poolSize = s.poolSize := by
  unfold remove; split <;> rfl

@[simp] theorem remove_disk : (s.remove slot).disk = s.disk := by
  unfold remove; split <;> rfl

end Fields

/-- The disk after an entry has been written back, which happens only when it is dirty. -/
def WroteBack (d : Disk) (e : BufferEntry n) (d' : Disk) : Prop :=
  (e.dirty = false ∧ d' = d) ∨ (e.dirty = true ∧ d.putPage e.fd e.page e.data = some d')

theorem writePage_ok : writePage fd page src s = .ok u t ↔
    ∃ d, s.disk.putPage fd page src = some d ∧ t = { s with disk := d } := by
  unfold writePage
  cases h : s.disk.putPage fd page src with
  | none => simp
  | some d => simp [eq_comm]

theorem writePage_error (h : writePage fd page src s = .error e t) : e.isIo ∧ t = s := by
  unfold writePage at h
  cases hd : s.disk.putPage fd page src with
  | none =>
    simp only [hd, Result.error.injEq] at h
    exact ⟨h.1 ▸ rfl, h.2.symm⟩
  | some d => simp [hd] at h

theorem readPage_ok : readPage fd page slot s = .ok u t ↔
    ∃ f, s.disk fd = some f ∧ 0 ≤ pageOffset n page ∧
      f.available (pageOffset n page).toNat n = n ∧
      t = s.setEntry slot { s.bufferPool slot with
        data := f.readInto (pageOffset n page).toNat (s.bufferPool slot).data } := by
  unfold readPage
  cases hd : s.disk fd with
  | none => simp
  | some f =>
    by_cases ho : pageOffset n page < 0
    · simp [ho]
    · by_cases ha : f.available (pageOffset n page).toNat n = n
      · simp [ho, ha, not_lt.mp ho, eq_comm]
      · simp [ho, ha]

/-- A read fails only if the page is not on disk as a whole. -/
theorem readPage_error (h : readPage fd page slot s = .error e t) :
    e.isIo ∧ (s.disk.page fd page : Option (Block n)) = none := by
  unfold readPage at h
  cases hd : s.disk fd with
  | none =>
    simp only [hd, Result.error.injEq] at h
    exact ⟨h.1 ▸ rfl, by simp [Disk.page, hd]⟩
  | some f =>
    simp only [hd] at h
    split at h
    · next ho =>
      simp only [Result.error.injEq] at h
      exact ⟨h.1 ▸ rfl, by simp [Disk.page, hd, ho]⟩
    · next ho =>
      split at h
      · simp at h
      · next ha =>
        simp only [Result.error.injEq] at h
        refine ⟨h.1 ▸ rfl, ?_⟩
        have hlt : ¬ (pageOffset n page).toNat + n ≤ f.size := by
          unfold ByteFile.available at ha
          omega
        simp [Disk.page, hd, ho, ByteFile.block, hlt]

theorem writeBack_ok {en : BufferEntry n} (h : writeBack en s = .ok u t) :
    ∃ d, WroteBack s.disk en d ∧ t = { s with disk := d } := by
  unfold writeBack at h
  by_cases hd : en.dirty = true
  · rw [if_pos hd] at h
    obtain ⟨d, hp, rfl⟩ := writePage_ok.mp h
    exact ⟨d, Or.inr ⟨hd, hp⟩, rfl⟩
  · rw [if_neg hd] at h
    obtain ⟨_, rfl⟩ := pure_ok_iff.mp h
    exact ⟨s.disk, Or.inl ⟨by simpa using hd, rfl⟩, rfl⟩

theorem writeBack_error {en : BufferEntry n} (h : writeBack en s = .error e t) :
    e.isIo ∧ t = s := by
  unfold writeBack at h
  by_cases hd : en.dirty = true
  · rw [if_pos hd] at h
    exact writePage_error h
  · rw [if_neg hd] at h
    exact absurd h pure_ne_error

/-- Either a slot is taken from the free list, or the victim is written back and dropped. -/
theorem internalAlloc_ok (h : internalAlloc s = .ok slot t) :
    (∃ rest, s.freeList = slot :: rest ∧ t = { s with freeList := rest }.insertUsed slot) ∨
    (s.freeList = [] ∧ s.victim = some slot ∧ ∃ d, WroteBack s.disk (s.bufferPool slot) d ∧
      t = ((({ s with disk := d }.hashRemove (s.bufferPool slot).fd
        (s.bufferPool slot).page).remove slot).insertUsed slot)) := by
  replace h := get_bind_ok_iff.mp h
  cases hf : s.freeList with
  | cons i rest =>
    left
    simp only [hf] at h
    obtain ⟨_, _, hs, h⟩ := bind_ok_iff.mp h
    obtain ⟨rfl, rfl⟩ := pure_ok_iff.mp h
    exact ⟨rest, rfl, (set_ok_iff.mp hs).symm⟩
  | nil =>
    right
    refine ⟨rfl, ?_⟩
    simp only [hf] at h
    cases hv : s.victim with
    | none => simp [hv] at h
    | some i =>
      simp only [hv] at h
      obtain ⟨_, _, hw, h⟩ := bind_ok_iff.mp h
      obtain ⟨_, _, hm, h⟩ := bind_ok_iff.mp h
      obtain ⟨rfl, rfl⟩ := pure_ok_iff.mp h
      obtain ⟨d, hd, rfl⟩ := writeBack_ok hw
      refine ⟨rfl, d, hd, ?_⟩
      rw [← hf]
      exact (modify_ok_iff.mp hm).symm

theorem internalAlloc_error (h : internalAlloc s = .error e t) :
    t = s ∧ ((e = .noBuf ∧ s.freeList = [] ∧ s.victim = none) ∨ e.isIo) := by
  replace h := get_bind_error_iff.mp h
  cases hf : s.freeList with
  | cons i rest =>
    simp only [hf] at h
    obtain h | ⟨_, _, _, h⟩ := bind_error_iff.mp h
    · exact absurd h set_ne_error
    · exact absurd h pure_ne_error
  | nil =>
    simp only [hf] at h
    cases hv : s.victim with
    | none =>
      simp only [hv, throw_error_iff] at h
      exact ⟨h.2.symm, Or.inl ⟨h.1.symm, rfl, rfl⟩⟩
    | some i =>
      simp only [hv] at h
      obtain hw | ⟨_, _, _, h⟩ := bind_error_iff.mp h
      · obtain ⟨he, rfl⟩ := writeBack_error hw
        exact ⟨rfl, Or.inr he⟩
      · obtain h | ⟨_, _, _, h⟩ := bind_error_iff.mp h
        · exact absurd h modify_ne_error
        · exact absurd h pure_ne_error

/-- The state after a page has been put into a slot. -/
def install (s : BufferManager n) (fd page : ℤ) (slot : ℕ) : BufferManager n :=
  (s.hashInsert fd page slot).initPageInfo fd page slot

/-- A slot moved to the front of the used list. -/
def touch (s : BufferManager n) (slot : ℕ) : BufferManager n :=
  (s.remove slot).insertUsed slot

/-- A hit pins the slot and moves it to the front; a miss fills a slot from disk. -/
theorem getPage_ok {mp : Bool} (h : getPage fd page mp s = .ok slot t) :
    (s.hashTable.find fd page = some slot ∧ ¬ (mp = false ∧ 0 < (s.bufferPool slot).pin) ∧
      t = (s.setEntry slot { s.bufferPool slot with
        pin := (s.bufferPool slot).pin + 1 }).touch slot) ∨
    (s.hashTable.find fd page = none ∧ ∃ v w, internalAlloc s = .ok slot v ∧
      readPage fd page slot v = .ok () w ∧ t = w.install fd page slot) := by
  replace h := get_bind_ok_iff.mp h
  cases hf : s.hashTable.find fd page with
  | none =>
    right
    simp only [hf] at h
    obtain ⟨i, v, ha, h⟩ := bind_ok_iff.mp h
    obtain ⟨_, w, hr, h⟩ := bind_ok_iff.mp h
    obtain ⟨_, _, hm, h⟩ := bind_ok_iff.mp h
    obtain ⟨rfl, rfl⟩ := pure_ok_iff.mp h
    exact ⟨rfl, v, w, ha, hr, (modify_ok_iff.mp hm).symm⟩
  | some i =>
    left
    simp only [hf] at h
    by_cases hp : mp = false ∧ 0 < (s.bufferPool i).pin
    · simp [if_pos hp] at h
    · rw [if_neg hp] at h
      obtain ⟨_, _, hs, h⟩ := bind_ok_iff.mp h
      obtain ⟨rfl, rfl⟩ := pure_ok_iff.mp h
      exact ⟨rfl, hp, (set_ok_iff.mp hs).symm⟩

/-- Without an I/O error a failed `getPage` has changed nothing. -/
theorem getPage_error {mp : Bool} (h : getPage fd page mp s = .error e t) :
    e.isIo ∨ (t = s ∧ ((e = .pagePinned ∧ ∃ i, s.hashTable.find fd page = some i ∧
        mp = false ∧ 0 < (s.bufferPool i).pin) ∨
      (e = .noBuf ∧ s.hashTable.find fd page = none ∧ s.freeList = [] ∧ s.victim = none))) := by
  replace h := get_bind_error_iff.mp h
  cases hf : s.hashTable.find fd page with
  | none =>
    simp only [hf] at h
    obtain ha | ⟨i, v, _, h⟩ := bind_error_iff.mp h
    · obtain ⟨rfl, ⟨he, hfr, hv⟩ | he⟩ := internalAlloc_error ha
      · exact Or.inr ⟨rfl, Or.inr ⟨he, rfl, hfr, hv⟩⟩
      · exact Or.inl he
    · left
      obtain hr | ⟨_, _, _, h⟩ := bind_error_iff.mp h
      · exact (readPage_error hr).1
      · obtain h | ⟨_, _, _, h⟩ := bind_error_iff.mp h
        · exact absurd h modify_ne_error
        · exact absurd h pure_ne_error
  | some i =>
    right
    simp only [hf] at h
    by_cases hp : mp = false ∧ 0 < (s.bufferPool i).pin
    · rw [if_pos hp, throw_error_iff] at h
      exact ⟨h.2.symm, Or.inl ⟨h.1.symm, i, rfl, hp⟩⟩
    · rw [if_neg hp] at h
      obtain h | ⟨_, _, _, h⟩ := bind_error_iff.mp h
      · exact absurd h set_ne_error
      · exact absurd h pure_ne_error

/-- A failed `getPage` has changed something only if the page could not be read. -/
theorem getPage_error_unread {mp : Bool} (h : getPage fd page mp s = .error e t) :
    t = s ∨ (s.hashTable.find fd page = none ∧ ∃ slot v, internalAlloc s = .ok slot v ∧
      (v.disk.page fd page : Option (Block n)) = none) := by
  by_cases hio : e.isIo = true
  · replace h := get_bind_error_iff.mp h
    cases hf : s.hashTable.find fd page with
    | none =>
      simp only [hf] at h
      obtain ha | ⟨i, v, hv, h⟩ := bind_error_iff.mp h
      · exact Or.inl (internalAlloc_error ha).1
      · obtain hr | ⟨_, _, _, h⟩ := bind_error_iff.mp h
        · exact Or.inr ⟨rfl, i, v, hv, (readPage_error hr).2⟩
        · obtain h | ⟨_, _, _, h⟩ := bind_error_iff.mp h
          · exact absurd h modify_ne_error
          · exact absurd h pure_ne_error
    | some i =>
      simp only [hf] at h
      by_cases hp : mp = false ∧ 0 < (s.bufferPool i).pin
      · rw [if_pos hp, throw_error_iff] at h
        exact Or.inl h.2.symm
      · rw [if_neg hp] at h
        obtain h | ⟨_, _, _, h⟩ := bind_error_iff.mp h
        · exact absurd h set_ne_error
        · exact absurd h pure_ne_error
  · obtain he | ⟨ht, -⟩ := getPage_error h
    · exact absurd he hio
    · exact Or.inl ht

theorem allocatePage_ok {r : Option ℕ} (h : allocatePage fd page s = .ok r t) :
    (∃ i, s.hashTable.find fd page = some i ∧ r = none ∧ t = s) ∨
    (s.hashTable.find fd page = none ∧ ∃ slot v, r = some slot ∧
      internalAlloc s = .ok slot v ∧ t = v.install fd page slot) := by
  replace h := get_bind_ok_iff.mp h
  cases hf : s.hashTable.find fd page with
  | none =>
    right
    simp only [hf] at h
    obtain ⟨i, v, ha, h⟩ := bind_ok_iff.mp h
    obtain ⟨_, _, hm, h⟩ := bind_ok_iff.mp h
    obtain ⟨rfl, rfl⟩ := pure_ok_iff.mp h
    exact ⟨rfl, i, v, rfl, ha, (modify_ok_iff.mp hm).symm⟩
  | some i =>
    left
    simp only [hf] at h
    obtain ⟨rfl, rfl⟩ := pure_ok_iff.mp h
    exact ⟨i, rfl, rfl, rfl⟩

theorem allocatePage_error (h : allocatePage fd page s = .error e t) :
    t = s ∧ ((e = .noBuf ∧ s.freeList = [] ∧ s.victim = none) ∨ e.isIo) := by
  replace h := get_bind_error_iff.mp h
  cases hf : s.hashTable.find fd page with
  | none =>
    simp only [hf] at h
    obtain ha | ⟨i, v, _, h⟩ := bind_error_iff.mp h
    · exact internalAlloc_error ha
    · obtain h | ⟨_, _, _, h⟩ := bind_error_iff.mp h
      · exact absurd h modify_ne_error
      · exact absurd h pure_ne_error
  | some i =>
    simp only [hf] at h
    exact absurd h pure_ne_error

theorem markDirty_ok (h : markDirty fd page s = .ok u t) :
    ∃ slot, s.hashTable.find fd page = some slot ∧
      t = (s.setEntry slot { s.bufferPool slot with dirty := true }).touch slot := by
  replace h := get_bind_ok_iff.mp h
  cases hf : s.hashTable.find fd page with
  | none => simp [hf] at h
  | some i =>
    simp only [hf] at h
    exact ⟨i, rfl, (set_ok_iff.mp h).symm⟩

theorem markDirty_error (h : markDirty fd page s = .error e t) :
    t = s ∧ e = .pageNotInBuf ∧ s.hashTable.find fd page = none := by
  replace h := get_bind_error_iff.mp h
  cases hf : s.hashTable.find fd page with
  | none =>
    simp only [hf, throw_error_iff] at h
    exact ⟨h.2.symm, h.1.symm, rfl⟩
  | some i =>
    simp only [hf] at h
    exact absurd h set_ne_error

/-- An unpin that reaches zero also moves the slot to the front. -/
theorem unpinPage_ok (h : unpinPage fd page s = .ok u t) :
    ∃ slot, s.hashTable.find fd page = some slot ∧ (s.bufferPool slot).pin ≠ 0 ∧
      t = if (s.bufferPool slot).pin - 1 = 0 then
          (s.setEntry slot { s.bufferPool slot with
            pin := (s.bufferPool slot).pin - 1 }).touch slot
        else s.setEntry slot { s.bufferPool slot with pin := (s.bufferPool slot).pin - 1 } := by
  replace h := get_bind_ok_iff.mp h
  cases hf : s.hashTable.find fd page with
  | none => simp [hf] at h
  | some i =>
    simp only [hf] at h
    by_cases hp : (s.bufferPool i).pin = 0
    · simp [hp] at h
    · refine ⟨i, rfl, hp, ?_⟩
      rw [if_neg hp] at h
      by_cases h1 : (s.bufferPool i).pin - 1 = 0
      · rw [if_pos h1] at h ⊢
        exact (set_ok_iff.mp h).symm
      · rw [if_neg h1] at h ⊢
        exact (set_ok_iff.mp h).symm

theorem unpinPage_error (h : unpinPage fd page s = .error e t) :
    t = s ∧ ((e = .pageNotInBuf ∧ s.hashTable.find fd page = none) ∨
      (e = .pageAlreadyUnpinned ∧ ∃ i, s.hashTable.find fd page = some i ∧
        (s.bufferPool i).pin = 0)) := by
  replace h := get_bind_error_iff.mp h
  cases hf : s.hashTable.find fd page with
  | none =>
    simp only [hf, throw_error_iff] at h
    exact ⟨h.2.symm, Or.inl ⟨h.1.symm, rfl⟩⟩
  | some i =>
    simp only [hf] at h
    by_cases hp : (s.bufferPool i).pin = 0
    · rw [if_pos hp, throw_error_iff] at h
      exact ⟨h.2.symm, Or.inr ⟨h.1.symm, i, rfl, hp⟩⟩
    · rw [if_neg hp] at h
      by_cases h1 : (s.bufferPool i).pin - 1 = 0
      · rw [if_pos h1] at h
        exact absurd h set_ne_error
      · rw [if_neg h1] at h
        exact absurd h set_ne_error

theorem forceSlot_ok (h : forceSlot fd page i s = .ok u t) :
    (¬ Forced fd page (s.bufferPool i) ∧ t = s) ∨
    (Forced fd page (s.bufferPool i) ∧
      ∃ d, s.disk.putPage fd page (s.bufferPool i).data = some d ∧
        t = { s with disk := d }.setEntry i { s.bufferPool i with dirty := false }) := by
  replace h := get_bind_ok_iff.mp h
  by_cases hc : Forced fd page (s.bufferPool i)
  · right
    refine ⟨hc, ?_⟩
    rw [if_pos hc] at h
    obtain ⟨_, _, hw, hm⟩ := bind_ok_iff.mp h
    obtain ⟨d, hd, rfl⟩ := writePage_ok.mp hw
    exact ⟨d, hd, (modify_ok_iff.mp hm).symm⟩
  · left
    rw [if_neg hc] at h
    exact ⟨hc, (pure_ok_iff.mp h).2.symm⟩

theorem forceSlot_error (h : forceSlot fd page i s = .error e t) :
    e.isIo ∧ t = s ∧ Forced fd page (s.bufferPool i) := by
  replace h := get_bind_error_iff.mp h
  by_cases hc : Forced fd page (s.bufferPool i)
  · rw [if_pos hc] at h
    obtain hw | ⟨_, _, _, hm⟩ := bind_error_iff.mp h
    · exact ⟨(writePage_error hw).1, (writePage_error hw).2, hc⟩
    · exact absurd hm modify_ne_error
  · rw [if_neg hc] at h
    exact absurd h pure_ne_error

theorem forceSlot_of_not_forced (h : ¬ Forced fd page (s.bufferPool i)) :
    forceSlot fd page i s = .ok () s := by
  cases hr : forceSlot fd page i s with
  | ok _ t =>
    obtain ⟨-, rfl⟩ | ⟨hc, -⟩ := forceSlot_ok hr
    · rfl
    · exact absurd hc h
  | error e t => exact absurd (forceSlot_error hr).2.2 h

theorem forceSlot_of_forced {d : Disk} (h : Forced fd page (s.bufferPool i))
    (hd : s.disk.putPage fd page (s.bufferPool i).data = some d) :
    forceSlot fd page i s =
      .ok () ({ s with disk := d }.setEntry i { s.bufferPool i with dirty := false }) := by
  have hg : (get : Op n (BufferManager n)) s = .ok s s := rfl
  have hw : writePage fd page (s.bufferPool i).data s = .ok () { s with disk := d } :=
    writePage_ok.mpr ⟨d, hd, rfl⟩
  rw [forceSlot, bind_of_ok hg, if_pos h, bind_of_ok hw]
  rfl

/-- Only I/O makes a `forcePage` throw. -/
theorem forceSlots_error {is : List ℕ} (h : forceSlots fd page is s = .error e t) : e.isIo := by
  induction is generalizing s with
  | nil => exact absurd h pure_ne_error
  | cons i is ih =>
    obtain hi | ⟨_, v, _, hrest⟩ := bind_error_iff.mp h
    · exact (forceSlot_error hi).1
    · exact ih hrest

theorem forcePage_error (h : forcePage fd page s = .error e t) : e.isIo := by
  obtain hg | ⟨_, _, _, h⟩ := bind_error_iff.mp h
  · exact absurd hg get_ne_error
  · exact forceSlots_error h

/-- A slot written back and put on the free list. -/
def release (s : BufferManager n) (i : ℕ) (d : Disk) : BufferManager n :=
  ((({ s with disk := d }.setEntry i { s.bufferPool i with dirty := false }).hashRemove
    (s.bufferPool i).fd (s.bufferPool i).page).remove i).insertFree i

theorem flushSlot_ok (h : flushSlot fd i s = .ok u t) :
    ((s.bufferPool i).fd ≠ fd ∧ t = s) ∨
    ((s.bufferPool i).fd = fd ∧ (s.bufferPool i).pin ≤ 0 ∧
      ∃ d, WroteBack s.disk (s.bufferPool i) d ∧ t = s.release i d) := by
  replace h := get_bind_ok_iff.mp h
  by_cases hc : (s.bufferPool i).fd = fd
  · right
    rw [if_pos hc] at h
    by_cases hp : 0 < (s.bufferPool i).pin
    · simp [hp] at h
    · rw [if_neg hp] at h
      obtain ⟨_, _, hw, h⟩ := bind_ok_iff.mp h
      obtain ⟨_, _, hm, h⟩ := bind_ok_iff.mp h
      obtain ⟨d, hd, rfl⟩ := writeBack_ok hw
      rw [modify_ok_iff] at hm
      subst hm
      exact ⟨hc, not_lt.mp hp, d, hd, (modify_ok_iff.mp h).symm⟩
  · left
    rw [if_neg hc] at h
    exact ⟨hc, (pure_ok_iff.mp h).2.symm⟩

theorem flushSlot_error (h : flushSlot fd i s = .error e t) :
    t = s ∧ (s.bufferPool i).fd = fd ∧
      ((e = .pagePinned ∧ 0 < (s.bufferPool i).pin) ∨
        (e.isIo ∧ (s.bufferPool i).pin ≤ 0)) := by
  replace h := get_bind_error_iff.mp h
  by_cases hc : (s.bufferPool i).fd = fd
  · rw [if_pos hc] at h
    by_cases hp : 0 < (s.bufferPool i).pin
    · rw [if_pos hp, throw_error_iff] at h
      exact ⟨h.2.symm, hc, Or.inl ⟨h.1.symm, hp⟩⟩
    · rw [if_neg hp] at h
      obtain hw | ⟨_, _, _, h⟩ := bind_error_iff.mp h
      · obtain ⟨he, rfl⟩ := writeBack_error hw
        exact ⟨rfl, hc, Or.inr ⟨he, not_lt.mp hp⟩⟩
      · obtain h | ⟨_, _, _, h⟩ := bind_error_iff.mp h
        · exact absurd h modify_ne_error
        · exact absurd h modify_ne_error
  · rw [if_neg hc] at h
    exact absurd h pure_ne_error

/-- The state after a call whose I/O succeeded: `ok` if it returned, `threw` if it threw. -/
def outcome {α σ : Type} (r : Result Error (BufferManager n) α)
    (ok : α → BufferManager n → σ) (threw : BufferManager n → σ) : Option σ :=
  match r with
  | .ok a t => some (ok a t)
  | .error e t => if e.isIo then none else some (threw t)

theorem outcome_eq_some {α σ : Type} {r : Result Error (BufferManager n) α}
    {ok : α → BufferManager n → σ} {threw : BufferManager n → σ} {v : σ}
    (h : outcome r ok threw = some v) :
    (∃ a t, r = .ok a t ∧ v = ok a t) ∨
      ∃ e t, r = .error e t ∧ e.isIo = false ∧ v = threw t := by
  cases r with
  | ok a t =>
    left
    exact ⟨a, t, rfl, (Option.some.inj h).symm⟩
  | error e t =>
    right
    by_cases he : e.isIo = true
    · simp [outcome, he] at h
    · rw [outcome, if_neg he] at h
      exact ⟨e, t, rfl, by simpa using he, (Option.some.inj h).symm⟩

end AlphaDb.Io.BufferManager
