import AlphaDb.Io.PoolRuns
import AlphaDb.Io.Cache

/-! What each call does to the pages in the pool: which slot they keep, which page goes when room is
needed, and when there is none. -/
namespace AlphaDb.Io

open EStateM

namespace BufferManager

variable {n : ℕ} {s t : BufferManager n} {fd page : ℤ} {slot i : ℕ} {u : Unit}

/-- The page that a slot carries. -/
def carried (s : BufferManager n) (i : ℕ) : PageId := ((s.bufferPool i).fd, (s.bufferPool i).page)

def Call.isFlush : Call → Bool
  | .flushPages _ => true
  | _ => false

/-- The call has to bring a page into the pool. -/
def Needs (s : BufferManager n) : Call → Prop
  | .getPage fd page _ | .allocatePage fd page => s.hashTable.find fd page = none
  | _ => False

/-- Every slot holds a page with pins. -/
def AllPinned (s : BufferManager n) : Prop :=
  ∀ i < s.poolSize, ∃ k : PageId, s.hashTable.find k.1 k.2 = some i ∧ 0 < (s.bufferPool i).pin

theorem remove_sublist : (s.remove slot).usedList.toList.Sublist s.usedList.toList := by
  unfold remove
  split <;> exact StableList.toList_eraseP_sublist

/-- The slot handed out is in front, and the others were used before. -/
theorem internalAlloc_front (ha : internalAlloc s = .ok slot t) :
    ∃ l, t.usedList.toList = slot :: l ∧ l.Sublist s.usedList.toList ∧
      t.bufferPool = s.bufferPool := by
  obtain ⟨rest, -, rfl⟩ | ⟨-, -, d, -, rfl⟩ := internalAlloc_ok ha
  · exact ⟨s.usedList.toList, rfl, List.Sublist.refl _, rfl⟩
  · refine ⟨_, rfl, remove_sublist, ?_⟩
    rw [insertUsed_bufferPool, remove_bufferPool]
    rfl

/-- Making room forgets at most the page of the victim. -/
theorem internalAlloc_find {k : PageId} (h : Owned s) (ha : internalAlloc s = .ok slot t)
    (hf : s.hashTable.find k.1 k.2 = some i) : t.hashTable.find k.1 k.2 = some i ∨
      (t.hashTable.find k.1 k.2 = none ∧ s.freeList = [] ∧ s.victim = some i) := by
  obtain ⟨rest, -, rfl⟩ | ⟨hfree, hv, d, -, rfl⟩ := internalAlloc_ok ha
  · exact Or.inl hf
  · simp only [insertUsed_hashTable, remove_hashTable, BufferManager.hashRemove]
    by_cases hk : (k.1, k.2) = ((s.bufferPool slot).fd, (s.bufferPool slot).page)
    · right
      have hslot := used_cached (owned_iff.mp h) (victim_used hv).1
      obtain ⟨hk₁, hk₂⟩ := Prod.mk.inj hk
      rw [← hk₁, ← hk₂] at hslot
      obtain rfl := Option.some.inj (hf.symm.trans hslot)
      rw [← hk₁, ← hk₂]
      exact ⟨HashTable.find_remove_self, hfree, hv⟩
    · left
      rw [HashTable.find_remove_of_ne hk]
      exact hf

/-- With an empty free list the page of the victim is forgotten. -/
theorem internalAlloc_evicts (h : Owned s) (ha : internalAlloc s = .ok slot t)
    (hfree : s.freeList = []) : ∃ k : PageId, s.hashTable.find k.1 k.2 = some slot ∧
      t.hashTable.find k.1 k.2 = none := by
  obtain ⟨rest, hf, -⟩ | ⟨-, hv, d, -, rfl⟩ := internalAlloc_ok ha
  · simp [hfree] at hf
  · refine ⟨s.carried slot, used_cached (owned_iff.mp h) (victim_used hv).1, ?_⟩
    simp only [insertUsed_hashTable, remove_hashTable, BufferManager.hashRemove]
    exact HashTable.find_remove_self

theorem find_install {k : PageId} (hk : k ≠ (fd, page)) :
    (s.install fd page slot).hashTable.find k.1 k.2 = s.hashTable.find k.1 k.2 :=
  HashTable.find_insert_of_ne hk

/-- Without room the search for a slot fails. -/
theorem internalAlloc_full (hfree : s.freeList = []) (hv : s.victim = none) :
    internalAlloc s = .error .noBuf s := by
  have hg : (get : Op n (BufferManager n)) s = .ok s s := rfl
  rw [internalAlloc, bind_of_ok hg]
  simp only [hfree, hv]
  rfl

/-- What a forced write leaves alone. -/
theorem forceSlots_frame {is : List ℕ} (hf : forceSlots fd page is s = .ok u t) :
    t.usedList = s.usedList ∧ t.hashTable = s.hashTable ∧ t.freeList = s.freeList ∧
      ∀ j, t.carried j = s.carried j ∧ (t.bufferPool j).pin = (s.bufferPool j).pin := by
  induction is generalizing s with
  | nil =>
    obtain ⟨-, rfl⟩ := pure_ok_iff.mp hf
    exact ⟨rfl, rfl, rfl, fun j => ⟨rfl, rfl⟩⟩
  | cons i is ih =>
    obtain ⟨_, v, hi, hrest⟩ := bind_ok_iff.mp hf
    obtain ⟨hu, hh, hl, hj⟩ := ih hrest
    obtain ⟨-, rfl⟩ | ⟨-, d, -, rfl⟩ := forceSlot_ok hi
    · exact ⟨hu, hh, hl, hj⟩
    · refine ⟨hu, hh, hl, ?_⟩
      intro j
      rw [(hj j).1, (hj j).2]
      by_cases he : j = i
      · subst he
        simp [carried, BufferManager.setEntry]
      · simp [carried, BufferManager.setEntry, he]

theorem perform_full {c : Call} (hc : s.Needs c) (hfree : s.freeList = []) (hv : s.victim = none) :
    c.perform s = .error .noBuf s := by
  have hg : (get : Op n (BufferManager n)) s = .ok s s := rfl
  have ha := internalAlloc_full hfree hv
  cases c with
  | getPage fd page mp =>
    have hf : s.hashTable.find fd page = none := hc
    have he : getPage fd page mp s = .error .noBuf s := by
      rw [getPage, bind_of_ok hg]
      simp only [hf]
      exact bind_error_iff.mpr (Or.inl ha)
    exact bind_error_iff.mpr (Or.inl he)
  | allocatePage fd page =>
    have hf : s.hashTable.find fd page = none := hc
    have he : allocatePage fd page s = .error .noBuf s := by
      rw [allocatePage, bind_of_ok hg]
      simp only [hf]
      exact bind_error_iff.mpr (Or.inl ha)
    exact bind_error_iff.mpr (Or.inl he)
  | markDirty fd page => exact hc.elim
  | unpinPage fd page => exact hc.elim
  | forcePage fd page => exact hc.elim
  | flushPages fd => exact hc.elim

theorem perform_noBuf {c : Call} (hc : s.Needs c) (h : c.perform s = .error .noBuf t) :
    t = s ∧ s.freeList = [] ∧ s.victim = none := by
  cases c with
  | getPage fd page mp =>
    obtain hg | ⟨_, _, _, hv⟩ := bind_error_iff.mp h
    · obtain hio | ⟨rfl, ⟨he, -⟩ | ⟨-, -, hfree, hv⟩⟩ := getPage_error hg
      · simp [Error.isIo] at hio
      · simp at he
      · exact ⟨rfl, hfree, hv⟩
    · exact absurd hv pure_ne_error
  | allocatePage fd page =>
    obtain ha | ⟨_, _, _, hv⟩ := bind_error_iff.mp h
    · obtain ⟨rfl, ⟨-, hfree, hv⟩ | hio⟩ := allocatePage_error ha
      · exact ⟨rfl, hfree, hv⟩
      · simp [Error.isIo] at hio
    · exact absurd hv pure_ne_error
  | markDirty fd page => exact hc.elim
  | unpinPage fd page => exact hc.elim
  | forcePage fd page => exact hc.elim
  | flushPages fd => exact hc.elim

/-- Every page keeps its slot, but perhaps that of the victim. -/
theorem perform_find {c : Call} {k : PageId} (ho : Owned s) (hc : c.isFlush = false)
    (hp : c.perform s = .ok u t) (hf : s.hashTable.find k.1 k.2 = some i) :
    t.hashTable.find k.1 k.2 = some i ∨
      (t.hashTable.find k.1 k.2 = none ∧ s.Needs c ∧ s.freeList = [] ∧ s.victim = some i) := by
  have hne : ∀ fd page, s.hashTable.find fd page = none → k ≠ (fd, page) := by
    rintro fd page hnone rfl
    simp [hnone] at hf
  cases c with
  | getPage fd page mp =>
    obtain ⟨slot, _, hg, hv⟩ := bind_ok_iff.mp hp
    obtain ⟨-, rfl⟩ := pure_ok_iff.mp hv
    obtain ⟨-, -, rfl⟩ | ⟨hnone, v, w, ha, hr, rfl⟩ := getPage_ok hg
    · left
      rw [touch_hashTable]
      exact hf
    · obtain ⟨f, -, -, -, rfl⟩ := readPage_ok.mp hr
      rw [find_install (hne fd page hnone)]
      obtain hk | ⟨hk, hroom⟩ := internalAlloc_find ho ha hf
      · exact Or.inl hk
      · exact Or.inr ⟨hk, hnone, hroom⟩
  | allocatePage fd page =>
    obtain ⟨r, _, ha, hv⟩ := bind_ok_iff.mp hp
    obtain ⟨-, rfl⟩ := pure_ok_iff.mp hv
    obtain ⟨_, -, -, rfl⟩ | ⟨hnone, slot, v, -, hi, rfl⟩ := allocatePage_ok ha
    · exact Or.inl hf
    · rw [find_install (hne fd page hnone)]
      obtain hk | ⟨hk, hroom⟩ := internalAlloc_find ho hi hf
      · exact Or.inl hk
      · exact Or.inr ⟨hk, hnone, hroom⟩
  | markDirty fd page =>
    obtain ⟨slot, -, rfl⟩ := markDirty_ok hp
    left
    rw [touch_hashTable]
    exact hf
  | unpinPage fd page =>
    obtain ⟨slot, -, -, rfl⟩ := unpinPage_ok hp
    left
    split
    · rw [touch_hashTable]
      exact hf
    · exact hf
  | forcePage fd page =>
    have hx := get_bind_ok_iff.mp hp
    exact Or.inl ((forceSlots_frame hx).2.1 ▸ hf)
  | flushPages fd => simp [Call.isFlush] at hc

/-- A page that is brought in without a free slot puts another one out. -/
theorem perform_evicts {c : Call} (ho : Owned s) (hc : s.Needs c) (hfree : s.freeList = [])
    (hp : c.perform s = .ok u t) :
    ∃ (k : PageId) (i : ℕ), s.hashTable.find k.1 k.2 = some i ∧
      t.hashTable.find k.1 k.2 = none := by
  cases c with
  | getPage fd page mp =>
    have hnone : s.hashTable.find fd page = none := hc
    obtain ⟨slot, _, hg, hv⟩ := bind_ok_iff.mp hp
    obtain ⟨-, rfl⟩ := pure_ok_iff.mp hv
    obtain ⟨hf, -⟩ | ⟨-, v, w, ha, hr, rfl⟩ := getPage_ok hg
    · simp [hnone] at hf
    · obtain ⟨f, -, -, -, rfl⟩ := readPage_ok.mp hr
      obtain ⟨k, hk, hk'⟩ := internalAlloc_evicts ho ha hfree
      refine ⟨k, slot, hk, ?_⟩
      rw [find_install fun he => by simp [he, hnone] at hk]
      exact hk'
  | allocatePage fd page =>
    have hnone : s.hashTable.find fd page = none := hc
    obtain ⟨r, _, ha, hv⟩ := bind_ok_iff.mp hp
    obtain ⟨-, rfl⟩ := pure_ok_iff.mp hv
    obtain ⟨_, hf, -⟩ | ⟨-, slot, v, -, hi, rfl⟩ := allocatePage_ok ha
    · simp [hnone] at hf
    · obtain ⟨k, hk, hk'⟩ := internalAlloc_evicts ho hi hfree
      refine ⟨k, slot, hk, ?_⟩
      rw [find_install fun he => by simp [he, hnone] at hk]
      exact hk'
  | markDirty fd page => exact hc.elim
  | unpinPage fd page => exact hc.elim
  | forcePage fd page => exact hc.elim
  | flushPages fd => exact hc.elim

/-- A call other than a flush that throws, though its I/O succeeded, has changed nothing. -/
theorem perform_error {c : Call} {e : Error} (hc : c.isFlush = false)
    (h : c.perform s = .error e t) (he : e.isIo = false) : t = s := by
  cases c with
  | getPage fd page mp =>
    obtain hg | ⟨_, _, _, hv⟩ := bind_error_iff.mp h
    · obtain hio | ⟨rfl, -⟩ := getPage_error hg
      · simp [hio] at he
      · rfl
    · exact absurd hv pure_ne_error
  | allocatePage fd page =>
    obtain ha | ⟨_, _, _, hv⟩ := bind_error_iff.mp h
    · exact (allocatePage_error ha).1
    · exact absurd hv pure_ne_error
  | markDirty fd page => exact (markDirty_error h).1
  | unpinPage fd page => exact (unpinPage_error h).1
  | forcePage fd page =>
    have := forcePage_error h
    simp [he] at this
  | flushPages fd => simp [Call.isFlush] at hc

end BufferManager

end AlphaDb.Io
