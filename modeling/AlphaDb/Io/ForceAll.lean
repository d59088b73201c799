import AlphaDb.Io.PageStore
import AlphaDb.Io.PoolRuns

/-! `forcePage` with `ALL_PAGES`: the loop hands `writePage` the sentinel instead of the page of
the entry, so everything it writes lands on the header block. -/
namespace AlphaDb.Io

def allPages : ℤ := -1

/-- Byte `off` of an open file. -/
def Disk.byte (d : Disk) (fd : ℤ) (off : ℕ) : Option UInt8 :=
  (d fd).bind fun f => f.get? off

namespace BufferManager

open EStateM Trace

variable {n : ℕ} {s t : BufferManager n} {fd page : ℤ} {i : ℕ} {is : List ℕ} {f : ByteFile}

/-- A slot with a dirty page of `fd`. -/
def DirtyOf (s : BufferManager n) (fd : ℤ) (i : ℕ) : Prop :=
  (s.bufferPool i).fd = fd ∧ (s.bufferPool i).dirty = true

instance : Decidable (s.DirtyOf fd i) := inferInstanceAs (Decidable (_ ∧ _))

/-- The slots whose data the loop writes, in order; a slot met again is clean by then. -/
def forced (s : BufferManager n) (fd : ℤ) (is : List ℕ) : List ℕ :=
  (is.filter fun i => s.DirtyOf fd i).eraseDups

theorem forced_cons_of_dirty {en : BufferEntry n} (h : s.DirtyOf fd i) (d : Disk)
    (hen : en.dirty = false) : s.forced fd (i :: is) =
      i :: ({ s with disk := d }.setEntry i en).forced fd is := by
  have hd : ∀ j, ({ s with disk := d }.setEntry i en).DirtyOf fd j ↔ s.DirtyOf fd j ∧ j ≠ i := by
    intro j
    by_cases hj : j = i
    · subst hj
      simp [DirtyOf, BufferManager.setEntry, hen]
    · simp [DirtyOf, BufferManager.setEntry, Function.update, hj]
  simp only [forced, hd]
  rw [List.filter_cons_of_pos (by simpa using h), List.eraseDups_cons, List.filter_filter]
  congr 3
  funext j
  by_cases hj : j = i <;> simp [hj]

/-- What the loop does to an open file: every dirty page of `fd` is written over the header
block and marked clean. -/
theorem forceSlots_all (is : List ℕ) (ho : 0 ≤ pageOffset n allPages) (hf : s.disk fd = some f) :
    ∃ t, forceSlots fd allPages is s = .ok () t ∧ t.usedList = s.usedList ∧
      (∀ i, t.bufferPool i = { s.bufferPool i with
        dirty := (s.bufferPool i).dirty && !decide (i ∈ is ∧ (s.bufferPool i).fd = fd) }) ∧
      t.disk = Function.update s.disk fd (some ((s.forced fd is).foldl
        (fun f i => f.write (pageOffset n allPages).toNat (s.bufferPool i).data) f)) := by
  induction is generalizing s f with
  | nil =>
    refine ⟨s, rfl, rfl, fun i => by simp, ?_⟩
    simp [forced, ← hf]
  | cons i is ih =>
    by_cases hD : s.DirtyOf fd i
    · have hforced : Forced fd allPages (s.bufferPool i) := ⟨hD.1, Or.inr rfl, hD.2⟩
      let d := Function.update s.disk fd
        (some (f.write (pageOffset n allPages).toNat (s.bufferPool i).data))
      have hput : s.disk.putPage fd allPages (s.bufferPool i).data = some d :=
        putPage_eq_some.mpr ⟨f, hf, ho, rfl⟩
      let v := { s with disk := d }.setEntry i { s.bufferPool i with dirty := false }
      have hv : v.disk fd = some (f.write (pageOffset n allPages).toNat (s.bufferPool i).data) :=
        Function.update_self ..
      have hdata : ∀ j, (v.bufferPool j).data = (s.bufferPool j).data := by
        intro j
        by_cases hj : j = i
        · subst hj; simp [v, BufferManager.setEntry]
        · simp [v, BufferManager.setEntry, Function.update, hj]
      obtain ⟨t, ht, hu, hp, hdisk⟩ := ih hv
      refine ⟨t, ?_, hu, ?_, ?_⟩
      · rw [forceSlots, bind_of_ok (forceSlot_of_forced hforced hput), ht]
      · intro j
        rw [hp j]
        by_cases hj : j = i
        · subst hj
          simp [v, BufferManager.setEntry, hD.1]
        · simp [v, BufferManager.setEntry, Function.update, hj]
      · have hcons : s.forced fd (i :: is) = i :: v.forced fd is :=
          forced_cons_of_dirty hD d rfl
        rw [hdisk, hcons]
        simp only [hdata, List.foldl_cons]
        exact Function.update_idem ..
    · have hnot : ¬ Forced fd allPages (s.bufferPool i) := fun hc => hD ⟨hc.1, hc.2.2⟩
      obtain ⟨t, ht, hu, hp, hdisk⟩ := ih hf
      refine ⟨t, ?_, hu, ?_, ?_⟩
      · rw [forceSlots, bind_of_ok (forceSlot_of_not_forced hnot), ht]
      · intro j
        rw [hp j]
        by_cases hj : j = i
        · subst hj
          by_cases hfd : (s.bufferPool j).fd = fd
          · have hdirty : (s.bufferPool j).dirty = false := by
              simpa [DirtyOf, hfd] using hD
            simp [hdirty]
          · simp [hfd]
        · simp [hj]
      · rw [hdisk, forced, forced, List.filter_cons_of_neg (by simpa using hD)]

/-- A loop that meets no dirty page of `fd` does nothing. -/
theorem forceSlots_of_clean (h : ∀ i ∈ is, ¬ s.DirtyOf fd i) :
    forceSlots fd allPages is s = .ok () s := by
  induction is with
  | nil => rfl
  | cons i is ih =>
    have hnot : ¬ Forced fd allPages (s.bufferPool i) :=
      fun hc => h i List.mem_cons_self ⟨hc.1, hc.2.2⟩
    rw [forceSlots, bind_of_ok (forceSlot_of_not_forced hnot)]
    exact ih fun j hj => h j (List.mem_cons_of_mem _ hj)

/-- On a descriptor that is not open the loop returns only if it has nothing to write. -/
theorem clean_of_closed {u : Unit} (hd : s.disk fd = none)
    (h : forceSlots fd allPages is s = .ok u t) : ∀ i ∈ is, ¬ s.DirtyOf fd i := by
  induction is with
  | nil => simp
  | cons i is ih =>
    obtain ⟨_, v, hi, hrest⟩ := bind_ok_iff.mp h
    obtain ⟨hnot, rfl⟩ | ⟨-, d, hput, -⟩ := forceSlot_ok hi
    · intro j hj hdirty
      rcases List.mem_cons.mp hj with rfl | hj
      · exact hnot ⟨hdirty.1, Or.inr rfl, hdirty.2⟩
      · exact ih hrest j hj hdirty
    · obtain ⟨f, hf, -⟩ := putPage_eq_some.mp hput
      simp [hd] at hf

theorem forced_eq_nil (h : ∀ i ∈ is, ¬ s.DirtyOf fd i) : s.forced fd is = [] := by
  have : is.filter (fun i => s.DirtyOf fd i) = [] := by simpa using h
  simp [forced, this]

theorem page_congr_of_get? {d d' : Disk} {f f' : ByteFile} (hd : d fd = some f)
    (hd' : d' fd = some f') (h : ∀ i, f'.get? i = f.get? i) (page : ℤ) :
    d'.page fd page = (d.page fd page : Option (Block n)) := by
  simp only [Disk.page, hd, hd']
  split
  · rfl
  · exact ByteFile.block_congr h

/-- The slots of the pages of `fd` that are in the pool. -/
def CachedOf (s : BufferManager n) (fd : ℤ) (i : ℕ) : Prop :=
  i ∈ s.usedList.toList ∧ (s.bufferPool i).fd = fd

/-- Byte `off` belongs to the place of a dirty page of `fd`. -/
def InDirtyPage (s : BufferManager n) (fd : ℤ) (off : ℕ) : Prop :=
  ∃ i ∈ s.usedList.toList, s.DirtyOf fd i ∧ pageOffset n (s.bufferPool i).page ≤ off ∧
    (off : ℤ) < pageOffset n (s.bufferPool i).page + n

/-- What forcing all pages of a file should do: the call returns, every dirty page is in its own
place and clean, no other byte of any file has changed, nor the header block, and every cached
page of the file equals its copy on disk. -/
def ForcesAll (s : BufferManager n) (fd : ℤ) : Prop :=
  ∃ t, forcePage fd allPages s = .ok () t ∧
    (∀ i ∈ s.usedList.toList, s.DirtyOf fd i → (t.bufferPool i).dirty = false ∧
      t.disk.page fd (s.bufferPool i).page = some (s.bufferPool i).data) ∧
    (∀ fd' off b, s.disk.byte fd' off = some b → ¬ (fd' = fd ∧ s.InDirtyPage fd off) →
      t.disk.byte fd' off = some b) ∧
    (∀ off < 4096, t.disk.byte fd off = s.disk.byte fd off) ∧
    ∀ i, t.CachedOf fd i → t.disk.page fd (t.bufferPool i).page = some (t.bufferPool i).data

/-- Every cached page of `fd` equals its copy on disk already, and the last dirty one in the used
list, if there is one, has exactly the bytes of the header block. -/
def NothingToForce (s : BufferManager n) (fd : ℤ) : Prop :=
  (∀ i, s.CachedOf fd i → s.disk.page fd (s.bufferPool i).page = some (s.bufferPool i).data) ∧
  ∀ i, (s.forced fd s.usedList.toList).getLast? = some i →
    s.disk.page fd allPages = some (s.bufferPool i).data

section Header

variable {s : BufferManager 4096} {t : BufferManager 4096}

/-- On an open file the call returns; it writes the header block alone, and that block is as
before exactly when the last page written had its bytes. -/
theorem forcePage_allPages (hf : s.disk fd = some f) :
    ∃ t g, forcePage fd allPages s = .ok () t ∧ t.usedList = s.usedList ∧
      (∀ i, t.bufferPool i = { s.bufferPool i with
        dirty := (s.bufferPool i).dirty &&
          !decide (i ∈ s.usedList.toList ∧ (s.bufferPool i).fd = fd) }) ∧
      t.disk = Function.update s.disk fd (some g) ∧
      (∀ i, 4096 ≤ i → g.get? i = f.get? i) ∧
      ((∀ i < 4096, g.get? i = f.get? i) ↔
        ∀ j, (s.forced fd s.usedList.toList).getLast? = some j →
          s.disk.page fd allPages = some (s.bufferPool j).data) := by
  have ho : pageOffset 4096 allPages = 0 := by decide
  obtain ⟨t, ht, hu, hp, hd⟩ := forceSlots_all s.usedList.toList ho.ge hf
  obtain ⟨habove, hhead⟩ := ByteFile.foldl_write_zero_same (by decide)
    (fun i => (s.bufferPool i).data) (s.forced fd s.usedList.toList) f
  have hpage : s.disk.page fd allPages = f.block 0 4096 := by
    simp [Disk.page, hf, ho]
  refine ⟨t, _, ht, hu, hp, ?_, habove, ?_⟩
  · simpa [ho] using hd
  · rw [hpage]
    exact hhead

/-- Only a file that needs no forcing is forced as a whole. -/
theorem nothingToForce_of_forcesAll (h : s.ForcesAll fd) : s.NothingToForce fd := by
  obtain ⟨t, ht, -, -, hhead, hcached⟩ := h
  cases hf : s.disk fd with
  | none =>
    have hclean := clean_of_closed hf ht
    obtain rfl : s = t := by
      have := (forceSlots_of_clean hclean).symm.trans ht
      injection this
    refine ⟨hcached, ?_⟩
    simp [forced_eq_nil hclean]
  | some f =>
    obtain ⟨t', g, ht', hu, hp, hd, habove, hiff⟩ := forcePage_allPages hf
    obtain rfl : t' = t := by
      have := ht'.symm.trans ht
      injection this
    have hg : t'.disk fd = some g := by rw [hd, Function.update_self]
    have hbelow : ∀ i < 4096, g.get? i = f.get? i := by
      intro i hi
      simpa [Disk.byte, hf, hg] using hhead i hi
    have hsame : ∀ i, g.get? i = f.get? i := by
      intro i
      by_cases hi : i < 4096
      · exact hbelow i hi
      · exact habove i (by omega)
    refine ⟨?_, hiff.mp hbelow⟩
    rintro i ⟨hi, hfd⟩
    have := hcached i ⟨by rw [hu]; exact hi, by rw [hp]; exact hfd⟩
    rw [page_congr_of_get? hf hg hsame, hp i] at this
    exact this

theorem forcesAll_of_nothingToForce (h : s.NothingToForce fd) : s.ForcesAll fd := by
  obtain ⟨hcached, hlast⟩ := h
  cases hf : s.disk fd with
  | none =>
    have hclean : ∀ i ∈ s.usedList.toList, ¬ s.DirtyOf fd i := by
      intro i hi hd
      have := hcached i ⟨hi, hd.1⟩
      simp [Disk.page, hf] at this
    refine ⟨s, forceSlots_of_clean hclean, ?_, fun _ _ _ hb _ => hb, fun _ _ => rfl, hcached⟩
    intro i hi hd
    exact absurd hd (hclean i hi)
  | some f =>
    obtain ⟨t, g, ht, hu, hp, hd, habove, hiff⟩ := forcePage_allPages hf
    have hg : t.disk fd = some g := by rw [hd, Function.update_self]
    have hsame : ∀ i, g.get? i = f.get? i := by
      intro i
      by_cases hi : i < 4096
      · exact hiff.mpr hlast i hi
      · exact habove i (by omega)
    have hbyte : ∀ fd' off, t.disk.byte fd' off = s.disk.byte fd' off := by
      intro fd' off
      by_cases he : fd' = fd
      · subst he
        simpa [Disk.byte, hf, hg] using hsame off
      · simp [Disk.byte, hd, Function.update_of_ne he]
    refine ⟨t, ht, ?_, ?_, fun off _ => hbyte fd off, ?_⟩
    · intro i hi hdirty
      refine ⟨by simp [hp i, hi, hdirty.1], ?_⟩
      rw [page_congr_of_get? hf hg hsame]
      exact hcached i ⟨hi, hdirty.1⟩
    · intro fd' off b hb _
      rw [hbyte]
      exact hb
    · rintro i ⟨hi, hfd⟩
      rw [page_congr_of_get? hf hg hsame, hp i]
      exact hcached i ⟨by rw [← hu]; exact hi, by rw [hp] at hfd; exact hfd⟩

/-- Forcing all pages of a file does what it should exactly when there is nothing to do. -/
theorem forcesAll_iff_nothingToForce (s : BufferManager 4096) (fd : ℤ) :
    s.ForcesAll fd ↔ s.NothingToForce fd :=
  ⟨nothingToForce_of_forcesAll, forcesAll_of_nothingToForce⟩

/-- A pool of one buffer over a file with a header block of ones and a page of zeros. -/
def headedPool : BufferManager 4096 :=
  new 1 (fun _ => ⟨false, 0, 0, fun _ => 0, 0⟩) fun _ =>
    some ⟨2 * 4096, fun i => if i < 4096 then 1 else 0⟩

/-- One page read and marked dirty: forcing the file overwrites the header block with it. -/
theorem force_all_overwrites_header : ∃ s : BufferManager 4096,
    MTr (fun s c t => step s c = some t) headedPool [.getPage 3 0 true, .markDirty 3 0] s ∧
    s.disk.byte 3 0 = some 1 ∧ (after (forcePage 3 allPages) s).disk.byte 3 0 = some 0 ∧
    ¬ s.ForcesAll 3 := by
  have h : (exec step headedPool [.getPage 3 0 true, .markDirty 3 0]).any (fun s =>
      s.disk.byte 3 0 = some 1 ∧
        (after (forcePage 3 allPages) s).disk.byte 3 0 = some 0) = true := by
    decide +kernel
  obtain ⟨s, hs, hp⟩ := exists_mTr_of_exec h
  obtain ⟨hbefore, hafter⟩ := of_decide_eq_true hp
  refine ⟨s, hs, hbefore, hafter, ?_⟩
  rintro ⟨t, ht, -, -, hhead, -⟩
  have hkept := hhead 0 (by decide)
  simp only [after, ht] at hafter
  rw [hafter, hbefore] at hkept
  simp at hkept

end Header

end BufferManager

end AlphaDb.Io
