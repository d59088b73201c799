import AlphaDb.Io.SlotOwnership

/-! The pool seen as a cache: which pages are held, with which entry, over which disk. Slots,
lists and buckets disappear; every call of an owned pool is one of a few moves of the cache. -/
namespace AlphaDb.Io

/-- A page of a file, by descriptor and number. -/
abbrev PageId := ℤ × ℤ

@[ext] structure Cache (n : ℕ) where
  entry : PageId → Option (BufferEntry n)
  disk : Disk

namespace Cache

variable {n : ℕ} {c c' : Cache n} {k : PageId} {en : BufferEntry n} {d d' : Disk}

/-- An entry carries the page it is held under. -/
def Keyed (c : Cache n) : Prop := ∀ k en, c.entry k = some en → (en.fd, en.page) = k

def set (c : Cache n) (k : PageId) (en : BufferEntry n) : Cache n :=
  { c with entry := Function.update c.entry k (some en) }

def drop (c : Cache n) (k : PageId) (d : Disk) : Cache n :=
  ⟨Function.update c.entry k none, d⟩

/-- Room for a page: either there is some, or an unpinned page is written back and dropped. -/
inductive Evict : Cache n → Cache n → Prop
  | keep (c : Cache n) : Evict c c
  | drop {c : Cache n} {k : PageId} {en : BufferEntry n} {d : Disk} : c.entry k = some en →
      en.pin ≤ 0 → BufferManager.WroteBack c.disk en d → Evict c (c.drop k d)

/-- One entry written to its page and marked clean. -/
inductive Sync : Cache n → Cache n → Prop
  | write {c : Cache n} {k : PageId} {en : BufferEntry n} {d : Disk} : c.entry k = some en →
      c.disk.putPage k.1 k.2 en.data = some d →
      Sync c (Cache.set ⟨c.entry, d⟩ k { en with dirty := false })

theorem Evict.entry_none (h : Evict c c') (hk : c.entry k = none) : c'.entry k = none := by
  cases h with
  | keep => exact hk
  | @drop k' en d hk' hp hw =>
    by_cases he : k = k'
    · subst he; simp [Cache.drop]
    · simpa [Cache.drop, Function.update, he] using hk

theorem Evict.entry_some (h : Evict c c') (hk : c'.entry k = some en) : c.entry k = some en := by
  cases h with
  | keep => exact hk
  | @drop k' en d hk' hp hw =>
    by_cases he : k = k'
    · subst he; simp [Cache.drop] at hk
    · simpa [Cache.drop, Function.update, he] using hk

theorem Evict.pinned (h : Evict c c') (hk : c.entry k = some en) (hp : 0 < en.pin) :
    c'.entry k = some en := by
  cases h with
  | keep => exact hk
  | @drop k' en' d hk' hp' hw =>
    have he : k ≠ k' := by
      rintro rfl
      rw [hk] at hk'
      have := Option.some.inj hk'
      subst this
      omega
    simpa [Cache.drop, Function.update, he] using hk

end Cache

namespace BufferManager

open EStateM

variable {n : ℕ} {s t : BufferManager n} {fd page : ℤ} {slot i : ℕ} {e : Error} {u : Unit}

/-- The cache a pool implements. -/
def cache (s : BufferManager n) : Cache n where
  entry k := (s.hashTable.find k.1 k.2).map s.bufferPool
  disk := s.disk

@[simp] theorem cache_disk : s.cache.disk = s.disk := rfl

theorem cache_entry_eq_some {k : PageId} {en : BufferEntry n} :
    s.cache.entry k = some en ↔ ∃ i, s.hashTable.find k.1 k.2 = some i ∧ s.bufferPool i = en := by
  simp [cache]

theorem cache_entry_eq_none {k : PageId} :
    s.cache.entry k = none ↔ s.hashTable.find k.1 k.2 = none := by
  simp [cache]

theorem cache_keyed {hole : Option ℕ} (h : Named hole s) : s.cache.Keyed := by
  rintro ⟨fd, page⟩ en hk
  obtain ⟨i, hi, rfl⟩ := cache_entry_eq_some.mp hk
  obtain ⟨-, -, hfd, hpage⟩ := h fd page i hi
  rw [hfd, hpage]

@[simp] theorem cache_touch : (s.touch slot).cache = s.cache := by simp [cache]

/-- Changing the entry of a page changes that page alone. -/
theorem cache_setEntry (h : Named none s) (hf : s.hashTable.find fd page = some slot)
    (en : BufferEntry n) : (s.setEntry slot en).cache = s.cache.set (fd, page) en := by
  refine Cache.ext (funext fun k => ?_) rfl
  simp only [cache, Cache.set]
  obtain ⟨-, -, hfd, hpage⟩ := h fd page slot hf
  by_cases hk : k = (fd, page)
  · subst hk
    simp [BufferManager.setEntry, hf]
  · simp only [Function.update_of_ne hk, BufferManager.setEntry]
    cases hk' : s.hashTable.find k.1 k.2 with
    | none => rfl
    | some j =>
      have hj : j ≠ slot := by
        rintro rfl
        obtain ⟨-, -, hfd', hpage'⟩ := h k.1 k.2 j hk'
        exact hk (Prod.ext (hfd'.symm.trans hfd) (hpage'.symm.trans hpage))
      simp [Function.update_of_ne hj]

/-- Forgetting the page of a used slot. -/
theorem cache_hashRemove (s : BufferManager n) (fd page : ℤ) (d : Disk) :
    ({ s with disk := d }.hashRemove fd page).cache = s.cache.drop (fd, page) d := by
  refine Cache.ext (funext fun k => ?_) rfl
  simp only [cache, Cache.drop, BufferManager.hashRemove]
  by_cases hk : k = (fd, page)
  · subst hk
    simp [HashTable.find_remove_self]
  · rw [Function.update_of_ne hk, HashTable.find_remove_of_ne hk]

/-- A victim's slot in front of the list, its page dropped. -/
theorem cache_evicted : (((({ s with disk := d }.hashRemove (s.bufferPool slot).fd
    (s.bufferPool slot).page).remove slot).insertUsed slot)).cache =
      s.cache.drop ((s.bufferPool slot).fd, (s.bufferPool slot).page) d := by
  rw [← cache_hashRemove]
  exact cache_touch

theorem internalAlloc_cache (h : OwnedBut none s) (ha : internalAlloc s = .ok slot t) :
    Cache.Evict s.cache t.cache := by
  obtain ⟨rest, -, rfl⟩ | ⟨-, hv, d, hd, rfl⟩ := internalAlloc_ok ha
  · exact .keep _
  · obtain ⟨hu, hp⟩ := victim_used hv
    rw [cache_evicted]
    refine .drop (cache_entry_eq_some.mpr ⟨slot, ?_, rfl⟩) hp.le hd
    exact (h.hash _ _ slot).mpr ⟨hu, by simp, rfl, rfl⟩

/-- No page sees the slot of the hole. -/
theorem cache_setHole (h : Named (some slot) s) (en : BufferEntry n) :
    (s.setEntry slot en).cache = s.cache := by
  refine Cache.ext (funext fun k => ?_) rfl
  simp only [cache, BufferManager.setEntry]
  cases hk : s.hashTable.find k.1 k.2 with
  | none => rfl
  | some j =>
    have hj : j ≠ slot := by
      rintro rfl
      exact (h k.1 k.2 j hk).2.1 rfl
    simp [Function.update_of_ne hj]

/-- Putting a page into the slot of the hole adds that page alone. -/
theorem cache_install (h : Named (some slot) s) (hf : s.hashTable.find fd page = none) :
    (s.install fd page slot).cache =
      s.cache.set (fd, page) ⟨false, fd, page, (s.bufferPool slot).data, 1⟩ := by
  refine Cache.ext (funext fun k => ?_) rfl
  simp only [cache, Cache.set, install, BufferManager.initPageInfo, BufferManager.hashInsert,
    BufferManager.setEntry]
  by_cases hk : k = (fd, page)
  · subst hk
    simp [HashTable.find_insert_self hf]
  · rw [Function.update_of_ne hk, HashTable.find_insert_of_ne hk]
    cases hk' : s.hashTable.find k.1 k.2 with
    | none => rfl
    | some j =>
      have hj : j ≠ slot := by
        rintro rfl
        exact (h k.1 k.2 j hk').2.1 rfl
      simp [Function.update_of_ne hj]

/-- A hit pins the page; a miss makes room and reads the page from disk. The slot holds the entry of
the page. -/
def HitOrRead (fd page : ℤ) (slot : ℕ) (s t : BufferManager n) : Prop :=
  (∃ en, s.cache.entry (fd, page) = some en ∧
    t.cache = s.cache.set (fd, page) { en with pin := en.pin + 1 } ∧
    t.bufferPool slot = { en with pin := en.pin + 1 }) ∨
  (s.cache.entry (fd, page) = none ∧ ∃ c b, Cache.Evict s.cache c ∧
    c.disk.page fd page = some b ∧ t.cache = c.set (fd, page) ⟨false, fd, page, b, 1⟩ ∧
    t.bufferPool slot = ⟨false, fd, page, b, 1⟩)

theorem Named.getPage_cache {mp : Bool} (hn : 0 < n) (h : Named none s)
    (halloc : ∀ slot v, internalAlloc s = .ok slot v →
      Named (some slot) v ∧ Cache.Evict s.cache v.cache)
    (hg : getPage fd page mp s = .ok slot t) : HitOrRead fd page slot s t := by
  obtain ⟨hf, -, rfl⟩ | ⟨hf, v, w, ha, hr, rfl⟩ := getPage_ok hg
  · left
    refine ⟨s.bufferPool slot, cache_entry_eq_some.mpr ⟨slot, hf, rfl⟩, ?_, ?_⟩
    · rw [cache_touch, cache_setEntry h hf]
    · simp [BufferManager.setEntry]
  · right
    obtain ⟨hv, hev⟩ := halloc slot v ha
    have hfv := find_internalAlloc ha hf
    obtain ⟨f, hd, ho, hav, rfl⟩ := readPage_ok.mp hr
    refine ⟨cache_entry_eq_none.mpr hf, v.cache,
      f.readInto (pageOffset n page).toNat (v.bufferPool slot).data, hev, ?_, ?_, ?_⟩
    · simp only [cache_disk, Disk.page, hd, not_lt.mpr ho, if_false]
      exact ByteFile.block_of_readInto hav hn
    · rw [cache_install (hv.setHole _) hfv, cache_setHole hv]
      simp [BufferManager.setEntry]
    · simp [install, BufferManager.initPageInfo, BufferManager.hashInsert,
        BufferManager.setEntry]

/-- A new page gets whatever its slot held before. -/
theorem allocatePage_of_named {r : Option ℕ} (halloc : ∀ slot v, internalAlloc s = .ok slot v →
      Named (some slot) v ∧ Cache.Evict s.cache v.cache)
    (ha : allocatePage fd page s = .ok r t) :
    (r = none ∧ t = s ∧ s.cache.entry (fd, page) ≠ none) ∨
    (s.cache.entry (fd, page) = none ∧ ∃ c b slot, r = some slot ∧ Cache.Evict s.cache c ∧
      t.cache = c.set (fd, page) ⟨false, fd, page, b, 1⟩ ∧
      t.bufferPool slot = ⟨false, fd, page, b, 1⟩) := by
  obtain ⟨i, hf, rfl, rfl⟩ | ⟨hf, slot, v, rfl, hv, rfl⟩ := allocatePage_ok ha
  · left
    exact ⟨rfl, rfl, by simp [cache, hf]⟩
  · right
    obtain ⟨ho, hev⟩ := halloc slot v hv
    refine ⟨cache_entry_eq_none.mpr hf, v.cache, (v.bufferPool slot).data, slot, rfl, hev,
      cache_install ho (find_internalAlloc hv hf), ?_⟩
    simp [install, BufferManager.initPageInfo, BufferManager.hashInsert, BufferManager.setEntry]

theorem Named.markDirty_cache (h : Named none s) (hm : markDirty fd page s = .ok u t) :
    ∃ en, s.cache.entry (fd, page) = some en ∧
      t.cache = s.cache.set (fd, page) { en with dirty := true } := by
  obtain ⟨slot, hf, rfl⟩ := markDirty_ok hm
  refine ⟨s.bufferPool slot, cache_entry_eq_some.mpr ⟨slot, hf, rfl⟩, ?_⟩
  rw [cache_touch, cache_setEntry h hf]

theorem Named.unpinPage_cache (h : Named none s) (hp : unpinPage fd page s = .ok u t) :
    ∃ en, s.cache.entry (fd, page) = some en ∧ en.pin ≠ 0 ∧
      t.cache = s.cache.set (fd, page) { en with pin := en.pin - 1 } := by
  obtain ⟨slot, hf, hpin, rfl⟩ := unpinPage_ok hp
  refine ⟨s.bufferPool slot, cache_entry_eq_some.mpr ⟨slot, hf, rfl⟩, hpin, ?_⟩
  split
  · rw [cache_touch, cache_setEntry h hf]
  · rw [cache_setEntry h hf]

theorem internalAlloc_named (h : Owned s) (ha : internalAlloc s = .ok slot t) :
    Named (some slot) t ∧ Cache.Evict s.cache t.cache :=
  ⟨(internalAlloc_owned (owned_iff.mp h) ha).1.named, internalAlloc_cache (owned_iff.mp h) ha⟩

theorem getPage_cache {mp : Bool} (hn : 0 < n) (h : Owned s)
    (hg : getPage fd page mp s = .ok slot t) : HitOrRead fd page slot s t :=
  (owned_iff.mp h).named.getPage_cache hn (fun _ _ => internalAlloc_named h) hg

theorem allocatePage_cache {r : Option ℕ} (h : Owned s)
    (ha : allocatePage fd page s = .ok r t) :
    (r = none ∧ t = s ∧ s.cache.entry (fd, page) ≠ none) ∨
    (s.cache.entry (fd, page) = none ∧ ∃ c b slot, r = some slot ∧ Cache.Evict s.cache c ∧
      t.cache = c.set (fd, page) ⟨false, fd, page, b, 1⟩ ∧
      t.bufferPool slot = ⟨false, fd, page, b, 1⟩) :=
  allocatePage_of_named (fun _ _ => internalAlloc_named h) ha

theorem markDirty_cache (h : Owned s) (hm : markDirty fd page s = .ok u t) :
    ∃ en, s.cache.entry (fd, page) = some en ∧
      t.cache = s.cache.set (fd, page) { en with dirty := true } :=
  (owned_iff.mp h).named.markDirty_cache hm

theorem unpinPage_cache (h : Owned s) (hp : unpinPage fd page s = .ok u t) :
    ∃ en, s.cache.entry (fd, page) = some en ∧ en.pin ≠ 0 ∧
      t.cache = s.cache.set (fd, page) { en with pin := en.pin - 1 } :=
  (owned_iff.mp h).named.unpinPage_cache hp

theorem used_cached (h : OwnedBut none s) (hu : i ∈ s.usedList.toList) :
    s.hashTable.find (s.bufferPool i).fd (s.bufferPool i).page = some i :=
  (h.hash _ _ i).mpr ⟨hu, by simp, rfl, rfl⟩

/-- Forcing one page number writes only entries of that page. -/
theorem forceSlots_cache {is : List ℕ} (hpage : page ≠ -1) (h : Owned s)
    (hu : ∀ i ∈ is, i ∈ s.usedList.toList) (hf : forceSlots fd page is s = .ok u t) :
    Relation.ReflTransGen Cache.Sync s.cache t.cache := by
  induction is generalizing s with
  | nil =>
    obtain ⟨-, rfl⟩ := pure_ok_iff.mp hf
    exact .refl
  | cons i is ih =>
    obtain ⟨_, v, hi, hrest⟩ := bind_ok_iff.mp hf
    obtain ⟨-, rfl⟩ | ⟨⟨hfd, hp, -⟩, d, hd, rfl⟩ := forceSlot_ok hi
    · exact ih h (fun j hj => hu j (List.mem_cons_of_mem _ hj)) hrest
    · have hp : (s.bufferPool i).page = page := by
        rcases hp with hp | hp
        · exact hp
        · exact absurd hp hpage
      have hi' := used_cached (owned_iff.mp h) (hu i (by simp))
      rw [hfd, hp] at hi'
      have hod := (owned_iff.mp h).setDisk d
      have hc := cache_setEntry hod.named hi' { s.bufferPool i with dirty := false }
      have hsync : Cache.Sync s.cache
          (({ s with disk := d }.setEntry i { s.bufferPool i with dirty := false }).cache) := by
        rw [hc]
        exact .write (cache_entry_eq_some.mpr ⟨i, hi', rfl⟩) hd
      refine .head hsync (ih (owned_iff.mpr (hod.setEntry rfl rfl)) ?_ hrest)
      exact fun j hj => hu j (List.mem_cons_of_mem _ hj)

theorem forcePage_cache (hpage : page ≠ -1) (h : Owned s) (hf : forcePage fd page s = .ok u t) :
    Relation.ReflTransGen Cache.Sync s.cache t.cache := by
  replace hf := get_bind_ok_iff.mp hf
  exact forceSlots_cache hpage h (fun i hi => hi) hf

/-- Releasing a slot drops the page it carries. -/
theorem release_cache (h : Named none s) (d : Disk) :
    (s.release i d).cache =
      s.cache.drop ((s.bufferPool i).fd, (s.bufferPool i).page) d := by
  refine Cache.ext (funext fun k => ?_) (by simp [Cache.drop])
  simp only [cache, Cache.drop, release_bufferPool, release_hashTable]
  by_cases hk : k = ((s.bufferPool i).fd, (s.bufferPool i).page)
  · subst hk
    simp [HashTable.find_remove_self]
  · rw [Function.update_of_ne hk, HashTable.find_remove_of_ne hk]
    cases hk' : s.hashTable.find k.1 k.2 with
    | none => rfl
    | some j =>
      have hj : j ≠ i := by
        rintro rfl
        obtain ⟨-, -, hfd, hpage⟩ := h k.1 k.2 j hk'
        exact hk (Prod.ext hfd.symm hpage.symm)
      simp [Function.update_of_ne hj]

theorem release_used (h : OwnedBut none s) (hu : i ∈ s.usedList.toList) (d : Disk) :
    s.usedList.toList.Perm (i :: (s.release i d).usedList.toList) := by
  have hm : Mapped (({ s with disk := d }.setEntry i { s.bufferPool i with
      dirty := false }).hashRemove (s.bufferPool i).fd (s.bufferPool i).page) := h.map
  exact (remove_used hm hu).1

/-- What a flush that returns has done: pages were dropped one by one, entries kept what they
carry, and no slot of the list that carries `fd` is in use any more. -/
theorem flushSlots_cache {is : List ℕ} (h : Owned s) (hnd : is.Nodup)
    (hlt : ∀ i ∈ is, i < s.poolSize) (hr : ∀ i ∈ s.reached fd is, i ∉ s.freeList)
    (hf : flushSlots fd is s = .ok u t) :
    Relation.ReflTransGen Cache.Evict s.cache t.cache ∧
      (∀ j ∈ t.usedList.toList, j ∈ s.usedList.toList) ∧
      (∀ j, (t.bufferPool j).fd = (s.bufferPool j).fd) ∧
      ∀ i ∈ is, i ∈ t.usedList.toList → (t.bufferPool i).fd ≠ fd := by
  induction is generalizing s with
  | nil =>
    obtain ⟨-, rfl⟩ := pure_ok_iff.mp hf
    exact ⟨.refl, fun j hj => hj, fun j => rfl, by simp⟩
  | cons i is ih =>
    obtain ⟨_, v, hx, hrest⟩ := bind_ok_iff.mp hf
    have hlt' : ∀ j ∈ is, j < s.poolSize := fun j hj => hlt j (List.mem_cons_of_mem _ hj)
    obtain ⟨hfd, rfl⟩ | ⟨hfd, hpin, d, hd, rfl⟩ := flushSlot_ok hx
    · obtain ⟨hc, hu, hp, hno⟩ := ih h hnd.of_cons hlt' (by simpa [reached, hfd] using hr) hrest
      refine ⟨hc, hu, hp, ?_⟩
      intro j hj hjt
      rcases List.mem_cons.mp hj with rfl | hj
      · rw [hp j]
        exact hfd
      · exact hno j hj hjt
    · have ho := owned_iff.mp h
      obtain ⟨hu, hr'⟩ := reached_cons h.slots hnd hlt hr hfd hpin d
      have hrel := release_used ho hu d
      obtain ⟨hc, hu', hp, hno⟩ := ih (owned_iff.mpr (release_owned ho hu d))
        hnd.of_cons        (by simpa using hlt') hr' hrest
      refine ⟨.head ?_ hc, ?_, ?_, ?_⟩
      · rw [release_cache ho.named]
        exact .drop (cache_entry_eq_some.mpr ⟨i, used_cached ho hu, rfl⟩) hpin hd
      · exact fun j hj => hrel.mem_iff.mpr (List.mem_cons_of_mem _ (hu' j hj))
      · intro j
        rw [hp j]
        by_cases hj : j = i
        · subst hj; simp
        · simp [Function.update, hj]
      · intro j hj hjt
        rcases List.mem_cons.mp hj with rfl | hj
        · have hnd' := hrel.nodup_iff.mp (mapped_nodup ho.map)
          exact absurd (hu' j hjt) (List.nodup_cons.mp hnd').1
        · exact hno j hj hjt

/-- A flush that returns leaves no page of the descriptor in the pool. -/
theorem flushPages_cache (h : Owned s)
    (hr : ∀ i ∈ s.reached fd (List.range s.poolSize), i ∉ s.freeList)
    (hf : flushPages fd s = .ok u t) :
    Relation.ReflTransGen Cache.Evict s.cache t.cache ∧ Owned t ∧
      ∀ page, t.cache.entry (fd, page) = none := by
  have hx := get_bind_ok_iff.mp hf
  have hlt : ∀ i ∈ List.range s.poolSize, i < s.poolSize := fun i hi => List.mem_range.mp hi
  obtain ⟨hc, hu, hp, hno⟩ := flushSlots_cache h List.nodup_range hlt hr hx
  have ho := flushSlots_owned h List.nodup_range hlt hr
  simp only [after, hx] at ho
  refine ⟨hc, ho, ?_⟩
  intro page
  rw [cache_entry_eq_none]
  by_contra hne
  obtain ⟨i, hi⟩ := Option.ne_none_iff_exists'.mp hne
  obtain ⟨hit, hfd, -⟩ := (ho.hash fd page i).mp hi
  have hm := h.slots.mem_iff.mp (List.mem_append_right _ (hu i hit))
  exact hno i hm hit hfd

end BufferManager

end AlphaDb.Io
