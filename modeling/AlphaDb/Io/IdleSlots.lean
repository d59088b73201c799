import AlphaDb.Io.Eviction

/-! Slots that a failed read leaves behind: in use, but without a page. As long as they are clean,
have no pins and share no page with another slot, they are room like any other. -/
namespace AlphaDb.Io.BufferManager

open EStateM

variable {n : ℕ} {s t : BufferManager n} {fd page : ℤ} {slot i : ℕ} {e : Error} {u : Unit}
  {hole : Option ℕ} {d : Disk}

/-- A slot in use that no page of the table is in. -/
def Idle (s : BufferManager n) (i : ℕ) : Prop :=
  i ∈ s.usedList.toList ∧ ∀ fd page, s.hashTable.find fd page ≠ some i

/-- Nothing to write back, no pins, and the page that the slot names is in no other slot. -/
def Spare (s : BufferManager n) (i : ℕ) : Prop :=
  (s.bufferPool i).dirty = false ∧ (s.bufferPool i).pin = 0 ∧
    (s.hashTable.find (s.bufferPool i).fd (s.bufferPool i).page = none ∨
      s.hashTable.find (s.bufferPool i).fd (s.bufferPool i).page = some i)

instance (s : BufferManager n) (i : ℕ) : Decidable (Spare s i) :=
  inferInstanceAs (Decidable (_ ∧ _))

/-- The slot that is handed out next. -/
def taken (s : BufferManager n) : Option ℕ :=
  match s.freeList with
  | slot :: _ => some slot
  | [] => s.victim

/-- No slot in use names the page, but perhaps the one that it would be put into. -/
def Unnamed (s : BufferManager n) (fd page : ℤ) : Prop :=
  ∀ j ∈ s.usedList.toList, s.taken ≠ some j → s.carried j ≠ (fd, page)

instance (s : BufferManager n) (fd page : ℤ) : Decidable (Unnamed s fd page) :=
  inferInstanceAs (Decidable (∀ _ ∈ _, _))

/-- Slot ownership with idle slots, which are clean, have no pins and name no page of the table. -/
structure OwnedOrIdle (hole : Option ℕ) (s : BufferManager n) : Prop where
  slots : Partitioned s
  map : Mapped s
  named : Named hole s
  idle : ∀ i ∈ s.usedList.toList, hole ≠ some i →
    s.hashTable.find (s.bufferPool i).fd (s.bufferPool i).page = some i ∨
    s.hashTable.find (s.bufferPool i).fd (s.bufferPool i).page = none ∧
      (s.bufferPool i).dirty = false ∧ (s.bufferPool i).pin = 0

theorem OwnedBut.ownedOrIdle (h : OwnedBut hole s) : OwnedOrIdle hole s :=
  ⟨h.slots, h.map, h.named, fun i hi hne => Or.inl ((h.hash _ _ i).mpr ⟨hi, hne, rfl, rfl⟩)⟩

section Slots

theorem OwnedOrIdle.touch (h : OwnedOrIdle hole s) (hu : slot ∈ s.usedList.toList) :
    OwnedOrIdle hole (s.touch slot) := by
  have hp := touch_perm h.map hu
  refine ⟨partitioned_touch h.slots h.map hu, mapped_touch h.map hu, ?_, ?_⟩
  · intro fd page i hf
    rw [touch_hashTable] at hf
    rw [touch_bufferPool, hp.mem_iff]
    exact h.named fd page i hf
  · intro i hi hne
    rw [touch_hashTable, touch_bufferPool]
    exact h.idle i (hp.mem_iff.mp hi) hne

theorem OwnedOrIdle.setDisk (h : OwnedOrIdle hole s) (d : Disk) :
    OwnedOrIdle hole { s with disk := d } := ⟨h.slots, h.map, h.named, h.idle⟩

/-- The entry of a page changes, but not what it carries. -/
theorem OwnedOrIdle.setEntry (h : OwnedOrIdle none s)
    (hf : s.hashTable.find fd page = some slot) {en : BufferEntry n}
    (hfd : en.fd = (s.bufferPool slot).fd) (hpage : en.page = (s.bufferPool slot).page) :
    OwnedOrIdle none (s.setEntry slot en) := by
  obtain ⟨-, -, hfd', hpage'⟩ := h.named fd page slot hf
  refine ⟨h.slots, h.map, ?_, ?_⟩
  · intro fd page i hi
    have := h.named fd page i hi
    by_cases he : i = slot
    · subst he
      simpa [BufferManager.setEntry, hfd, hpage] using this
    · simpa [BufferManager.setEntry, Function.update, he] using this
  · intro i hi hne
    by_cases he : i = slot
    · subst he
      left
      simp only [BufferManager.setEntry, Function.update_self]
      rw [hfd, hpage, hfd', hpage']
      exact hf
    · simpa [BufferManager.setEntry, Function.update, he] using h.idle i hi hne

/-- What a slot of the hole carries does not matter. -/
theorem OwnedOrIdle.setHole (h : OwnedOrIdle (some slot) s) (en : BufferEntry n) :
    OwnedOrIdle (some slot) (s.setEntry slot en) := by
  refine ⟨h.slots, h.map, h.named.setHole en, ?_⟩
  intro i hi hi'
  have hne : i ≠ slot := fun he => hi' (congrArg some he.symm)
  simpa [BufferManager.setEntry, Function.update, hne] using h.idle i hi hi'

/-- Forgetting what a used slot names opens the hole there. -/
theorem OwnedOrIdle.hashRemove (h : OwnedOrIdle none s) (hu : slot ∈ s.usedList.toList) :
    OwnedOrIdle (some slot)
      (s.hashRemove (s.bufferPool slot).fd (s.bufferPool slot).page) := by
  refine ⟨h.slots, h.map, ?_, ?_⟩
  · intro fd page i hi
    simp only [BufferManager.hashRemove] at hi
    have hk : (fd, page) ≠ ((s.bufferPool slot).fd, (s.bufferPool slot).page) := by
      intro hk
      obtain ⟨rfl, rfl⟩ := Prod.mk.inj hk
      rw [HashTable.find_remove_self] at hi
      cases hi
    rw [HashTable.find_remove_of_ne hk] at hi
    obtain ⟨hu', -, rfl, rfl⟩ := h.named fd page i hi
    exact ⟨hu', fun he => hk (by rw [Option.some.inj he]), rfl, rfl⟩
  · intro i hi hne
    simp only [BufferManager.hashRemove]
    rcases h.idle i hi (by simp) with hf | ⟨hf, hrest⟩
    · left
      rw [HashTable.find_remove_of_ne ?_, hf]
      intro hk
      obtain ⟨hfd, hpage⟩ := Prod.mk.inj hk
      rcases h.idle slot hu (by simp) with hs | ⟨hs, -⟩
      · rw [← hfd, ← hpage, hf] at hs
        exact hne hs.symm
      · rw [← hfd, ← hpage, hf] at hs
        cases hs
    · right
      refine ⟨?_, hrest⟩
      by_cases hk : ((s.bufferPool i).fd, (s.bufferPool i).page) =
          ((s.bufferPool slot).fd, (s.bufferPool slot).page)
      · obtain ⟨hfd, hpage⟩ := Prod.mk.inj hk
        rw [hfd, hpage]
        exact HashTable.find_remove_self
      · rw [HashTable.find_remove_of_ne hk, hf]

/-- A page is put into the slot of the hole, and no other slot names it. -/
theorem OwnedOrIdle.install (h : OwnedOrIdle (some slot) s) (hu : slot ∈ s.usedList.toList)
    (hf : s.hashTable.find fd page = none)
    (hn : ∀ j ∈ s.usedList.toList, j ≠ slot → s.carried j ≠ (fd, page)) :
    OwnedOrIdle none (s.install fd page slot) := by
  have hself : (s.hashTable.insert fd page slot).find fd page = some slot :=
    HashTable.find_insert_self hf
  refine ⟨h.slots, h.map, ?_, ?_⟩
  · intro fd' page' i hi
    change (s.hashTable.insert fd page slot).find fd' page' = some i at hi
    change i ∈ s.usedList.toList ∧ none ≠ some i ∧
      (Function.update s.bufferPool slot _ i).fd = fd' ∧
      (Function.update s.bufferPool slot _ i).page = page'
    by_cases hk : (fd', page') = (fd, page)
    · obtain ⟨rfl, rfl⟩ := Prod.mk.inj hk
      obtain rfl := Option.some.inj (hself.symm.trans hi)
      simp [hu]
    · rw [HashTable.find_insert_of_ne hk] at hi
      obtain ⟨hu', hne, hrest⟩ := h.named fd' page' i hi
      have hi' : i ≠ slot := fun he => hne (congrArg some he.symm)
      rw [Function.update_of_ne hi']
      exact ⟨hu', by simp, hrest⟩
  · intro i hi _
    change (s.hashTable.insert fd page slot).find (Function.update s.bufferPool slot _ i).fd
        (Function.update s.bufferPool slot _ i).page = some i ∨
      (s.hashTable.insert fd page slot).find (Function.update s.bufferPool slot _ i).fd
        (Function.update s.bufferPool slot _ i).page = none ∧
        (Function.update s.bufferPool slot _ i).dirty = false ∧
        (Function.update s.bufferPool slot _ i).pin = 0
    by_cases he : i = slot
    · subst he
      left
      simpa using hself
    · rw [Function.update_of_ne he, HashTable.find_insert_of_ne (hn i hi he)]
      exact h.idle i hi fun he' => he (Option.some.inj he').symm

/-- The slot of the hole stays without a page. -/
theorem OwnedOrIdle.abandon (h : OwnedOrIdle (some slot) s)
    (hf : s.hashTable.find (s.bufferPool slot).fd (s.bufferPool slot).page = none)
    (hd : (s.bufferPool slot).dirty = false) (hp : (s.bufferPool slot).pin = 0) :
    OwnedOrIdle none s := by
  refine ⟨h.slots, h.map, ?_, ?_⟩
  · intro fd page i hi
    obtain ⟨hu, -, hrest⟩ := h.named fd page i hi
    exact ⟨hu, by simp, hrest⟩
  · intro i hi _
    by_cases he : i = slot
    · subst he
      exact Or.inr ⟨hf, hd, hp⟩
    · exact h.idle i hi fun he' => he (Option.some.inj he').symm

theorem OwnedOrIdle.toFree (h : OwnedOrIdle (some i) s) (hu : i ∈ s.usedList.toList) :
    OwnedOrIdle none ((s.remove i).insertFree i) := by
  obtain ⟨hp, hm⟩ := remove_used h.map hu
  have hn := not_mem_remove h.map hu
  refine ⟨partitioned_toFree h.slots h.map hu, hm, ?_, ?_⟩
  · intro fd page j hj
    change (s.remove i).hashTable.find fd page = some j at hj
    rw [remove_hashTable] at hj
    obtain ⟨hj', hne, hrest⟩ := h.named fd page j hj
    change j ∈ (s.remove i).usedList.toList ∧ none ≠ some j ∧
      ((s.remove i).bufferPool j).fd = fd ∧ ((s.remove i).bufferPool j).page = page
    rw [remove_bufferPool]
    refine ⟨?_, by simp, hrest⟩
    rcases List.mem_cons.mp (hp.mem_iff.mp hj') with rfl | hj'
    · exact absurd rfl hne
    · exact hj'
  · intro j hj _
    change j ∈ (s.remove i).usedList.toList at hj
    change (s.remove i).hashTable.find ((s.remove i).bufferPool j).fd
        ((s.remove i).bufferPool j).page = some j ∨
      (s.remove i).hashTable.find ((s.remove i).bufferPool j).fd
        ((s.remove i).bufferPool j).page = none ∧
        ((s.remove i).bufferPool j).dirty = false ∧ ((s.remove i).bufferPool j).pin = 0
    rw [remove_hashTable, remove_bufferPool]
    exact h.idle j (hp.mem_iff.mpr (List.mem_cons_of_mem _ hj))
      fun he => hn (Option.some.inj he ▸ hj)

end Slots

section Room

/-- Writing back and dropping what a used slot names; for an idle slot nothing changes. -/
theorem OwnedOrIdle.evict (h : OwnedOrIdle none s) (hu : i ∈ s.usedList.toList)
    (hp : (s.bufferPool i).pin ≤ 0) (hw : WroteBack s.disk (s.bufferPool i) d) :
    Cache.Evict s.cache (s.cache.drop ((s.bufferPool i).fd, (s.bufferPool i).page) d) := by
  rcases h.idle i hu (by simp) with hf | ⟨hf, hclean, -⟩
  · exact .drop (cache_entry_eq_some.mpr ⟨i, hf, rfl⟩) hp hw
  · obtain ⟨-, rfl⟩ | ⟨hdirty, -⟩ := hw
    swap
    · simp [hclean] at hdirty
    have hsame : s.cache.drop ((s.bufferPool i).fd, (s.bufferPool i).page) s.disk = s.cache := by
      refine Cache.ext ?_ rfl
      have hk : s.cache.entry ((s.bufferPool i).fd, (s.bufferPool i).page) = none :=
        cache_entry_eq_none.mpr hf
      rw [Cache.drop, ← hk]
      exact Function.update_eq_self _ _
    rw [hsame]
    exact .keep _

/-- The slot handed out is in use, and at most one page was dropped. -/
theorem internalAlloc_idle (h : OwnedOrIdle none s) (ha : internalAlloc s = .ok slot t) :
    OwnedOrIdle (some slot) t ∧ slot ∈ t.usedList.toList ∧ Cache.Evict s.cache t.cache := by
  obtain ⟨rest, hf, rfl⟩ | ⟨-, hv, d, hd, rfl⟩ := internalAlloc_ok ha
  · have hn : slot ∉ s.usedList.toList := fun hu =>
      used_nodup_free h.slots hu (by simp [hf])
    refine ⟨⟨partitioned_insertUsed h.slots hf, mapped_insertUsed h.map hn, ?_, ?_⟩, by simp,
      .keep _⟩
    · intro fd page i hi
      obtain ⟨hu, -, hrest⟩ := h.named fd page i hi
      exact ⟨List.mem_cons_of_mem _ hu, fun he => hn (Option.some.inj he ▸ hu), hrest⟩
    · intro i hi hne
      rcases List.mem_cons.mp hi with rfl | hi
      · exact absurd rfl hne
      · exact h.idle i hi (by simp)
  · obtain ⟨hu, hp⟩ := victim_used hv
    have hr := (h.setDisk d).hashRemove hu
    refine ⟨hr.touch hu, (touch_perm hr.map hu).mem_iff.mpr hu, ?_⟩
    rw [cache_evicted]
    exact h.evict hu hp.le hd

theorem internalAlloc_taken (ha : internalAlloc s = .ok slot t) : s.taken = some slot := by
  obtain ⟨rest, hf, -⟩ | ⟨hf, hv, -⟩ := internalAlloc_ok ha
  · simp [taken, hf]
  · simp [taken, hf, hv]

theorem Unnamed.alloc (h : s.Unnamed fd page) (ha : internalAlloc s = .ok slot t) :
    ∀ j ∈ t.usedList.toList, j ≠ slot → t.carried j ≠ (fd, page) := by
  obtain ⟨l, hl, hsub, hpool⟩ := internalAlloc_front ha
  intro j hj hne
  rw [hl] at hj
  have hu : j ∈ s.usedList.toList := hsub.mem ((List.mem_cons.mp hj).resolve_left hne)
  have hnot : s.taken ≠ some j := by
    rw [internalAlloc_taken ha]
    exact fun he => hne (Option.some.inj he).symm
  rw [carried, hpool]
  exact h j hu hnot

/-- After a spare slot was handed out, nothing is held under the page it still names. -/
theorem internalAlloc_forgets (h : OwnedOrIdle none s) (hs : s.Spare slot)
    (ha : internalAlloc s = .ok slot t) :
    t.hashTable.find (s.bufferPool slot).fd (s.bufferPool slot).page = none := by
  obtain ⟨rest, hf, rfl⟩ | ⟨-, hv, d, hd, rfl⟩ := internalAlloc_ok ha
  · rcases hs.2.2 with hnone | hsome
    · exact hnone
    · obtain ⟨hu, -⟩ := h.named _ _ slot hsome
      exact absurd (by simp [hf]) (used_nodup_free h.slots hu)
  · simp only [insertUsed_hashTable, remove_hashTable, BufferManager.hashRemove]
    exact HashTable.find_remove_self

/-- Forgetting a page that is not there. -/
theorem find_remove_absent {fd' page' : ℤ} (hf : s.hashTable.find fd page = none) :
    (s.hashTable.remove fd page).find fd' page' = s.hashTable.find fd' page' := by
  by_cases hk : (fd', page') = (fd, page)
  · obtain ⟨rfl, rfl⟩ := Prod.mk.inj hk
    rw [HashTable.find_remove_self, hf]
  · exact HashTable.find_remove_of_ne hk

theorem victim_ne_none (hu : i ∈ s.usedList.toList) (hp : (s.bufferPool i).pin = 0) :
    s.victim ≠ none :=
  fun hv => victim_eq_none_iff.mp hv i hu hp

end Room

section Calls

/-- A hit pins the page; a miss makes room and reads the page into a slot. -/
theorem getPage_entry {mp : Bool} (hn : 0 < n) (h : OwnedOrIdle none s)
    (hg : getPage fd page mp s = .ok slot t) : HitOrRead fd page slot s t := by
  refine h.named.getPage_cache hn (fun slot v ha => ?_) hg
  obtain ⟨hv, -, hev⟩ := internalAlloc_idle h ha
  exact ⟨hv.named, hev⟩

theorem getPage_idle {mp : Bool} (h : OwnedOrIdle none s)
    (hname : s.hashTable.find fd page = none → s.Unnamed fd page)
    (hg : getPage fd page mp s = .ok slot t) : OwnedOrIdle none t := by
  obtain ⟨hf, -, rfl⟩ | ⟨hf, v, w, ha, hr, rfl⟩ := getPage_ok hg
  · exact (h.setEntry hf (by rfl) (by rfl)).touch (h.named _ _ _ hf).1
  · obtain ⟨hv, hu, -⟩ := internalAlloc_idle h ha
    have hfv := find_internalAlloc ha hf
    have hothers := (hname hf).alloc ha
    obtain ⟨f, -, -, -, rfl⟩ := readPage_ok.mp hr
    refine (hv.setHole _).install hu hfv ?_
    intro j hj hne
    simpa [carried, BufferManager.setEntry, Function.update, hne] using hothers j hj hne

theorem allocatePage_idle {r : Option ℕ} (h : OwnedOrIdle none s)
    (hname : s.hashTable.find fd page = none → s.Unnamed fd page)
    (ha : allocatePage fd page s = .ok r t) : OwnedOrIdle none t ∧
    ((r = none ∧ t = s) ∨ ∃ c b slot, r = some slot ∧ Cache.Evict s.cache c ∧
      t.cache = c.set (fd, page) ⟨false, fd, page, b, 1⟩ ∧
      t.bufferPool slot = ⟨false, fd, page, b, 1⟩) := by
  constructor
  · obtain ⟨i, hf, rfl, rfl⟩ | ⟨hf, slot, v, rfl, hv, rfl⟩ := allocatePage_ok ha
    · exact h
    · obtain ⟨ho, hu, -⟩ := internalAlloc_idle h hv
      exact ho.install hu (find_internalAlloc hv hf) ((hname hf).alloc hv)
  · have halloc : ∀ slot v, internalAlloc s = .ok slot v →
        Named (some slot) v ∧ Cache.Evict s.cache v.cache := by
      intro slot v hv
      obtain ⟨ho, -, hev⟩ := internalAlloc_idle h hv
      exact ⟨ho.named, hev⟩
    obtain ⟨rfl, rfl, -⟩ | ⟨-, hnew⟩ := allocatePage_of_named halloc ha
    · exact .inl ⟨rfl, rfl⟩
    · exact .inr hnew

theorem markDirty_idle (h : OwnedOrIdle none s) (hm : markDirty fd page s = .ok u t) :
    OwnedOrIdle none t ∧ ∃ en, s.cache.entry (fd, page) = some en ∧
      t.cache = s.cache.set (fd, page) { en with dirty := true } := by
  refine ⟨?_, h.named.markDirty_cache hm⟩
  obtain ⟨slot, hf, rfl⟩ := markDirty_ok hm
  exact (h.setEntry hf (by rfl) (by rfl)).touch (h.named _ _ _ hf).1

theorem unpinPage_idle (h : OwnedOrIdle none s) (hp : unpinPage fd page s = .ok u t) :
    OwnedOrIdle none t ∧ ∃ en, s.cache.entry (fd, page) = some en ∧
      t.cache = s.cache.set (fd, page) { en with pin := en.pin - 1 } := by
  constructor
  · obtain ⟨slot, hf, -, rfl⟩ := unpinPage_ok hp
    have hset : OwnedOrIdle none (s.setEntry slot { s.bufferPool slot with
        pin := (s.bufferPool slot).pin - 1 }) := h.setEntry hf rfl rfl
    split
    · exact hset.touch (h.named _ _ _ hf).1
    · exact hset
  · obtain ⟨en, hen, -, hc⟩ := h.named.unpinPage_cache hp
    exact ⟨en, hen, hc⟩

/-- Forcing one page number writes entries of that page; an idle slot is clean. -/
theorem forceSlots_idle {is : List ℕ} (hpage : page ≠ -1) (h : OwnedOrIdle none s)
    (hu : ∀ i ∈ is, i ∈ s.usedList.toList) (hf : forceSlots fd page is s = .ok u t) :
    OwnedOrIdle none t ∧ Relation.ReflTransGen Cache.Sync s.cache t.cache := by
  induction is generalizing s with
  | nil =>
    obtain ⟨-, rfl⟩ := pure_ok_iff.mp hf
    exact ⟨h, .refl⟩
  | cons i is ih =>
    have hu' : ∀ j ∈ is, j ∈ s.usedList.toList := fun j hj => hu j (List.mem_cons_of_mem _ hj)
    obtain ⟨_, v, hi, hrest⟩ := bind_ok_iff.mp hf
    obtain ⟨-, rfl⟩ | ⟨⟨hfd, hp, hdirty⟩, d, hd, rfl⟩ := forceSlot_ok hi
    · exact ih h hu' hrest
    · have hp : (s.bufferPool i).page = page := hp.resolve_right hpage
      have hfind : s.hashTable.find fd page = some i := by
        rcases h.idle i (hu i (by simp)) (by simp) with hfind | ⟨-, hclean, -⟩
        · rwa [hfd, hp] at hfind
        · simp [hclean] at hdirty
      have hod := h.setDisk d
      have hc := cache_setEntry hod.named hfind { s.bufferPool i with dirty := false }
      have hsync : Cache.Sync s.cache
          (({ s with disk := d }.setEntry i { s.bufferPool i with dirty := false }).cache) := by
        rw [hc]
        exact .write (cache_entry_eq_some.mpr ⟨i, hfind, rfl⟩) hd
      obtain ⟨ht, hsyncs⟩ := ih (hod.setEntry hfind (by rfl) (by rfl)) hu' hrest
      exact ⟨ht, .head hsync hsyncs⟩

theorem release_idle (h : OwnedOrIdle none s) (hu : i ∈ s.usedList.toList) (d : Disk) :
    OwnedOrIdle none (s.release i d) :=
  (((h.setDisk d).hashRemove hu).setHole { s.bufferPool i with dirty := false }).toFree hu

/-- A flush that frees only used slots, also when it throws half way. -/
theorem flushSlots_idle {is : List ℕ} (h : OwnedOrIdle none s) (hnd : is.Nodup)
    (hlt : ∀ i ∈ is, i < s.poolSize) (hr : ∀ i ∈ s.reached fd is, i ∉ s.freeList) :
    OwnedOrIdle none (after (flushSlots fd is) s) ∧
      Relation.ReflTransGen Cache.Evict s.cache (after (flushSlots fd is) s).cache := by
  refine flushSlots_inv
    (P := fun t => OwnedOrIdle none t ∧ Relation.ReflTransGen Cache.Evict s.cache t.cache)
    (fun t ht => ht.1.slots) ?_ ⟨h, .refl⟩ hnd hlt hr
  rintro t i d ⟨ht, hevs⟩ hu hpin hd
  refine ⟨release_idle ht hu d, hevs.tail ?_⟩
  rw [release_cache ht.named]
  exact ht.evict hu hpin hd

end Calls

end AlphaDb.Io.BufferManager
