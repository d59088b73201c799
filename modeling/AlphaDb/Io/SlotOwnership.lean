import AlphaDb.Lib.Trace
import AlphaDb.Io.BufferInversion

/-! Slot ownership: which list, which iterator and which page-table entry a slot belongs to. -/
namespace AlphaDb.Io.BufferManager

open EStateM

variable {n : ℕ} {s t : BufferManager n} {fd page : ℤ} {slot i : ℕ} {e : Error} {u : Unit}

/-- Every iterator of the map points at the node of its own slot, and every node has one. -/
def Mapped (s : BufferManager n) : Prop :=
  ∀ slot it, s.usedMap slot = some it ↔ (it, slot) ∈ s.usedList.nodes

/-- The page table names exactly the used slots by what they carry, but for the slot `hole`
that is between allocation and `initPageInfo`. -/
def Hashed (hole : Option ℕ) (s : BufferManager n) : Prop :=
  ∀ fd page slot, s.hashTable.find fd page = some slot ↔ slot ∈ s.usedList.toList ∧
    hole ≠ some slot ∧ (s.bufferPool slot).fd = fd ∧ (s.bufferPool slot).page = page

/-- Every page in the table is in a used slot that carries it. -/
def Named (hole : Option ℕ) (s : BufferManager n) : Prop :=
  ∀ fd page slot, s.hashTable.find fd page = some slot → slot ∈ s.usedList.toList ∧
    hole ≠ some slot ∧ (s.bufferPool slot).fd = fd ∧ (s.bufferPool slot).page = page

/-- Free and used list together are all slots, each once. -/
def Partitioned (s : BufferManager n) : Prop :=
  (s.freeList ++ s.usedList.toList).Perm (List.range s.poolSize)

/-- The three lists agree while `hole` is being filled. -/
structure OwnedBut (hole : Option ℕ) (s : BufferManager n) : Prop where
  slots : Partitioned s
  map : Mapped s
  hash : Hashed hole s

theorem OwnedBut.named {hole : Option ℕ} (h : OwnedBut hole s) : Named hole s :=
  fun fd page slot => (h.hash fd page slot).mp

/-- Slot ownership between two calls. -/
structure Owned (s : BufferManager n) : Prop where
  slots : (s.freeList ++ s.usedList.toList).Perm (List.range s.poolSize)
  map : ∀ slot it, s.usedMap slot = some it ↔ (it, slot) ∈ s.usedList.nodes
  hash : ∀ fd page slot, s.hashTable.find fd page = some slot ↔ slot ∈ s.usedList.toList ∧
    (s.bufferPool slot).fd = fd ∧ (s.bufferPool slot).page = page

theorem owned_iff : Owned s ↔ OwnedBut none s := by
  constructor
  · intro h
    exact ⟨h.slots, h.map, by simpa [Hashed] using h.hash⟩
  · intro h
    exact ⟨h.slots, h.map, by simpa [Hashed] using h.hash⟩

theorem mapped_nodup (h : Mapped s) : s.usedList.toList.Nodup := by
  apply List.Nodup.map_on _ (List.Nodup.of_map _ s.usedList.nodup)
  rintro ⟨i, a⟩ hi ⟨j, b⟩ hj (rfl : a = b)
  have hij := ((h a i).mpr hi).symm.trans ((h a j).mpr hj)
  rw [Option.some.injEq] at hij
  rw [hij]

theorem usedMap_eq_none (h : Mapped s) (hn : slot ∉ s.usedList.toList) :
    s.usedMap slot = none := by
  by_contra hne
  obtain ⟨it, hit⟩ := Option.ne_none_iff_exists'.mp hne
  exact hn (StableList.mem_toList.mpr ⟨it, (h slot it).mp hit⟩)

theorem mapped_insertUsed (h : Mapped s) (hn : slot ∉ s.usedList.toList) :
    Mapped (s.insertUsed slot) := by
  intro slot' it
  have hnone := usedMap_eq_none h hn
  simp only [insertUsed, hnone, if_true, StableList.nodes_pushFront, List.mem_cons,
    Prod.mk.injEq]
  by_cases he : slot' = slot
  · subst he
    have hnot : (it, slot') ∉ s.usedList.nodes := fun hm =>
      hn (StableList.mem_toList.mpr ⟨it, hm⟩)
    simp [hnot, eq_comm]
  · simp [Function.update, he, h slot' it]

/-- Removing a used slot drops its node and its iterator and nothing else. -/
theorem remove_used (h : Mapped s) (hu : slot ∈ s.usedList.toList) :
    s.usedList.toList.Perm (slot :: (s.remove slot).usedList.toList) ∧
      Mapped (s.remove slot) := by
  obtain ⟨it, hit⟩ := StableList.mem_toList.mp hu
  have hm := (h slot it).mpr hit
  simp only [remove, hm]
  refine ⟨StableList.toList_perm_erase hit, ?_⟩
  intro slot' it'
  change Function.update s.usedMap slot none slot' = some it' ↔
    (it', slot') ∈ (s.usedList.erase it).nodes
  rw [StableList.mem_nodes_erase]
  by_cases he : slot' = slot
  · subst he
    simp only [Function.update_self, reduceCtorEq, false_iff, not_and, not_not]
    intro hm'
    have := ((h slot' it').mpr hm').symm.trans hm
    simpa using this
  · rw [Function.update_of_ne he, h slot' it']
    constructor
    · intro hm'
      refine ⟨hm', ?_⟩
      rintro rfl
      exact he (StableList.value_unique hm' hit)
    · exact fun hm' => hm'.1

theorem not_mem_remove (h : Mapped s) (hu : slot ∈ s.usedList.toList) :
    slot ∉ (s.remove slot).usedList.toList := by
  have hnd := (remove_used h hu).1.nodup_iff.mp (mapped_nodup h)
  exact (List.nodup_cons.mp hnd).1

theorem mapped_touch (h : Mapped s) (hu : slot ∈ s.usedList.toList) : Mapped (s.touch slot) :=
  mapped_insertUsed (remove_used h hu).2 (not_mem_remove h hu)

theorem touch_perm (h : Mapped s) (hu : slot ∈ s.usedList.toList) :
    (s.touch slot).usedList.toList.Perm s.usedList.toList :=
  (remove_used h hu).1.symm

@[simp] theorem touch_bufferPool : (s.touch slot).bufferPool = s.bufferPool := by simp [touch]
@[simp] theorem touch_hashTable : (s.touch slot).hashTable = s.hashTable := by simp [touch]
@[simp] theorem touch_disk : (s.touch slot).disk = s.disk := by simp [touch]
@[simp] theorem touch_freeList : (s.touch slot).freeList = s.freeList := by simp [touch]
@[simp] theorem touch_poolSize : (s.touch slot).poolSize = s.poolSize := by simp [touch]

theorem used_nodup_free (h : Partitioned s) (hu : slot ∈ s.usedList.toList) :
    slot ∉ s.freeList := by
  have hnd := h.nodup_iff.mpr List.nodup_range
  exact fun hf => List.disjoint_of_nodup_append hnd hf hu

theorem partitioned_touch (h : Partitioned s) (hm : Mapped s) (hu : slot ∈ s.usedList.toList) :
    Partitioned (s.touch slot) := by
  have hp := (touch_perm hm hu).append_left s.freeList
  simpa [Partitioned] using hp.trans h

/-- The head of the free list comes into use. -/
theorem partitioned_insertUsed {rest : List ℕ} (h : Partitioned s)
    (hf : s.freeList = slot :: rest) :
    Partitioned ({ s with freeList := rest }.insertUsed slot) := by
  rw [Partitioned, hf] at h
  exact List.perm_middle.trans h

/-- A used slot goes to the free list. -/
theorem partitioned_toFree (h : Partitioned s) (hm : Mapped s) (hu : slot ∈ s.usedList.toList) :
    Partitioned ((s.remove slot).insertFree slot) := by
  have hs := ((remove_used hm hu).1.append_left s.freeList).symm.trans h
  simpa [Partitioned, insertFree] using List.perm_middle.symm.trans hs

/-- Moving a used slot to the front keeps ownership. -/
theorem OwnedBut.touch {hole : Option ℕ} (h : OwnedBut hole s)
    (hu : slot ∈ s.usedList.toList) : OwnedBut hole (s.touch slot) := by
  refine ⟨partitioned_touch h.slots h.map hu, mapped_touch h.map hu, ?_⟩
  intro fd page i
  simpa [(touch_perm h.map hu).mem_iff] using h.hash fd page i

/-- Changing an entry, but not what it carries, keeps ownership. -/
theorem OwnedBut.setEntry {hole : Option ℕ} (h : OwnedBut hole s) {en : BufferEntry n}
    (hfd : en.fd = (s.bufferPool slot).fd) (hpage : en.page = (s.bufferPool slot).page) :
    OwnedBut hole (s.setEntry slot en) := by
  refine ⟨h.slots, h.map, ?_⟩
  intro fd page i
  have hi := h.hash fd page i
  by_cases he : i = slot
  · subst he
    simpa [BufferManager.setEntry, hfd, hpage] using hi
  · simpa [BufferManager.setEntry, Function.update, he] using hi

theorem OwnedBut.setDisk {hole : Option ℕ} (h : OwnedBut hole s) (d : Disk) :
    OwnedBut hole { s with disk := d } := ⟨h.slots, h.map, h.hash⟩

/-- What a slot of the hole carries does not matter. -/
theorem OwnedBut.setHole (h : OwnedBut (some slot) s) (en : BufferEntry n) :
    OwnedBut (some slot) (s.setEntry slot en) := by
  refine ⟨h.slots, h.map, ?_⟩
  intro fd page i
  have hi := h.hash fd page i
  by_cases he : i = slot
  · subst he
    simpa [BufferManager.setEntry] using hi
  · simpa [BufferManager.setEntry, Function.update, he] using hi

theorem Named.setHole (h : Named (some slot) s) (en : BufferEntry n) :
    Named (some slot) (s.setEntry slot en) := by
  intro fd page i hi
  obtain ⟨hu, hne, hrest⟩ := h fd page i hi
  have hi' : i ≠ slot := fun he => hne (congrArg some he.symm)
  refine ⟨hu, hne, ?_⟩
  simpa [BufferManager.setEntry, Function.update, hi'] using hrest

/-- Dropping a used slot from the page table opens the hole there. -/
theorem OwnedBut.hashRemove (h : OwnedBut none s) (hu : slot ∈ s.usedList.toList) :
    OwnedBut (some slot)
      (s.hashRemove (s.bufferPool slot).fd (s.bufferPool slot).page) := by
  refine ⟨h.slots, h.map, ?_⟩
  intro fd page i
  have hself := (h.hash (s.bufferPool slot).fd (s.bufferPool slot).page slot).mpr
    ⟨hu, by simp, rfl, rfl⟩
  simp only [BufferManager.hashRemove]
  by_cases hk : (fd, page) = ((s.bufferPool slot).fd, (s.bufferPool slot).page)
  · obtain ⟨rfl, rfl⟩ := Prod.mk.injEq .. ▸ hk
    rw [HashTable.find_remove_self]
    simp only [reduceCtorEq, false_iff, not_and]
    intro hi hne hfd hpage
    have := hself.symm.trans ((h.hash _ _ i).mpr ⟨hi, by simp, hfd, hpage⟩)
    exact hne this
  · rw [HashTable.find_remove_of_ne hk, h.hash fd page i]
    constructor
    · rintro ⟨hi, -, rfl, rfl⟩
      exact ⟨hi, fun he => hk (by rw [Option.some.inj he]), rfl, rfl⟩
    · rintro ⟨hi, -, hrest⟩
      exact ⟨hi, by simp, hrest⟩

/-- Naming the slot of the hole by what it is about to carry closes the hole. -/
theorem OwnedBut.install (h : OwnedBut (some slot) s) (hu : slot ∈ s.usedList.toList)
    (hf : s.hashTable.find fd page = none) : OwnedBut none (s.install fd page slot) := by
  refine ⟨h.slots, h.map, ?_⟩
  intro fd' page' i
  change (s.hashTable.insert fd page slot).find fd' page' = some i ↔
    i ∈ s.usedList.toList ∧ none ≠ some i ∧
      (Function.update s.bufferPool slot _ i).fd = fd' ∧
      (Function.update s.bufferPool slot _ i).page = page'
  by_cases hk : (fd', page') = (fd, page)
  · obtain ⟨rfl, rfl⟩ := Prod.mk.injEq .. ▸ hk
    rw [HashTable.find_insert_self hf]
    by_cases hi : i = slot
    · subst hi
      simp [hu]
    · have hno : ¬ (i ∈ s.usedList.toList ∧ some slot ≠ some i ∧
          (s.bufferPool i).fd = fd' ∧ (s.bufferPool i).page = page') := by
        intro hc
        simp [(h.hash fd' page' i).mpr hc] at hf
      have hne : some slot ≠ some i := fun he => hi (Option.some.inj he).symm
      simp only [Option.some.injEq, Ne.symm hi, Function.update_of_ne hi, false_iff]
      exact fun hc => hno ⟨hc.1, hne, hc.2.2⟩
  · rw [HashTable.find_insert_of_ne hk, h.hash fd' page' i]
    by_cases hi : i = slot
    · subst hi
      simp only [ne_eq, not_true_eq_false, false_and, and_false, Function.update_self,
        false_iff, not_and]
      rintro - - rfl rfl
      exact hk rfl
    · have hne : some slot ≠ some i := fun he => hi (Option.some.inj he).symm
      simp [Function.update_of_ne hi, hne]

theorem victim_used (h : s.victim = some slot) :
    slot ∈ s.usedList.toList ∧ (s.bufferPool slot).pin = 0 := by
  refine ⟨List.mem_reverse.mp (List.mem_of_find?_eq_some h), ?_⟩
  simpa using List.find?_some h

theorem victim_eq_none_iff :
    s.victim = none ↔ ∀ i ∈ s.usedList.toList, (s.bufferPool i).pin ≠ 0 := by
  simp [victim]

/-- The slot handed out is in use and no page names it. -/
theorem internalAlloc_owned (h : OwnedBut none s) (ha : internalAlloc s = .ok slot t) :
    OwnedBut (some slot) t ∧ slot ∈ t.usedList.toList := by
  obtain ⟨rest, hf, rfl⟩ | ⟨-, hv, d, -, rfl⟩ := internalAlloc_ok ha
  · have hn : slot ∉ s.usedList.toList := fun hu =>
      used_nodup_free h.slots hu (by simp [hf])
    refine ⟨⟨partitioned_insertUsed h.slots hf, mapped_insertUsed h.map hn, ?_⟩, by simp⟩
    intro fd page i
    change s.hashTable.find fd page = some i ↔ i ∈ slot :: s.usedList.toList ∧ _
    rw [h.hash fd page i]
    constructor
    · rintro ⟨hi, -, hrest⟩
      exact ⟨List.mem_cons_of_mem _ hi, fun he => hn (Option.some.inj he ▸ hi), hrest⟩
    · rintro ⟨hi, hne, hrest⟩
      refine ⟨?_, by simp, hrest⟩
      rcases List.mem_cons.mp hi with rfl | hi
      · exact absurd rfl hne
      · exact hi
  · obtain ⟨hu, -⟩ := victim_used hv
    have hr := (h.setDisk d).hashRemove hu
    have ht := hr.touch hu
    exact ⟨ht, (touch_perm hr.map hu).mem_iff.mpr hu⟩

/-- Allocation only forgets pages. -/
theorem find_internalAlloc (ha : internalAlloc s = .ok slot t)
    (hf : s.hashTable.find fd page = none) : t.hashTable.find fd page = none := by
  obtain ⟨rest, -, rfl⟩ | ⟨-, hv, d, -, rfl⟩ := internalAlloc_ok ha
  · exact hf
  · simp only [insertUsed_hashTable, remove_hashTable, BufferManager.hashRemove]
    by_cases hk : (fd, page) = ((s.bufferPool slot).fd, (s.bufferPool slot).page)
    · obtain ⟨rfl, rfl⟩ := Prod.mk.injEq .. ▸ hk
      exact HashTable.find_remove_self
    · rw [HashTable.find_remove_of_ne hk]
      exact hf

/-- An entry changed in a way the page table does not see, then moved to the front. -/
theorem OwnedBut.setEntry_touch (h : OwnedBut none s) (hf : s.hashTable.find fd page = some slot)
    {en : BufferEntry n} (hfd : en.fd = (s.bufferPool slot).fd)
    (hpage : en.page = (s.bufferPool slot).page) :
    OwnedBut none ((s.setEntry slot en).touch slot) :=
  (h.setEntry hfd hpage).touch ((h.hash fd page slot).mp hf).1

theorem getPage_owned {mp : Bool} (h : Owned s) (hg : getPage fd page mp s = .ok slot t) :
    Owned t := by
  rw [owned_iff] at h ⊢
  obtain ⟨hf, -, rfl⟩ | ⟨hf, v, w, ha, hr, rfl⟩ := getPage_ok hg
  · exact h.setEntry_touch hf rfl rfl
  · obtain ⟨hv, hu⟩ := internalAlloc_owned h ha
    have hfv := find_internalAlloc ha hf
    obtain ⟨f, -, -, -, rfl⟩ := readPage_ok.mp hr
    exact (hv.setHole _).install hu hfv

theorem allocatePage_owned {r : Option ℕ} (h : Owned s)
    (ha : allocatePage fd page s = .ok r t) : Owned t := by
  obtain ⟨_, -, -, rfl⟩ | ⟨hf, slot, v, -, hv, rfl⟩ := allocatePage_ok ha
  · exact h
  · rw [owned_iff] at h ⊢
    obtain ⟨ho, hu⟩ := internalAlloc_owned h hv
    exact ho.install hu (find_internalAlloc hv hf)

theorem markDirty_owned (h : Owned s) (hm : markDirty fd page s = .ok u t) : Owned t := by
  rw [owned_iff] at h ⊢
  obtain ⟨slot, hf, rfl⟩ := markDirty_ok hm
  exact h.setEntry_touch hf rfl rfl

theorem unpinPage_owned (h : Owned s) (hp : unpinPage fd page s = .ok u t) : Owned t := by
  rw [owned_iff] at h ⊢
  obtain ⟨slot, hf, -, rfl⟩ := unpinPage_ok hp
  split
  · exact h.setEntry_touch hf rfl rfl
  · exact h.setEntry rfl rfl

theorem forceSlots_owned (is : List ℕ) (h : Owned s) : Owned (after (forceSlots fd page is) s) := by
  induction is generalizing s with
  | nil => exact h
  | cons i is ih =>
    cases hi : forceSlot fd page i s with
    | error e t =>
      obtain ⟨-, rfl, -⟩ := forceSlot_error hi
      rw [forceSlots, after_bind_error hi]
      exact h
    | ok _ t =>
      rw [forceSlots, after_bind_ok hi]
      apply ih
      obtain ⟨-, rfl⟩ | ⟨-, d, -, rfl⟩ := forceSlot_ok hi
      · exact h
      · rw [owned_iff] at h ⊢
        exact (h.setDisk d).setEntry rfl rfl

/-- The slots of `fd` that a flush frees: those before the first pinned one. -/
def reached (s : BufferManager n) (fd : ℤ) (is : List ℕ) : List ℕ :=
  (is.filter fun i => (s.bufferPool i).fd = fd).takeWhile fun i => (s.bufferPool i).pin ≤ 0

/-- The slot of the hole goes to the free list. -/
theorem OwnedBut.toFree (h : OwnedBut (some i) s) (hu : i ∈ s.usedList.toList) :
    OwnedBut none ((s.remove i).insertFree i) := by
  obtain ⟨hp, hm⟩ := remove_used h.map hu
  refine ⟨partitioned_toFree h.slots h.map hu, hm, ?_⟩
  intro fd page j
  have hn := not_mem_remove h.map hu
  change (s.remove i).hashTable.find fd page = some j ↔
    j ∈ (s.remove i).usedList.toList ∧ none ≠ some j ∧
      ((s.remove i).bufferPool j).fd = fd ∧ ((s.remove i).bufferPool j).page = page
  rw [remove_hashTable, remove_bufferPool, h.hash fd page j, hp.mem_iff, List.mem_cons]
  constructor
  · rintro ⟨rfl | hm, hne, hrest⟩
    · exact absurd rfl hne
    · exact ⟨hm, by simp, hrest⟩
  · rintro ⟨hm, -, hrest⟩
    exact ⟨Or.inr hm, fun he => hn (Option.some.inj he ▸ hm), hrest⟩

theorem release_owned (h : OwnedBut none s) (hu : i ∈ s.usedList.toList) (d : Disk) :
    OwnedBut none (s.release i d) := by
  have hd : OwnedBut none ({ s with disk := d }.setEntry i
      { s.bufferPool i with dirty := false }) := (h.setDisk d).setEntry rfl rfl
  have hr := hd.hashRemove hu
  simp only [BufferManager.setEntry, Function.update_self] at hr
  exact hr.toFree hu

@[simp] theorem release_freeList (d : Disk) : (s.release i d).freeList = i :: s.freeList := by
  simp [release, insertFree, BufferManager.hashRemove, BufferManager.setEntry]

@[simp] theorem release_poolSize (d : Disk) : (s.release i d).poolSize = s.poolSize := by
  simp [release, insertFree, BufferManager.hashRemove, BufferManager.setEntry]

@[simp] theorem release_disk (d : Disk) : (s.release i d).disk = d := by
  simp [release, insertFree, BufferManager.hashRemove, BufferManager.setEntry]

@[simp] theorem release_hashTable (d : Disk) : (s.release i d).hashTable =
    s.hashTable.remove (s.bufferPool i).fd (s.bufferPool i).page := by
  simp [release, insertFree, BufferManager.hashRemove, BufferManager.setEntry]

@[simp] theorem release_bufferPool (d : Disk) : (s.release i d).bufferPool =
    Function.update s.bufferPool i { s.bufferPool i with dirty := false } := by
  simp [release, insertFree, BufferManager.hashRemove, BufferManager.setEntry]

theorem reached_release (d : Disk) (is : List ℕ) :
    (s.release i d).reached fd is = s.reached fd is := by
  have hfd : ∀ j, ((s.release i d).bufferPool j).fd = (s.bufferPool j).fd := by
    intro j
    by_cases hj : j = i
    · subst hj; simp
    · simp [Function.update, hj]
  have hpin : ∀ j, ((s.release i d).bufferPool j).pin = (s.bufferPool j).pin := by
    intro j
    by_cases hj : j = i
    · subst hj; simp
    · simp [Function.update, hj]
  simp only [reached, hfd, hpin]

/-- The first slot that a flush frees was in use, and the rest of the flush frees used slots too. -/
theorem reached_cons {is : List ℕ} (hs : Partitioned s) (hnd : (i :: is).Nodup)
    (hlt : ∀ j ∈ i :: is, j < s.poolSize) (hr : ∀ j ∈ s.reached fd (i :: is), j ∉ s.freeList)
    (hfd : (s.bufferPool i).fd = fd) (hpin : (s.bufferPool i).pin ≤ 0) (d : Disk) :
    i ∈ s.usedList.toList ∧
      ∀ j ∈ (s.release i d).reached fd is, j ∉ (s.release i d).freeList := by
  have hi := (List.nodup_cons.mp hnd).1
  have hre : s.reached fd (i :: is) = i :: s.reached fd is := by
    simp [reached, hfd, hpin]
  rw [hre] at hr
  constructor
  · have hm := hs.mem_iff.mpr (List.mem_range.mpr (hlt i (by simp)))
    exact (List.mem_append.mp hm).resolve_left (hr i (by simp))
  · intro j hj
    rw [reached_release] at hj
    have hji : j ≠ i := by
      rintro rfl
      exact hi (List.mem_of_mem_filter ((List.takeWhile_sublist _).mem hj))
    simpa [hji] using hr j (List.mem_cons_of_mem _ hj)

/-- What every release of an unpinned used slot keeps, a flush that frees only used slots keeps,
also when it throws half way. -/
theorem flushSlots_inv {P : BufferManager n → Prop} {is : List ℕ}
    (hslots : ∀ s, P s → Partitioned s)
    (hrelease : ∀ s i d, P s → i ∈ s.usedList.toList → (s.bufferPool i).pin ≤ 0 →
      WroteBack s.disk (s.bufferPool i) d → P (s.release i d))
    (h : P s) (hnd : is.Nodup) (hlt : ∀ i ∈ is, i < s.poolSize)
    (hr : ∀ i ∈ s.reached fd is, i ∉ s.freeList) : P (after (flushSlots fd is) s) := by
  induction is generalizing s with
  | nil => exact h
  | cons i is ih =>
    have hlt' : ∀ j ∈ is, j < s.poolSize := fun j hj => hlt j (List.mem_cons_of_mem _ hj)
    cases hx : flushSlot fd i s with
    | error e t =>
      obtain ⟨rfl, -⟩ := flushSlot_error hx
      rw [flushSlots, after_bind_error hx]
      exact h
    | ok _ t =>
      rw [flushSlots, after_bind_ok hx]
      obtain ⟨hfd, rfl⟩ | ⟨hfd, hpin, d, hd, rfl⟩ := flushSlot_ok hx
      · exact ih h hnd.of_cons hlt' (by simpa [reached, hfd] using hr)
      · obtain ⟨hu, hr'⟩ := reached_cons (hslots s h) hnd hlt hr hfd hpin d
        exact ih (hrelease s i d h hu hpin hd) hnd.of_cons (by simpa using hlt') hr'

theorem flushSlots_owned {is : List ℕ} (h : Owned s) (hnd : is.Nodup)
    (hlt : ∀ i ∈ is, i < s.poolSize) (hr : ∀ i ∈ s.reached fd is, i ∉ s.freeList) :
    Owned (after (flushSlots fd is) s) := by
  refine flushSlots_inv (fun s hs => hs.slots) ?_ h hnd hlt hr
  intro s i d hs hu _ _
  exact owned_iff.mpr (release_owned (owned_iff.mp hs) hu d)

end AlphaDb.Io.BufferManager
