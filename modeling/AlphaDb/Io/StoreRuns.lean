import AlphaDb.Io.PageStore

/-! Runs of a pool and its clients against a plain page store. -/
namespace AlphaDb.Io

open EStateM Trace BufferManager Cache

namespace Cache

variable {n : ℕ} {pending : PageId → Bool} {store : PageId → Option (Block n)} {c c' : Cache n}
  {k : PageId} {en : BufferEntry n} {b : Block n}

/-- The cache holds what `store` has; of its pages only the pending ones, which are pinned, have
changes that would not be written back. -/
structure Mirrors (pending : PageId → Bool) (store : PageId → Option (Block n)) (c : Cache n) :
    Prop where
  coherent : Coherent id (fun k => pending k = true) c
  pinned : PendingPinned (fun k => pending k = true) c
  holds : ∀ k b, store k = some b → c.contents k = some b

theorem Mirrors.keeps (h : Mirrors pending store c)
    (hc : Coherent id (fun k => pending k = true) c')
    (hp : PendingPinned (fun k => pending k = true) c') (hk : Keeps id c c') :
    Mirrors pending store c' := by
  refine ⟨hc, hp, ?_⟩
  intro k b hb
  obtain ⟨b', hb', he⟩ := hk k b (h.holds k b hb)
  obtain rfl : b' = b := he
  exact hb'

theorem Mirrors.evict (h : Mirrors pending store c) (hk : c.Keyed) (he : Evict c c') :
    Mirrors pending store c' := by
  obtain ⟨hc, hkeep⟩ := he.keeps hk h.coherent h.pinned
  exact h.keeps hc (he.pendingPinned h.pinned) hkeep

theorem Mirrors.evicts (h : Mirrors pending store c) (hk : c.Keyed)
    (he : Relation.ReflTransGen Evict c c') : Mirrors pending store c' := by
  obtain ⟨hc, hp, hkeep⟩ := keeps_of_evicts he hk h.coherent h.pinned
  exact h.keeps hc hp hkeep

theorem Mirrors.syncs (h : Mirrors pending store c) (he : Relation.ReflTransGen Sync c c') :
    Mirrors pending store c' := by
  obtain ⟨hc, hp, hkeep⟩ := keeps_of_syncs he h.coherent h.pinned
  exact h.keeps hc hp hkeep

/-- Only the pins of a page change. -/
theorem Mirrors.repin {pin : ℤ} (h : Mirrors pending store c) (hen : c.entry k = some en)
    (hpos : pending k = true → 0 < pin) :
    Mirrors pending store (c.set k { en with pin := pin }) :=
  h.keeps (h.coherent.set (h.coherent _ en hen)) (h.pinned.set hpos)
    (Keeps.set (contents_of_entry hen) rfl)

/-- A page comes in from disk. -/
theorem Mirrors.load (h : Mirrors pending store c) (hnone : c.entry k = none)
    (hb : c.disk.page k.1 k.2 = some b) :
    Mirrors pending store (c.set k ⟨false, k.1, k.2, b, 1⟩) :=
  h.keeps (h.coherent.set fun _ _ => ⟨b, hb, rfl⟩) (h.pinned.set fun _ => Int.one_pos)
    (Keeps.set ((contents_of_none hnone).trans hb) rfl)

/-- A new entry for a page, with the store following it and the page pending. -/
theorem Mirrors.replace (h : Mirrors pending store c) (en : BufferEntry n) (hpin : 0 < en.pin) :
    Mirrors (Function.update pending k true) (Function.update store k (some en.data))
      (c.set k en) := by
  refine ⟨?_, ?_, ?_⟩
  · refine (h.coherent.mono ?_).set fun _ hk => absurd (by simp) hk
    intro k' hk'
    by_cases he : k' = k
    · subst he; simp
    · simpa [Function.update, he] using hk'
  · intro k' hk'
    by_cases he : k' = k
    · subst he
      exact ⟨en, set_entry_self, hpin⟩
    · have hk' : pending k' = true := by simpa [Function.update, he] using hk'
      obtain ⟨en', hen', hpos⟩ := h.pinned k' hk'
      exact ⟨en', by rw [set_entry_of_ne he]; exact hen', hpos⟩
  · intro k' b hb
    by_cases he : k' = k
    · subst he
      rw [contents_of_entry set_entry_self]
      simpa using hb
    · rw [contents_set_of_ne he]
      exact h.holds k' b (by simpa [Function.update, he] using hb)

/-- A page marked dirty is pending no more. -/
theorem Mirrors.markDirty (h : Mirrors pending store c) (hen : c.entry k = some en) :
    Mirrors (Function.update pending k false) store (c.set k { en with dirty := true }) := by
  have hpend : ∀ k', Function.update pending k false k' = true → pending k' = true := by
    intro k' hk'
    by_cases he : k' = k
    · subst he; simp at hk'
    · simpa [Function.update, he] using hk'
  refine ⟨?_, ?_, ?_⟩
  · intro k' en' hk' hd hn
    by_cases he : k' = k
    · subst he
      rw [set_entry_self] at hk'
      obtain rfl := Option.some.inj hk'
      simp at hd
    · rw [set_entry_of_ne he] at hk'
      refine h.coherent k' en' hk' hd ?_
      intro hp
      exact hn (by simpa [Function.update, he] using hp)
  · have hp : PendingPinned (fun k' => Function.update pending k false k' = true) c :=
      fun k' hk' => h.pinned k' (hpend k' hk')
    exact hp.set fun hk => absurd hk (by simp)
  · intro k' b hb
    by_cases he : k' = k
    · subst he
      have := h.holds _ b hb
      rw [contents_of_entry hen] at this
      rw [contents_of_entry set_entry_self]
      exact this
    · rw [contents_set_of_ne he]
      exact h.holds k' b hb

end Cache

/-- A pool next to the store it should be: `store` has the bytes each page was last written with
(a page just allocated counts as written with the bytes it was handed out with), and `pending`
marks the pages that a client got new or wrote, and has not marked dirty since. -/
structure StoreRun (n : ℕ) where
  pool : BufferManager n
  store : PageId → Option (Block n)
  pending : PageId → Bool

/-- Calls of the pool, and a client's write through the pointer it was handed. -/
inductive StoreCall (n : ℕ)
  | getPage (fd page : ℤ) (multiplePins : Bool)
  | allocatePage (fd page : ℤ)
  | unpinPage (fd page : ℤ)
  | forcePage (fd page : ℤ)
  | markDirty (fd page : ℤ)
  | write (fd page : ℤ) (data : Block n)

namespace StoreRun

variable {n : ℕ} {s t : StoreRun n} {fd page : ℤ}

def init (poolSize : ℕ) (raw : ℕ → BufferEntry n) (disk : Disk) : StoreRun n where
  pool := .new poolSize raw disk
  store k := disk.page k.1 k.2
  pending _ := false

/-- This unpin would leave the page unpinned. -/
def lastPin (s : StoreRun n) (k : PageId) : Bool :=
  (s.pool.cache.entry k).any fun en => en.pin ≤ 1

/-- One call with its I/O succeeding. A pending page may not lose its last pin, a page is written
only while it is pinned, and only single pages are forced. -/
def step (s : StoreRun n) : StoreCall n → Option (StoreRun n)
  | .getPage fd page multiplePins =>
    if s.pool.hashTable.InRange fd page then
      outcome (BufferManager.getPage fd page multiplePins s.pool)
        (fun _ t => { s with pool := t }) fun t => { s with pool := t }
    else none
  | .allocatePage fd page =>
    if s.pool.hashTable.InRange fd page then
      outcome (BufferManager.allocatePage fd page s.pool)
        (fun r t => match r with
          | none => { s with pool := t }
          | some slot =>
            { pool := t
              store := Function.update s.store (fd, page) (some (t.bufferPool slot).data)
              pending := Function.update s.pending (fd, page) true })
        fun t => { s with pool := t }
    else none
  | .unpinPage fd page =>
    if s.pool.hashTable.InRange fd page ∧ ¬ (s.pending (fd, page) ∧ s.lastPin (fd, page)) then
      outcome (BufferManager.unpinPage fd page s.pool)
        (fun _ t => { s with pool := t }) fun t => { s with pool := t }
    else none
  | .forcePage fd page =>
    if 0 ≤ page then
      outcome (BufferManager.forcePage fd page s.pool)
        (fun _ t => { s with pool := t }) fun t => { s with pool := t }
    else none
  | .markDirty fd page =>
    if s.pool.hashTable.InRange fd page then
      outcome (BufferManager.markDirty fd page s.pool)
        (fun _ t =>
          { s with pool := t, pending := Function.update s.pending (fd, page) false })
        fun t => { s with pool := t }
    else none
  | .write fd page data =>
    match s.pool.hashTable.find fd page with
    | none => none
    | some slot =>
      if 0 < (s.pool.bufferPool slot).pin then
        some
          { pool := s.pool.setEntry slot { s.pool.bufferPool slot with data := data }
            store := Function.update s.store (fd, page) (some data)
            pending := Function.update s.pending (fd, page) true }
      else none

/-! ### What a call does: without an I/O error, one that throws has changed nothing -/

theorem step_getPage {mp : Bool} (hs : step s (.getPage fd page mp) = some t) :
    t = s ∨ ∃ slot q, getPage fd page mp s.pool = .ok slot q ∧ t = { s with pool := q } := by
  obtain ⟨-, hs⟩ := Option.ite_none_right_eq_some.mp hs
  obtain ⟨slot, q, hg, rfl⟩ | ⟨e, q, hg, he, rfl⟩ := outcome_eq_some hs
  · exact .inr ⟨slot, q, hg, rfl⟩
  · obtain hio | ⟨rfl, -⟩ := getPage_error hg
    · simp [hio] at he
    · exact .inl rfl

/-- A page that is in the pool already gets no new slot. -/
theorem step_allocatePage (hs : step s (.allocatePage fd page) = some t) :
    t = s ∨ ∃ slot q, allocatePage fd page s.pool = .ok (some slot) q ∧ t =
      { pool := q
        store := Function.update s.store (fd, page) (some (q.bufferPool slot).data)
        pending := Function.update s.pending (fd, page) true } := by
  obtain ⟨-, hs⟩ := Option.ite_none_right_eq_some.mp hs
  obtain ⟨r, q, ha, rfl⟩ | ⟨e, q, ha, -, rfl⟩ := outcome_eq_some hs
  · cases r with
    | none =>
      obtain ⟨_, -, -, rfl⟩ | ⟨-, _, _, hr, -⟩ := allocatePage_ok ha
      · exact .inl rfl
      · cases hr
    | some slot => exact .inr ⟨slot, q, ha, rfl⟩
  · obtain ⟨rfl, -⟩ := allocatePage_error ha
    exact .inl rfl

theorem step_unpinPage (hs : step s (.unpinPage fd page) = some t) :
    t = s ∨ ¬ (s.pending (fd, page) = true ∧ s.lastPin (fd, page) = true) ∧
      ∃ u q, unpinPage fd page s.pool = .ok u q ∧ t = { s with pool := q } := by
  obtain ⟨⟨-, hlast⟩, hs⟩ := Option.ite_none_right_eq_some.mp hs
  obtain ⟨u, q, hp, rfl⟩ | ⟨e, q, hp, -, rfl⟩ := outcome_eq_some hs
  · exact .inr ⟨hlast, u, q, hp, rfl⟩
  · obtain ⟨rfl, -⟩ := unpinPage_error hp
    exact .inl rfl

theorem step_forcePage (hs : step s (.forcePage fd page) = some t) :
    0 ≤ page ∧ ∃ u q, forcePage fd page s.pool = .ok u q ∧ t = { s with pool := q } := by
  obtain ⟨hpage, hs⟩ := Option.ite_none_right_eq_some.mp hs
  obtain ⟨u, q, hf, rfl⟩ | ⟨e, q, hf, he, rfl⟩ := outcome_eq_some hs
  · exact ⟨hpage, u, q, hf, rfl⟩
  · simp [forcePage_error hf] at he

theorem step_markDirty (hs : step s (.markDirty fd page) = some t) :
    t = s ∨ ∃ u q, markDirty fd page s.pool = .ok u q ∧
      t = { s with pool := q, pending := Function.update s.pending (fd, page) false } := by
  obtain ⟨-, hs⟩ := Option.ite_none_right_eq_some.mp hs
  obtain ⟨u, q, hm, rfl⟩ | ⟨e, q, hm, -, rfl⟩ := outcome_eq_some hs
  · exact .inr ⟨u, q, hm, rfl⟩
  · obtain ⟨rfl, -⟩ := markDirty_error hm
    exact .inl rfl

/-- Only a pinned page is written. -/
theorem step_write {data : Block n} (hs : step s (.write fd page data) = some t) :
    ∃ slot, s.pool.hashTable.find fd page = some slot ∧ 0 < (s.pool.bufferPool slot).pin ∧ t =
      { pool := s.pool.setEntry slot { s.pool.bufferPool slot with data := data }
        store := Function.update s.store (fd, page) (some data)
        pending := Function.update s.pending (fd, page) true } := by
  simp only [step] at hs
  split at hs
  · cases hs
  · next slot hf =>
    obtain ⟨hpin, hs⟩ := Option.ite_none_right_eq_some.mp hs
    obtain rfl := Option.some.inj hs
    exact ⟨slot, hf, hpin, rfl⟩

/-- Slots that were never used still carry descriptor `-1`. -/
def FreeUnused (p : BufferManager n) : Prop := ∀ i ∈ p.freeList, (p.bufferPool i).fd = -1

/-- The simulation: what the store has, the pool and the disk hold. -/
structure Refines (s : StoreRun n) : Prop where
  owned : Owned s.pool
  coherent : Coherent id (fun k => s.pending k = true) s.pool.cache
  pinned : PendingPinned (fun k => s.pending k = true) s.pool.cache
  holds : ∀ k b, s.store k = some b → s.pool.cache.contents k = some b
  unused : FreeUnused s.pool

theorem refines_init (poolSize : ℕ) (raw : ℕ → BufferEntry n) (disk : Disk) :
    Refines (init poolSize raw disk) where
  owned := by refine ⟨?_, ?_, ?_⟩ <;> simp [init, new]
  coherent := by
    intro k en hk
    simp [init, new, cache] at hk
  pinned := by
    intro k hk
    simp [init] at hk
  holds := by
    intro k b hb
    simpa [init, new, cache, contents] using hb
  unused := by
    intro i _
    simp [init, new]

section Unused

variable {p q : BufferManager n} {slot : ℕ} {u : Unit}

theorem FreeUnused.setEntry (h : FreeUnused p) {en : BufferEntry n}
    (hfd : en.fd = (p.bufferPool slot).fd) : FreeUnused (p.setEntry slot en) := by
  intro i hi
  by_cases he : i = slot
  · subst he
    simpa [BufferManager.setEntry, hfd] using h i hi
  · simpa [BufferManager.setEntry, Function.update, he] using h i hi

theorem FreeUnused.touch (h : FreeUnused p) : FreeUnused (p.touch slot) := by
  simpa [FreeUnused] using h

/-- A slot that has been handed out is filled; the slots still free are as before. -/
theorem FreeUnused.install (h : FreeUnused p) (ho : Owned p)
    (ha : internalAlloc p = .ok slot q) (en : BufferEntry n) (fd page : ℤ) :
    FreeUnused ((q.setEntry slot en).install fd page slot) := by
  obtain ⟨hq, hu⟩ := internalAlloc_owned (owned_iff.mp ho) ha
  have hfree : q.bufferPool = p.bufferPool ∧ ∀ i ∈ q.freeList, i ∈ p.freeList := by
    obtain ⟨rest, hf, rfl⟩ | ⟨-, -, d, -, rfl⟩ := internalAlloc_ok ha
    · exact ⟨rfl, fun i hi => by rw [hf]; exact List.mem_cons_of_mem _ hi⟩
    · simp [hashRemove]
  intro i hi
  have hne : i ≠ slot := by
    rintro rfl
    exact used_nodup_free hq.slots hu hi
  change (Function.update (Function.update q.bufferPool slot en) slot _ i).fd = -1
  rw [Function.update_of_ne hne, Function.update_of_ne hne, hfree.1]
  exact h i (hfree.2 i hi)

theorem freeUnused_getPage {mp : Bool} (h : FreeUnused p) (ho : Owned p)
    (hg : getPage fd page mp p = .ok slot q) : FreeUnused q := by
  obtain ⟨-, -, rfl⟩ | ⟨-, v, w, ha, hr, rfl⟩ := getPage_ok hg
  · exact (h.setEntry (by rfl)).touch
  · obtain ⟨f, -, -, -, rfl⟩ := readPage_ok.mp hr
    exact h.install ho ha _ fd page

theorem freeUnused_allocatePage {r : Option ℕ} (h : FreeUnused p) (ho : Owned p)
    (ha : allocatePage fd page p = .ok r q) : FreeUnused q := by
  obtain ⟨_, -, -, rfl⟩ | ⟨-, slot, v, -, hv, rfl⟩ := allocatePage_ok ha
  · exact h
  · have := h.install ho hv (v.bufferPool slot) fd page
    simpa [BufferManager.setEntry] using this

theorem freeUnused_forceSlots {is : List ℕ} (h : FreeUnused p)
    (hf : forceSlots fd page is p = .ok u q) : FreeUnused q := by
  induction is generalizing p with
  | nil =>
    obtain ⟨-, rfl⟩ := pure_ok_iff.mp hf
    exact h
  | cons i is ih =>
    obtain ⟨_, v, hi, hrest⟩ := bind_ok_iff.mp hf
    obtain ⟨-, rfl⟩ | ⟨-, d, -, rfl⟩ := forceSlot_ok hi
    · exact ih h hrest
    · have hd : FreeUnused { p with disk := d } := h
      exact ih (hd.setEntry (by rfl)) hrest

end Unused

theorem Refines.mirrors (h : Refines s) : Mirrors s.pending s.store s.pool.cache :=
  ⟨h.coherent, h.pinned, h.holds⟩

theorem Refines.keyed (h : Refines s) : s.pool.cache.Keyed :=
  cache_keyed (owned_iff.mp h.owned).named

theorem refines_of_mirrors (h : Mirrors s.pending s.store s.pool.cache) (ho : Owned s.pool)
    (hu : FreeUnused s.pool) : Refines s :=
  ⟨ho, h.coherent, h.pinned, h.holds, hu⟩

/-- The slot that `getPage` hands out has what the store has. -/
theorem mirrors_getPage {slot : ℕ} {q : BufferManager n}
    (h : Mirrors s.pending s.store s.pool.cache) (hk : s.pool.cache.Keyed)
    (hg : HitOrRead fd page slot s.pool q) : Mirrors s.pending s.store q.cache ∧
      ∀ b, s.store (fd, page) = some b → (q.bufferPool slot).data = b := by
  suffices hm : Mirrors s.pending s.store q.cache ∧
      q.cache.contents (fd, page) = some (q.bufferPool slot).data by
    refine ⟨hm.1, ?_⟩
    intro b hb
    exact Option.some.inj (hm.2.symm.trans (hm.1.holds _ b hb))
  obtain ⟨en, hen, hc, hs⟩ | ⟨hnone, c, b, hev, hb, hc, hs⟩ := hg
  · rw [hc, contents_of_entry set_entry_self, hs]
    refine ⟨h.repin hen ?_, rfl⟩
    intro hk
    obtain ⟨en', hen', hpos⟩ := h.pinned _ hk
    obtain rfl := Option.some.inj (hen.symm.trans hen')
    exact Int.lt_add_one_of_le hpos.le
  · rw [hc, contents_of_entry set_entry_self, hs]
    exact ⟨(h.evict hk hev).load (hev.entry_none hnone) hb, rfl⟩

theorem refines_getPage {mp : Bool} {slot : ℕ} {q : BufferManager n} (hn : 0 < n)
    (h : Refines s) (hg : getPage fd page mp s.pool = .ok slot q) :
    Refines { s with pool := q } ∧
      ∀ b, s.store (fd, page) = some b → (q.bufferPool slot).data = b := by
  obtain ⟨hm, hdata⟩ := mirrors_getPage h.mirrors h.keyed (getPage_cache hn h.owned hg)
  exact ⟨refines_of_mirrors hm (getPage_owned h.owned hg)
    (freeUnused_getPage h.unused h.owned hg), hdata⟩

theorem refines_allocatePage {slot : ℕ} {q : BufferManager n} (h : Refines s)
    (ha : allocatePage fd page s.pool = .ok (some slot) q) :
    Refines
      { pool := q
        store := Function.update s.store (fd, page) (some (q.bufferPool slot).data)
        pending := Function.update s.pending (fd, page) true } := by
  obtain ⟨hr, -⟩ | ⟨-, c, b, slot', hr, hev, hc, hs⟩ := allocatePage_cache h.owned ha
  · simp at hr
  · obtain rfl := Option.some.inj hr
    refine refines_of_mirrors ?_ (allocatePage_owned h.owned ha)
      (freeUnused_allocatePage h.unused h.owned ha)
    dsimp only
    rw [hs, hc]
    exact (h.mirrors.evict h.keyed hev).replace _ Int.one_pos

theorem refines_write {slot : ℕ} (h : Refines s)
    (hf : s.pool.hashTable.find fd page = some slot) (hpin : 0 < (s.pool.bufferPool slot).pin)
    (data : Block n) :
    Refines
      { pool := s.pool.setEntry slot { s.pool.bufferPool slot with data := data }
        store := Function.update s.store (fd, page) (some data)
        pending := Function.update s.pending (fd, page) true } := by
  have ho := owned_iff.mp h.owned
  refine refines_of_mirrors ?_ (owned_iff.mpr (ho.setEntry rfl rfl)) (h.unused.setEntry rfl)
  dsimp only
  rw [cache_setEntry ho.named hf]
  exact h.mirrors.replace { s.pool.bufferPool slot with data := data } hpin

theorem refines_markDirty {u : Unit} {q : BufferManager n} (h : Refines s)
    (hm : markDirty fd page s.pool = .ok u q) :
    Refines { s with pool := q, pending := Function.update s.pending (fd, page) false } := by
  obtain ⟨en, hen, hc⟩ := markDirty_cache h.owned hm
  have hu : FreeUnused q := by
    obtain ⟨slot, -, rfl⟩ := markDirty_ok hm
    exact (h.unused.setEntry (by rfl)).touch
  refine refines_of_mirrors ?_ (markDirty_owned h.owned hm) hu
  dsimp only
  rw [hc]
  exact h.mirrors.markDirty hen

/-- An unpin that is not the last of a pending page leaves it a pin. -/
theorem pos_of_not_lastPin {en : BufferEntry n} (hen : s.pool.cache.entry (fd, page) = some en)
    (hl : ¬ (s.pending (fd, page) = true ∧ s.lastPin (fd, page) = true))
    (hk : s.pending (fd, page) = true) : 0 < en.pin - 1 := by
  have hlast : s.lastPin (fd, page) = false := by
    by_contra hne
    exact hl ⟨hk, by simpa using hne⟩
  simp only [lastPin, hen, Option.any_some, decide_eq_false_iff_not, not_le] at hlast
  exact Int.sub_pos_of_lt hlast

/-- An unpin that does not take the last pin of a pending page. -/
theorem refines_unpinPage {u : Unit} {q : BufferManager n} (h : Refines s)
    (hl : ¬ (s.pending (fd, page) = true ∧ s.lastPin (fd, page) = true))
    (hp : unpinPage fd page s.pool = .ok u q) : Refines { s with pool := q } := by
  obtain ⟨en, hen, hpin, hc⟩ := unpinPage_cache h.owned hp
  have hu : FreeUnused q := by
    obtain ⟨slot, -, -, rfl⟩ := unpinPage_ok hp
    split
    · exact (h.unused.setEntry (by rfl)).touch
    · exact h.unused.setEntry (by rfl)
  refine refines_of_mirrors ?_ (unpinPage_owned h.owned hp) hu
  dsimp only
  rw [hc]
  exact h.mirrors.repin hen (pos_of_not_lastPin hen hl)

theorem refines_forcePage {u : Unit} {q : BufferManager n} (hpage : 0 ≤ page) (h : Refines s)
    (hf : forcePage fd page s.pool = .ok u q) : Refines { s with pool := q } := by
  have hsync := forcePage_cache (by omega) h.owned hf
  have hx := get_bind_ok_iff.mp hf
  have ho : Owned (after (forceSlots fd page s.pool.usedList.toList) s.pool) :=
    forceSlots_owned _ h.owned
  simp only [after, hx] at ho
  exact refines_of_mirrors (h.mirrors.syncs hsync) ho (freeUnused_forceSlots h.unused hx)

/-- Every call keeps the simulation. -/
theorem refines_step (hn : 0 < n) :
    TrInv (fun (s : StoreRun n) a t => step s a = some t) Refines := by
  intro s a t hs h
  cases a with
  | getPage fd page mp =>
    rcases step_getPage hs with rfl | ⟨slot, q, hg, rfl⟩
    · exact h
    · exact (refines_getPage hn h hg).1
  | allocatePage fd page =>
    rcases step_allocatePage hs with rfl | ⟨slot, q, ha, rfl⟩
    · exact h
    · exact refines_allocatePage h ha
  | unpinPage fd page =>
    rcases step_unpinPage hs with rfl | ⟨hlast, u, q, hp, rfl⟩
    · exact h
    · exact refines_unpinPage h hlast hp
  | forcePage fd page =>
    obtain ⟨hpage, u, q, hf, rfl⟩ := step_forcePage hs
    exact refines_forcePage hpage h hf
  | markDirty fd page =>
    rcases step_markDirty hs with rfl | ⟨u, q, hm, rfl⟩
    · exact h
    · exact refines_markDirty h hm
  | write fd page data =>
    obtain ⟨slot, hf, hpin, rfl⟩ := step_write hs
    exact refines_write h hf hpin data

/-- The flush that ends a run puts every page of its file on disk. -/
theorem flushPages_holds {u : Unit} {q : BufferManager n} (h : Refines s) (hfd : 0 ≤ fd)
    (hf : flushPages fd s.pool = .ok u q) {page : ℤ} {b : Block n}
    (hb : s.store (fd, page) = some b) : q.disk.page fd page = some b := by
  have hr : ∀ i ∈ s.pool.reached fd (List.range s.pool.poolSize), i ∉ s.pool.freeList := by
    intro i hi hfree
    have hm := (List.takeWhile_sublist _).mem hi
    have hfd' : (s.pool.bufferPool i).fd = fd := by simpa using (List.mem_filter.mp hm).2
    have := h.unused i hfree
    omega
  obtain ⟨hev, -, hnone⟩ := flushPages_cache h.owned hr hf
  have hb' := (h.mirrors.evicts h.keyed hev).holds _ b hb
  rw [contents_of_none (hnone page)] at hb'
  exact hb'

/-- The pool and the disk refine a page store: after any run a successful `getPage` returns the
bytes the page was last written with, and a flush that returns leaves them on disk. -/
theorem run_refines_store {poolSize : ℕ} {raw : ℕ → BufferEntry 4096} {disk : Disk}
    {calls : List (StoreCall 4096)} {s : StoreRun 4096}
    (h : MTr (fun s a t => step s a = some t) (init poolSize raw disk) calls s) :
    (∀ fd page mp slot q b, getPage fd page mp s.pool = .ok slot q →
      s.store (fd, page) = some b → (q.bufferPool slot).data = b) ∧
    ∀ fd q, 0 ≤ fd → flushPages fd s.pool = .ok () q →
      ∀ page b, s.store (fd, page) = some b → q.disk.page fd page = some b := by
  have hr := mTr_trInv (refines_step (by decide)) h (refines_init poolSize raw disk)
  constructor
  · intro fd page mp slot q b hg hb
    exact (refines_getPage (by decide) hr hg).2 b hb
  · intro fd q hfd hf page b hb
    exact flushPages_holds hr hfd hf hb

/-- One buffer over a file that has only its header block. -/
def oneBuffer : StoreRun 4096 :=
  init 1 (fun _ => ⟨false, 0, 0, fun _ => 0, 0⟩) fun _ => some ⟨4096, fun _ => 0⟩

/-- Two new pages through one buffer: the second evicts the first, which reads back. -/
theorem run_refines_store_two_pages : ∃ s : StoreRun 4096,
    MTr (fun s a t => step s a = some t) oneBuffer
      [.allocatePage 3 0, .write 3 0 fun _ => 7, .markDirty 3 0, .unpinPage 3 0,
        .allocatePage 3 1, .write 3 1 fun _ => 9, .markDirty 3 1, .unpinPage 3 1] s ∧
    (∃ slot q, getPage 3 0 true s.pool = .ok slot q ∧ (q.bufferPool slot).data 0 = 7) ∧
    ∃ q, ∃ b : Block 4096, flushPages 3 s.pool = .ok () q ∧ q.disk.page 3 0 = some b ∧
      b 0 = 7 := by
  have h : (exec step oneBuffer
      [.allocatePage 3 0, .write 3 0 fun _ => 7, .markDirty 3 0, .unpinPage 3 0,
        .allocatePage 3 1, .write 3 1 fun _ => 9, .markDirty 3 1, .unpinPage 3 1]).any (fun s =>
        (s.store (3, 0)).any (fun b => b 0 = 7) ∧ (getPage 3 0 true s.pool).returned ∧
          (flushPages 3 s.pool).returned) = true := by
    decide +kernel
  obtain ⟨s, hs, hp⟩ := exists_mTr_of_exec h
  obtain ⟨hstore, hget, hflush⟩ := of_decide_eq_true hp
  obtain ⟨b, hb, hb0⟩ := (Option.any_eq_true _ _).mp hstore
  obtain ⟨slot, q, hq⟩ := returned_iff.mp hget
  obtain ⟨_, r, hr⟩ := returned_iff.mp hflush
  obtain ⟨hread, hdisk⟩ := run_refines_store hs
  refine ⟨s, hs, ⟨slot, q, hq, ?_⟩, r, b, hr, hdisk 3 r (by decide) hr 0 b hb, by simpa using hb0⟩
  rw [hread 3 0 true slot q b hq hb]
  simpa using hb0

end StoreRun

end AlphaDb.Io
