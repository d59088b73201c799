import AlphaDb.Io.PageStore
import AlphaDb.Io.FileHandle

/-! What the pool guarantees to the handle of one file: the links in the pages survive eviction
and reload, and a call that throws leaves them alone. -/
namespace AlphaDb.Io

open EStateM BufferManager Cache

variable {pending : PageId → Prop} {fd N page : ℤ} {p q : BufferManager 4096} {slot : ℕ} {v : ℤ}
  {e : Error} {u : Unit}

/-- A pool that serves a file with pages `0` to `N - 1`. -/
structure Holds (pending : PageId → Prop) (fd N : ℤ) (p : BufferManager 4096) : Prop where
  owned : Owned p
  coherent : Coherent nextFree pending p.cache
  cached : ∀ page en, p.cache.entry (fd, page) = some en → 0 ≤ page ∧ page < N ∧ 0 ≤ en.pin

/-- No page is pending. -/
abbrev Settled : PageId → Prop := fun _ => False

/-- The link stored in a page, in the pool or else on disk. -/
def storedLink (p : BufferManager 4096) (fd page : ℤ) : Option ℤ :=
  (p.cache.contents (fd, page)).map nextFree

theorem storedLink_of_keeps (h : Keeps nextFree p.cache q.cache)
    (hv : storedLink p fd page = some v) : storedLink q fd page = some v := by
  obtain ⟨b, hb, rfl⟩ := Option.map_eq_some_iff.mp hv
  obtain ⟨b', hb', he⟩ := h _ b hb
  simp [storedLink, hb', he]

theorem storedLink_of_entry {en : BufferEntry 4096} (h : p.cache.entry (fd, page) = some en) :
    storedLink p fd page = some (nextFree en.data) := by
  simp [storedLink, contents_of_entry h]

theorem storedLink_set_of_ne {c : Cache 4096} {en : BufferEntry 4096} {page' : ℤ}
    (hq : q.cache = c.set (fd, page) en)
    (hc : c.contents (fd, page') = p.cache.contents (fd, page'))
    (hne : page' ≠ page) : storedLink q fd page' = storedLink p fd page' := by
  have hk : (fd, page') ≠ (fd, page) := by simpa using hne
  rw [storedLink, storedLink, hq, contents_set_of_ne hk, hc]

theorem pendingPinned_settled (c : Cache 4096) : PendingPinned Settled c :=
  fun _ hk => hk.elim

theorem getPage_find {mp : Bool} (hg : getPage fd page mp p = .ok slot q) :
    q.hashTable.find fd page = some slot := by
  obtain ⟨hf, -, rfl⟩ | ⟨hf, v, w, ha, hr, rfl⟩ := getPage_ok hg
  · simpa [touch, BufferManager.setEntry] using hf
  · have hfv := find_internalAlloc ha hf
    obtain ⟨f, -, -, -, rfl⟩ := readPage_ok.mp hr
    exact HashTable.find_insert_self hfv

theorem allocatePage_find (ha : allocatePage fd page p = .ok (some slot) q) :
    q.hashTable.find fd page = some slot := by
  obtain ⟨_, -, hr, -⟩ | ⟨hf, slot', v, hr, hv, rfl⟩ := allocatePage_ok ha
  · simp at hr
  · obtain rfl := Option.some.inj hr
    exact HashTable.find_insert_self (find_internalAlloc hv hf)

theorem entry_of_find (hf : p.hashTable.find fd page = some slot) :
    p.cache.entry (fd, page) = some (p.bufferPool slot) :=
  cache_entry_eq_some.mpr ⟨slot, hf, rfl⟩

/-- Making room keeps the guarantees and every link. -/
theorem Holds.evict {c : Cache 4096} (h : Holds Settled fd N p) (he : Evict p.cache c) :
    Coherent nextFree Settled c ∧ Keeps nextFree p.cache c ∧
      ∀ page en, c.entry (fd, page) = some en → 0 ≤ page ∧ page < N ∧ 0 ≤ en.pin := by
  obtain ⟨hc, hk⟩ := he.keeps (cache_keyed (owned_iff.mp h.owned).named) h.coherent
    (pendingPinned_settled _)
  exact ⟨hc, hk, fun page en hen => h.cached page en (he.entry_some hen)⟩

/-- The entry of one page changes, the guarantees stay. -/
theorem holds_of_set {c : Cache 4096} {en : BufferEntry 4096} {N' : ℤ} (ho : Owned q)
    (hq : q.cache = c.set (fd, page) en) (hc : Coherent nextFree pending c)
    (hcached : ∀ page en, c.entry (fd, page) = some en → 0 ≤ page ∧ page < N ∧ 0 ≤ en.pin)
    (hN : N ≤ N') (hpage : 0 ≤ page ∧ page < N') (hpin : 0 ≤ en.pin)
    (hen : en.dirty = false → ¬ pending (fd, page) →
      ∃ b, c.disk.page fd page = some b ∧ nextFree b = nextFree en.data) :
    Holds pending fd N' q := by
  refine ⟨ho, ?_, ?_⟩
  · rw [hq]
    exact hc.set hen
  · intro page' en' hk
    rw [hq] at hk
    by_cases he : page' = page
    · subst he
      rw [set_entry_self] at hk
      obtain rfl := Option.some.inj hk
      exact ⟨hpage.1, hpage.2, hpin⟩
    · rw [set_entry_of_ne (by simpa using he)] at hk
      obtain ⟨h0, h1, h2⟩ := hcached page' en' hk
      exact ⟨h0, by omega, h2⟩

theorem Holds.getPage {mp : Bool} (h : Holds Settled fd N p) (hpage : 0 ≤ page ∧ page < N)
    (hg : getPage fd page mp p = .ok slot q) :
    Holds Settled fd N q ∧ Keeps nextFree p.cache q.cache ∧ 0 < (q.bufferPool slot).pin := by
  have ho := getPage_owned h.owned hg
  obtain ⟨en, hen, hc, hs⟩ | ⟨hnone, c, b, hev, hb, hc, hs⟩ :=
    getPage_cache (by decide) h.owned hg
  · have hpin := (h.cached page en hen).2.2
    refine ⟨?_, ?_, ?_⟩
    · exact holds_of_set ho hc h.coherent h.cached le_rfl hpage (Int.le_add_one hpin)
        (h.coherent _ en hen)
    · rw [hc]
      exact Keeps.set (contents_of_entry hen) rfl
    · rw [hs]
      exact Int.lt_add_one_of_le hpin
  · obtain ⟨hcoh, hkeep, hcached⟩ := h.evict hev
    refine ⟨?_, ?_, ?_⟩
    · exact holds_of_set ho hc hcoh hcached le_rfl hpage Int.one_nonneg fun _ _ => ⟨b, hb, rfl⟩
    · rw [hc]
      exact hkeep.trans (Keeps.set ((contents_of_none (hev.entry_none hnone)).trans hb) rfl)
    · rw [hs]
      exact Int.one_pos

/-- A page that is stored can be read, so a failed `getPage` has changed nothing. -/
theorem Holds.getPage_error {mp : Bool} (h : Holds Settled fd N p)
    (hv : storedLink p fd page = some v) (hg : BufferManager.getPage fd page mp p = .error e q) :
    q = p := by
  obtain hq | ⟨hf, slot, w, ha, hnone⟩ := getPage_error_unread hg
  · exact hq
  · obtain ⟨-, hkeep, -⟩ := h.evict (internalAlloc_cache (owned_iff.mp h.owned) ha)
    have hw := storedLink_of_keeps hkeep hv
    rw [storedLink, contents_of_none (cache_entry_eq_none.mpr (find_internalAlloc ha hf))] at hw
    simp [hnone] at hw

/-- The next page of the file: it is not in the pool, and is pending until it is written. -/
theorem Holds.allocatePage {r : Option ℕ} (h : Holds Settled fd N p) (hN : 0 ≤ N)
    (ha : allocatePage fd N p = .ok r q) :
    ∃ slot, r = some slot ∧ q.hashTable.find fd N = some slot ∧
      Holds (fun k => k = (fd, N)) fd (N + 1) q ∧
      ∀ page v, page ≠ N → storedLink p fd page = some v → storedLink q fd page = some v := by
  have ho := allocatePage_owned h.owned ha
  obtain ⟨-, -, hne⟩ | ⟨-, c, b, slot, rfl, hev, hc, -⟩ := allocatePage_cache h.owned ha
  · obtain ⟨en, hen⟩ := Option.ne_none_iff_exists'.mp hne
    have := h.cached N en hen
    omega
  · obtain ⟨hcoh, hkeep, hcached⟩ := h.evict hev
    refine ⟨slot, rfl, allocatePage_find ha, ?_, ?_⟩
    · exact holds_of_set ho hc (hcoh.mono fun _ hk => hk.elim) hcached (by omega) (by omega)
        Int.one_nonneg fun _ hk => absurd rfl hk
    · intro page v hne hv
      obtain ⟨b, hb, rfl⟩ := Option.map_eq_some_iff.mp hv
      obtain ⟨b', hb', he⟩ := hkeep _ b hb
      have hk : (fd, page) ≠ (fd, N) := by simpa using hne
      simp [storedLink, hc, contents_set_of_ne hk, hb', he]

/-- `markDirty` finds every page that is in the pool. -/
theorem markDirty_of_find (hf : p.hashTable.find fd page = some slot) :
    markDirty fd page p =
      .ok () ((p.setEntry slot { p.bufferPool slot with dirty := true }).touch slot) := by
  have hg : (get : Op 4096 (BufferManager 4096)) p = .ok p p := rfl
  rw [markDirty, bind_of_ok hg]
  simp only [hf]
  rfl

/-- Writing a page in the pool and marking it dirty settles it. -/
theorem Holds.write (h : Holds (fun k => k = (fd, page)) fd N p)
    (hf : p.hashTable.find fd page = some slot) (b : Block 4096) :
    ∃ q, markDirty fd page (p.setEntry slot { p.bufferPool slot with data := b }) = .ok () q ∧
      Holds Settled fd N q ∧ q.hashTable.find fd page = some slot ∧
      (q.bufferPool slot).pin = (p.bufferPool slot).pin ∧
      storedLink q fd page = some (nextFree b) ∧
      ∀ page', page' ≠ page → storedLink q fd page' = storedLink p fd page' := by
  have ho := owned_iff.mp h.owned
  let w := p.setEntry slot { p.bufferPool slot with data := b }
  have how : OwnedBut none w := ho.setEntry rfl rfl
  have hw : w.cache = p.cache.set (fd, page) { p.bufferPool slot with data := b } :=
    cache_setEntry ho.named hf _
  have hfw : w.hashTable.find fd page = some slot := hf
  have hm := markDirty_of_find hfw
  let q := (w.setEntry slot { w.bufferPool slot with dirty := true }).touch slot
  have hoq : Owned q := markDirty_owned (owned_iff.mpr how) hm
  have hen : w.bufferPool slot = { p.bufferPool slot with data := b } := by
    simp [w, BufferManager.setEntry]
  have hq : q.cache =
      p.cache.set (fd, page) { p.bufferPool slot with data := b, dirty := true } := by
    rw [cache_touch, cache_setEntry how.named hfw, hw, hen]
    simp [Cache.set]
  obtain ⟨h0, h1, hpin⟩ := h.cached page _ (entry_of_find hf)
  refine ⟨q, hm, ⟨hoq, ?_, ?_⟩, ?_, ?_, ?_, ?_⟩
  · intro k en hk hd _
    rw [hq] at hk ⊢
    by_cases he : k = (fd, page)
    · subst he
      rw [set_entry_self] at hk
      obtain rfl := Option.some.inj hk
      simp at hd
    · rw [set_entry_of_ne he] at hk
      exact h.coherent k en hk hd he
  · intro page' en hk
    rw [hq] at hk
    by_cases he : page' = page
    · subst he
      rw [set_entry_self] at hk
      obtain rfl := Option.some.inj hk
      exact ⟨h0, h1, hpin⟩
    · rw [set_entry_of_ne (by simpa using he)] at hk
      exact h.cached page' en hk
  · simpa [q, touch, BufferManager.setEntry] using hfw
  · simp [q, touch, hen, BufferManager.setEntry]
  · rw [storedLink, hq, contents_of_entry set_entry_self, Option.map_some]
  · intro page' hne
    exact storedLink_set_of_ne hq rfl hne

theorem Holds.mono (h : Holds Settled fd N p) : Holds pending fd N p :=
  ⟨h.owned, h.coherent.mono fun _ hk => hk.elim, h.cached⟩

theorem Holds.markDirty (h : Holds Settled fd N p) (hm : markDirty fd page p = .ok u q) :
    Holds Settled fd N q ∧ Keeps nextFree p.cache q.cache := by
  obtain ⟨en, hen, hc⟩ := markDirty_cache h.owned hm
  obtain ⟨h0, h1, hpin⟩ := h.cached page en hen
  refine ⟨?_, ?_⟩
  · exact holds_of_set (markDirty_owned h.owned hm) hc h.coherent h.cached le_rfl ⟨h0, h1⟩ hpin
      (by simp)
  · rw [hc]
    exact Keeps.set (contents_of_entry hen) rfl

theorem Holds.unpinPage (h : Holds Settled fd N p) (hp : unpinPage fd page p = .ok u q) :
    Holds Settled fd N q ∧ Keeps nextFree p.cache q.cache := by
  obtain ⟨en, hen, hne, hc⟩ := unpinPage_cache h.owned hp
  obtain ⟨h0, h1, hpin⟩ := h.cached page en hen
  refine ⟨?_, ?_⟩
  · exact holds_of_set (unpinPage_owned h.owned hp) hc h.coherent h.cached le_rfl ⟨h0, h1⟩
      (by dsimp only; omega) (h.coherent _ en hen)
  · rw [hc]
    exact Keeps.set (contents_of_entry hen) rfl

theorem unpinPage_of_find (hf : p.hashTable.find fd page = some slot)
    (hpin : (p.bufferPool slot).pin ≠ 0) : ∃ q, unpinPage fd page p = .ok () q := by
  cases hr : unpinPage fd page p with
  | ok _ q => exact ⟨q, rfl⟩
  | error e q =>
    obtain ⟨-, ⟨-, hnone⟩ | ⟨-, i, hi, h0⟩⟩ := unpinPage_error hr
    · simp [hf] at hnone
    · rw [hf] at hi
      obtain rfl := Option.some.inj hi
      exact absurd h0 hpin

/-- A client's write behind the link, through a pointer to any slot, used or not. -/
theorem Holds.poke (h : Holds Settled fd N p) (slot : ℕ) (i : Fin 4096) (hi : 4 ≤ i.val)
    (x : UInt8) :
    let q := p.setEntry slot { p.bufferPool slot with
      data := Function.update (p.bufferPool slot).data i x }
    Holds Settled fd N q ∧ Keeps nextFree p.cache q.cache := by
  intro q
  have ho : OwnedBut none q := (owned_iff.mp h.owned).setEntry rfl rfl
  have hlink : nextFree (Function.update (p.bufferPool slot).data i x) =
      nextFree (p.bufferPool slot).data := Block.getInt32_update x i (by omega)
  have hentry : ∀ k en, q.cache.entry k = some en → ∃ en', p.cache.entry k = some en' ∧
      en.dirty = en'.dirty ∧ en.pin = en'.pin ∧ nextFree en.data = nextFree en'.data := by
    intro k en hk
    obtain ⟨j, hj, rfl⟩ := cache_entry_eq_some.mp hk
    refine ⟨p.bufferPool j, cache_entry_eq_some.mpr ⟨j, hj, rfl⟩, ?_⟩
    by_cases he : j = slot
    · subst he
      simp [q, BufferManager.setEntry, hlink]
    · simp [q, BufferManager.setEntry, Function.update, he]
  refine ⟨⟨owned_iff.mpr ho, ?_, ?_⟩, ?_⟩
  · intro k en hk hd hp
    obtain ⟨en', hk', hdirty, -, hdata⟩ := hentry k en hk
    rw [hdata]
    exact h.coherent k en' hk' (hdirty ▸ hd) hp
  · intro page en hk
    obtain ⟨en', hk', -, hpin, -⟩ := hentry _ en hk
    rw [hpin]
    exact h.cached page en' hk'
  · intro k b hb
    cases hk : q.cache.entry k with
    | none =>
      have hk' : p.cache.entry k = none :=
        cache_entry_eq_none.mpr (cache_entry_eq_none.mp hk : q.hashTable.find k.1 k.2 = none)
      refine ⟨b, ?_, rfl⟩
      rw [contents_of_none hk]
      rw [contents_of_none hk'] at hb
      exact hb
    | some en =>
      obtain ⟨en', hk', -, -, hdata⟩ := hentry k en hk
      rw [contents_of_entry hk'] at hb
      obtain rfl := Option.some.inj hb
      exact ⟨en.data, contents_of_entry hk, hdata⟩

end AlphaDb.Io
