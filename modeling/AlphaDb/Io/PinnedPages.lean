import AlphaDb.Io.FreeList

/-! Pins and unsaved changes: how long a page whose bytes have changed stays in the pool, and when
it is written back. -/
namespace AlphaDb.Io

open EStateM BufferManager

namespace Cache

variable {n : ℕ} {β : Type} {obs : Block n → β} {pending : PageId → Prop} {c c' : Cache n}
  {k k' : PageId} {en : BufferEntry n} {b b' : Block n} {pin pin' : ℤ}

/-- The pin count of a page; a page outside the pool has no pins. -/
def pins (c : Cache n) (k : PageId) : ℤ := ((c.entry k).map BufferEntry.pin).getD 0

def dirtyAt (c : Cache n) (k : PageId) : Bool := (c.entry k).any BufferEntry.dirty

/-- Every page in the pool has a place in an open file. -/
def Writable (c : Cache n) : Prop :=
  ∀ k en, c.entry k = some en → (c.disk k.1).isSome = true ∧ 0 ≤ pageOffset n k.2

/-- The page is in the pool with these bytes and pins, as dirty as it was. -/
def hold (c : Cache n) (k : PageId) (b : Block n) (pin : ℤ) : Cache n :=
  c.set k ⟨c.dirtyAt k, k.1, k.2, b, pin⟩

theorem pins_of_entry (h : c.entry k = some en) : c.pins k = en.pin := by simp [pins, h]

theorem pins_of_none (h : c.entry k = none) : c.pins k = 0 := by simp [pins, h]

theorem dirtyAt_of_entry (h : c.entry k = some en) : c.dirtyAt k = en.dirty := by
  simp [dirtyAt, h]

theorem dirtyAt_of_none (h : c.entry k = none) : c.dirtyAt k = false := by simp [dirtyAt, h]

theorem pins_set_of_ne (h : k' ≠ k) : (c.set k en).pins k' = c.pins k' := by
  simp [pins, set_entry_of_ne h]

theorem entry_of_pins (h : 0 < c.pins k) : ∃ en, c.entry k = some en ∧ 0 < en.pin := by
  cases hk : c.entry k with
  | none =>
    rw [pins_of_none hk] at h
    exact absurd h (lt_irrefl 0)
  | some en => exact ⟨en, rfl, pins_of_entry hk ▸ h⟩

theorem pendingPinned_iff : PendingPinned pending c ↔ ∀ k, pending k → 0 < c.pins k := by
  constructor
  · intro h k hk
    obtain ⟨en, hen, hpos⟩ := h k hk
    rwa [pins_of_entry hen]
  · exact fun h k hk => entry_of_pins (h k hk)

section Hold

theorem entry_hold_self : (c.hold k b pin).entry k = some ⟨c.dirtyAt k, k.1, k.2, b, pin⟩ :=
  set_entry_self

@[simp] theorem pins_hold_self : (c.hold k b pin).pins k = pin := pins_of_entry entry_hold_self

@[simp] theorem dirtyAt_hold_self : (c.hold k b pin).dirtyAt k = c.dirtyAt k :=
  dirtyAt_of_entry entry_hold_self

@[simp] theorem contents_hold_self : (c.hold k b pin).contents k = some b :=
  contents_of_entry entry_hold_self

theorem set_set (en en' : BufferEntry n) : (c.set k en).set k en' = c.set k en' := by
  simp [set]

@[simp] theorem hold_hold : (c.hold k b pin).hold k b' pin' = c.hold k b' pin' := by
  rw [hold, dirtyAt_hold_self, hold, set_set, hold]

/-- An entry is the page as it is held. -/
theorem set_eq_hold (hk : c.Keyed) (hen : c.entry k = some en) (b : Block n) (pin : ℤ) :
    c.set k { en with data := b, pin := pin } = c.hold k b pin := by
  have hkey := hk k en hen
  rw [hold, dirtyAt_of_entry hen, ← hkey]

end Hold

section Evict

theorem Evict.pins_le (h : Evict c c') (k : PageId) : c.pins k ≤ c'.pins k := by
  cases h with
  | keep => exact le_rfl
  | @drop k' en d hen hpin _ =>
    by_cases he : k = k'
    · subst he
      rw [pins_of_entry hen, pins_of_none (by simp [Cache.drop])]
      exact hpin
    · simp [pins, Cache.drop, he]

theorem Evict.isSome_disk {fd : ℤ} (h : Evict c c') (hf : (c.disk fd).isSome = true) :
    (c'.disk fd).isSome = true := by
  cases h with
  | keep => exact hf
  | @drop k en d _ _ hw =>
    obtain ⟨-, rfl⟩ | ⟨-, hput⟩ := hw
    · exact hf
    · obtain ⟨f, -, -, rfl⟩ := putPage_eq_some.mp hput
      by_cases he : fd = en.fd
      · subst he
        simp [Cache.drop]
      · simpa [Cache.drop, he] using hf

theorem Evict.writable (h : Evict c c') (hw : Writable c) : Writable c' := by
  intro k en hk
  obtain ⟨hf, ho⟩ := hw k en (h.entry_some hk)
  exact ⟨h.isSome_disk hf, ho⟩

theorem Writable.set (h : Writable c) (hf : (c.disk k.1).isSome = true)
    (ho : 0 ≤ pageOffset n k.2) : Writable (c.set k en) := by
  intro k' en' hk'
  by_cases he : k' = k
  · subst he
    exact ⟨hf, ho⟩
  · rw [set_entry_of_ne he] at hk'
    exact h k' en' hk'

end Evict

/-- A page that is neither dirty nor pending is on disk, as far as `obs` can see. -/
theorem Coherent.onDisk (h : Coherent obs pending c) (hb : c.contents k = some b)
    (hd : c.dirtyAt k = false) (hk : ¬ pending k) :
    ∃ b', c.disk.page k.1 k.2 = some b' ∧ obs b' = obs b := by
  cases hen : c.entry k with
  | none =>
    rw [contents_of_none hen] at hb
    exact ⟨b, hb, rfl⟩
  | some en =>
    rw [contents_of_entry hen] at hb
    obtain rfl := Option.some.inj hb
    rw [dirtyAt_of_entry hen] at hd
    exact h k en hen hd hk

end Cache

open Cache

variable {n : ℕ} {pending : PageId → Prop} {fd page : ℤ} {p q : BufferManager n} {c : Cache n}
  {k : PageId} {en : BufferEntry n} {slot : ℕ}

/-- A pool that loses nothing: pages with unsaved changes are pending, and pinned; every page can
be written back. -/
structure Serves (pending : PageId → Prop) (fd : ℤ) (p : BufferManager n) : Prop where
  owned : Owned p
  coherent : Coherent id pending p.cache
  pinned : PendingPinned pending p.cache
  writable : Writable p.cache
  file : (p.disk fd).isSome = true

theorem Serves.keyed (h : Serves pending fd p) : p.cache.Keyed :=
  cache_keyed (owned_iff.mp h.owned).named

theorem Serves.mono {pending' : PageId → Prop} (h : Serves pending fd p)
    (hp : ∀ k, pending k → pending' k) (hpin : ∀ k, pending' k → 0 < p.cache.pins k) :
    Serves pending' fd p :=
  ⟨h.owned, h.coherent.mono hp, pendingPinned_iff.mpr hpin, h.writable, h.file⟩

/-- Making room changes no contents. -/
theorem Serves.evict (h : Serves pending fd p) (hev : Evict p.cache c) :
    Coherent id pending c ∧ ∀ k b, p.cache.contents k = some b → c.contents k = some b := by
  obtain ⟨hc, hk⟩ := hev.keeps h.keyed h.coherent h.pinned
  refine ⟨hc, ?_⟩
  intro k b hb
  obtain ⟨b', hb', he⟩ := hk k b hb
  exact (show b' = b from he) ▸ hb'

/-- Room is made, and one page gets an entry. -/
theorem Serves.set (h : Serves pending fd p) (ho : Owned q) (hev : Evict p.cache c)
    (hq : q.cache = c.set k en) (hfile : (c.disk k.1).isSome = true)
    (hplace : 0 ≤ pageOffset n k.2) (hpin : pending k → 0 < en.pin)
    (hen : en.dirty = false → ¬ pending k → c.disk.page k.1 k.2 = some en.data) :
    Serves pending fd q ∧
      ∀ k', k' ≠ k → p.cache.pins k' ≤ q.cache.pins k' ∧
        ∀ b, p.cache.contents k' = some b → q.cache.contents k' = some b := by
  obtain ⟨hcoh, hcont⟩ := h.evict hev
  have hdisk : q.disk = c.disk := congrArg Cache.disk hq
  refine ⟨⟨ho, ?_, ?_, ?_, ?_⟩, ?_⟩
  · rw [hq]
    exact hcoh.set fun hd hk => ⟨_, hen hd hk, rfl⟩
  · rw [hq]
    exact (hev.pendingPinned h.pinned).set hpin
  · rw [hq]
    exact (hev.writable h.writable).set hfile hplace
  · rw [hdisk]
    exact hev.isSome_disk h.file
  · intro k' hne
    rw [hq, pins_set_of_ne hne]
    refine ⟨hev.pins_le k', ?_⟩
    intro b hb
    rw [contents_set_of_ne hne]
    exact hcont k' b hb

/-- A page that is fetched gets one more pin. -/
theorem getPage_hold {mp : Bool} (hn : 0 < n) (h : Owned p)
    (hg : getPage fd page mp p = .ok slot q) :
    ∃ c b, Evict p.cache c ∧ c.contents (fd, page) = some b ∧
      c.dirtyAt (fd, page) = p.cache.dirtyAt (fd, page) ∧
      q.cache = c.hold (fd, page) b (c.pins (fd, page) + 1) := by
  obtain ⟨en, hen, hc, -⟩ | ⟨hnone, c, b, hev, hb, hc, -⟩ := getPage_cache hn h hg
  · refine ⟨p.cache, en.data, .keep _, contents_of_entry hen, rfl, ?_⟩
    rw [hc, pins_of_entry hen]
    exact set_eq_hold (cache_keyed (owned_iff.mp h).named) hen en.data (en.pin + 1)
  · have hnone' := hev.entry_none hnone
    refine ⟨c, b, hev, (contents_of_none hnone').trans hb, ?_, ?_⟩
    · rw [dirtyAt_of_none hnone', dirtyAt_of_none hnone]
    · rw [hc, hold, dirtyAt_of_none hnone', pins_of_none hnone', zero_add]

theorem unpinPage_hold {u : Unit} (h : Owned p) (hu : unpinPage fd page p = .ok u q) :
    ∃ b, p.cache.contents (fd, page) = some b ∧ p.cache.pins (fd, page) ≠ 0 ∧
      q.cache = p.cache.hold (fd, page) b (p.cache.pins (fd, page) - 1) := by
  obtain ⟨en, hen, hpin, hc⟩ := unpinPage_cache h hu
  refine ⟨en.data, contents_of_entry hen, ?_, ?_⟩
  · rwa [pins_of_entry hen]
  · rw [hc, pins_of_entry hen]
    exact set_eq_hold (cache_keyed (owned_iff.mp h).named) hen en.data (en.pin - 1)

/-- The page is in the pool, or a buffer is free or unpinned. -/
def CanHold (p : BufferManager n) (fd page : ℤ) : Prop :=
  p.hashTable.find fd page ≠ none ∨ p.freeList ≠ [] ∨ p.victim ≠ none

instance (p : BufferManager n) (fd page : ℤ) : Decidable (CanHold p fd page) :=
  inferInstanceAs (Decidable (_ ∨ _ ∨ _))

theorem Serves.writeBack (h : Serves pending fd p) (hen : p.cache.entry k = some en) :
    ∃ t, BufferManager.writeBack en p = .ok () t := by
  obtain ⟨hf, ho⟩ := h.writable k en hen
  rw [← h.keyed k en hen] at hf ho
  obtain ⟨f, hf⟩ := Option.isSome_iff_exists.mp hf
  obtain ⟨d, hd⟩ : ∃ d, p.disk.putPage en.fd en.page en.data = some d :=
    ⟨_, putPage_eq_some.mpr ⟨f, hf, ho, rfl⟩⟩
  unfold BufferManager.writeBack
  split
  · exact ⟨_, writePage_ok.mpr ⟨d, hd, rfl⟩⟩
  · exact ⟨p, rfl⟩

/-- With a buffer that is free or unpinned there is room. -/
theorem Serves.internalAlloc (h : Serves pending fd p)
    (hroom : p.freeList ≠ [] ∨ p.victim ≠ none) :
    ∃ slot q, BufferManager.internalAlloc p = .ok slot q := by
  have hg : (get : Op n (BufferManager n)) p = .ok p p := rfl
  rw [BufferManager.internalAlloc, bind_of_ok hg]
  cases hfree : p.freeList with
  | cons slot rest => exact ⟨slot, _, rfl⟩
  | nil =>
    obtain ⟨slot, hv⟩ : ∃ slot, p.victim = some slot := by
      rcases hroom with hroom | hroom
      · exact absurd hfree hroom
      · exact Option.ne_none_iff_exists'.mp hroom
    have hfind := used_cached (owned_iff.mp h.owned) (victim_used hv).1
    have hen : p.cache.entry ((p.bufferPool slot).fd, (p.bufferPool slot).page) =
        some (p.bufferPool slot) := cache_entry_eq_some.mpr ⟨slot, hfind, rfl⟩
    obtain ⟨t, ht⟩ := h.writeBack hen
    simp only [hv]
    rw [bind_of_ok ht]
    exact ⟨slot, _, rfl⟩

/-- A page that is stored is fetched if the pool can hold it. -/
theorem Serves.getPage {b : Block n} (h : Serves pending fd p)
    (hb : p.cache.contents (fd, page) = some b) (hroom : CanHold p fd page) :
    ∃ slot q, BufferManager.getPage fd page true p = .ok slot q := by
  have hg : (get : Op n (BufferManager n)) p = .ok p p := rfl
  rw [BufferManager.getPage, bind_of_ok hg]
  cases hf : p.hashTable.find fd page with
  | some slot => exact ⟨slot, _, rfl⟩
  | none =>
    obtain ⟨slot, v, ha⟩ := h.internalAlloc (hroom.resolve_left (not_not.mpr hf))
    have hpage := (h.evict (internalAlloc_cache (owned_iff.mp h.owned) ha)).2 _ b hb
    rw [contents_of_none (cache_entry_eq_none.mpr (find_internalAlloc ha hf))] at hpage
    simp only
    rw [bind_of_ok ha]
    cases hr : readPage fd page slot v with
    | ok _ w =>
      rw [bind_of_ok hr]
      exact ⟨slot, _, rfl⟩
    | error e w =>
      have hnone := (readPage_error hr).2
      rw [cache_disk, hnone] at hpage
      cases hpage

end AlphaDb.Io
