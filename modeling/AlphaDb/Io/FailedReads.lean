import AlphaDb.Io.IdleSlots
import AlphaDb.Io.PinnedPages
import AlphaDb.Io.StoreRuns

/-! Runs of a pool in which reads fail, against a plain page store: when the slot that a failed read
leaves behind does no harm. -/
namespace AlphaDb.Io

open EStateM Trace BufferManager Cache

namespace BufferManager

variable {n : ℕ} {p q : BufferManager n} {fd page : ℤ} {slot : ℕ} {e : Error} {u : Unit}

/-- What a `getPage` has done when its read throws: a slot was taken, and `data` is left in it. -/
def failedRead (data : Block n) : Op n Unit := do
  let slot ← internalAlloc
  modify fun s => s.setEntry slot { s.bufferPool slot with data := data }

theorem failedRead_ok {data : Block n} (h : failedRead data p = .ok u q) :
    ∃ slot v, internalAlloc p = .ok slot v ∧
      q = v.setEntry slot { v.bufferPool slot with data := data } := by
  obtain ⟨slot, v, ha, hm⟩ := bind_ok_iff.mp h
  exact ⟨slot, v, ha, (modify_ok_iff.mp hm).symm⟩

theorem readPage_throws (h : readPage fd page slot p = .error e q) :
    ∃ data, q = p.setEntry slot { p.bufferPool slot with data := data } := by
  have hself : p = p.setEntry slot { p.bufferPool slot with data := (p.bufferPool slot).data } := by
    simp [BufferManager.setEntry]
  unfold readPage at h
  split at h
  · injection h with _ h
    exact ⟨_, h.symm.trans hself⟩
  · split at h
    · injection h with _ h
      exact ⟨_, h.symm.trans hself⟩
    · dsimp only at h
      split at h
      · cases h
      · injection h with _ h
        exact ⟨_, h.symm⟩

/-- A `getPage` on a page outside the pool that throws has changed nothing, or its read threw. -/
theorem getPage_throws {mp : Bool} (hf : p.hashTable.find fd page = none)
    (h : getPage fd page mp p = .error e q) : q = p ∨ ∃ data, failedRead data p = .ok () q := by
  have hg : (get : Op n (BufferManager n)) p = .ok p p := rfl
  rw [getPage, bind_of_ok hg] at h
  simp only [hf] at h
  obtain ha | ⟨slot, v, ha, h⟩ := bind_error_iff.mp h
  · exact Or.inl (internalAlloc_error ha).1
  · obtain hr | ⟨_, _, _, h⟩ := bind_error_iff.mp h
    · obtain ⟨data, rfl⟩ := readPage_throws hr
      exact Or.inr ⟨data, bind_ok_iff.mpr ⟨slot, v, ha, rfl⟩⟩
    · obtain h | ⟨_, _, _, h⟩ := bind_error_iff.mp h
      · exact absurd h modify_ne_error
      · exact absurd h pure_ne_error

/-- After a failed read into a spare slot the slot is idle, and no other page lost its place. -/
theorem failedRead_idle {data : Block n} (h : OwnedOrIdle none p)
    (hs : ∀ slot ∈ p.taken, p.Spare slot) (hr : failedRead data p = .ok u q) :
    OwnedOrIdle none q ∧ Evict p.cache q.cache ∧
      ∃ slot, p.taken = some slot ∧ q.Idle slot ∧ (q.bufferPool slot).pin = 0 := by
  obtain ⟨slot, v, ha, rfl⟩ := failedRead_ok hr
  have htaken := internalAlloc_taken ha
  have hspare := hs slot htaken
  obtain ⟨hv, hu, hev⟩ := internalAlloc_idle h ha
  have hpool : v.bufferPool = p.bufferPool := (internalAlloc_front ha).choose_spec.2.2
  have hq := hv.setHole { v.bufferPool slot with data := data }
  have hpin : ((v.setEntry slot { v.bufferPool slot with
      data := data }).bufferPool slot).pin = 0 := by
    simpa [BufferManager.setEntry, hpool] using hspare.2.1
  refine ⟨hq.abandon ?_ ?_ hpin, ?_, slot, htaken, ⟨hu, ?_⟩, hpin⟩
  · simpa [BufferManager.setEntry, hpool] using internalAlloc_forgets h hspare ha
  · simpa [BufferManager.setEntry, hpool] using hspare.1
  · rw [cache_setHole hv.named]
    exact hev
  · intro fd page hf
    exact (hq.named fd page slot hf).2.1 rfl

/-- What an idle slot still carries is clean, and in no slot. -/
theorem OwnedOrIdle.of_idle {i : ℕ} (h : OwnedOrIdle none p) (hi : p.Idle i) :
    p.hashTable.find (p.bufferPool i).fd (p.bufferPool i).page = none ∧
      (p.bufferPool i).dirty = false ∧ (p.bufferPool i).pin = 0 := by
  rcases h.idle i hi.1 (by simp) with hf | hidle
  · exact absurd hf (hi.2 _ _)
  · exact hidle

/-- Handing out an idle slot writes nothing and forgets no page. -/
theorem internalAlloc_of_idle {i : ℕ} (h : OwnedOrIdle none p) (hi : p.Idle i)
    (ha : internalAlloc p = .ok i q) :
    q.disk = p.disk ∧ ∀ fd page, q.hashTable.find fd page = p.hashTable.find fd page := by
  obtain ⟨hnone, hclean, -⟩ := h.of_idle hi
  obtain ⟨rest, hf, rfl⟩ | ⟨-, hv, d, hd, rfl⟩ := internalAlloc_ok ha
  · exact absurd (by simp [hf]) (used_nodup_free h.slots hi.1)
  · obtain ⟨-, rfl⟩ | ⟨hdirty, -⟩ := hd
    swap
    · simp [hclean] at hdirty
    refine ⟨by simp [BufferManager.hashRemove], ?_⟩
    intro fd page
    simp only [insertUsed_hashTable, remove_hashTable, BufferManager.hashRemove]
    exact find_remove_absent hnone

/-- So does flushing it. -/
theorem flushSlot_of_idle {i : ℕ} (h : OwnedOrIdle none p) (hi : p.Idle i)
    (hf : flushSlot fd i p = .ok u q) :
    q.disk = p.disk ∧ ∀ fd page, q.hashTable.find fd page = p.hashTable.find fd page := by
  obtain ⟨hnone, hclean, -⟩ := h.of_idle hi
  obtain ⟨-, rfl⟩ | ⟨-, -, d, hd, rfl⟩ := flushSlot_ok hf
  · exact ⟨rfl, fun _ _ => rfl⟩
  · obtain ⟨-, rfl⟩ | ⟨hdirty, -⟩ := hd
    swap
    · simp [hclean] at hdirty
    refine ⟨release_disk _, ?_⟩
    intro fd page
    rw [release_hashTable]
    exact find_remove_absent hnone

/-- An idle slot is handed out when all others are taken. -/
theorem internalAlloc_idle_slot {i : ℕ} (h : OwnedOrIdle none p) (hi : p.Idle i)
    (hfree : p.freeList = [])
    (hpins : ∀ j ∈ p.usedList.toList, j ≠ i → (p.bufferPool j).pin ≠ 0) :
    ∃ q, internalAlloc p = .ok i q := by
  obtain ⟨-, hclean, hpin⟩ := h.of_idle hi
  obtain ⟨j, hv⟩ := Option.ne_none_iff_exists'.mp (victim_ne_none hi.1 hpin)
  obtain ⟨hu, hp⟩ := victim_used hv
  obtain rfl : j = i := by
    by_contra hne
    exact hpins j hu hne hp
  have hg : (get : Op n (BufferManager n)) p = .ok p p := rfl
  have hw : writeBack (p.bufferPool j) p = .ok () p := by
    unfold writeBack
    rw [if_neg (by simp [hclean])]
    rfl
  rw [internalAlloc, bind_of_ok hg]
  simp only [hfree, hv]
  rw [bind_of_ok hw]
  exact ⟨_, rfl⟩

end BufferManager

/-- Calls of the pool in which a read may fail; a failed read leaves any bytes in its slot. -/
inductive ReadCall (n : ℕ)
  | call (c : StoreCall n)
  | failedRead (fd page : ℤ) (data : Block n)
  | flushPages (fd : ℤ)

namespace StoreRun

variable {n : ℕ} {s t : StoreRun n} {fd page : ℤ}

/-- The store takes no notice of a failed read. A flush may return or throw. -/
def readStep (s : StoreRun n) : ReadCall n → Option (StoreRun n)
  | .call c => step s c
  | .failedRead fd page data =>
    if s.pool.hashTable.InRange fd page ∧ s.pool.hashTable.find fd page = none then
      match BufferManager.failedRead data s.pool with
      | .ok _ t => some { s with pool := t }
      | .error _ _ => none
    else none
  | .flushPages fd => some { s with pool := after (BufferManager.flushPages fd) s.pool }

/-- A read fails only into a spare slot, no page is put beside an idle slot that still names it, and
a flush meets no free slot that still carries its descriptor. -/
def Careful (s : StoreRun n) : ReadCall n → Prop
  | .call (.getPage fd page _) | .call (.allocatePage fd page) =>
    s.pool.hashTable.find fd page = none → s.pool.Unnamed fd page
  | .failedRead _ _ _ => ∀ slot ∈ s.pool.taken, s.pool.Spare slot
  | .flushPages fd => FlushesUsed s.pool (.flushPages fd)
  | .call _ => True

instance (c : ReadCall n) : Decidable (Careful s c) :=
  match c with
  | .call (.getPage fd page _) | .call (.allocatePage fd page) =>
    inferInstanceAs (Decidable (s.pool.hashTable.find fd page = none → s.pool.Unnamed fd page))
  | .failedRead _ _ _ => inferInstanceAs (Decidable (∀ slot ∈ s.pool.taken, s.pool.Spare slot))
  | .flushPages fd => inferInstanceAs (Decidable (FlushesUsed s.pool (.flushPages fd)))
  | .call (.unpinPage _ _) | .call (.forcePage _ _) | .call (.markDirty _ _)
  | .call (.write _ _ _) => isTrue trivial

/-- Slots and pages are in order, but for idle slots. -/
structure Sound (s : StoreRun n) : Prop where
  owned : OwnedOrIdle none s.pool
  mirrors : Mirrors s.pending s.store s.pool.cache

theorem Sound.keyed (h : Sound s) : s.pool.cache.Keyed := cache_keyed h.owned.named

theorem sound_init (poolSize : ℕ) (raw : ℕ → BufferEntry n) (disk : Disk) :
    Sound (init poolSize raw disk) := by
  have h := refines_init poolSize raw disk
  exact ⟨(owned_iff.mp h.owned).ownedOrIdle, h.mirrors⟩

section Steps

variable {q : BufferManager n} {slot : ℕ} {u : Unit}

/-- What `getPage` hands out is what the store has. -/
theorem Sound.getPage {mp : Bool} (hn : 0 < n) (h : Sound s)
    (hg : getPage fd page mp s.pool = .ok slot q) : Mirrors s.pending s.store q.cache ∧
      ∀ b, s.store (fd, page) = some b → (q.bufferPool slot).data = b :=
  mirrors_getPage h.mirrors h.keyed (getPage_entry hn h.owned hg)

theorem Sound.allocatePage (h : Sound s)
    (hname : s.pool.hashTable.find fd page = none → s.pool.Unnamed fd page)
    (ha : allocatePage fd page s.pool = .ok (some slot) q) :
    Sound
      { pool := q
        store := Function.update s.store (fd, page) (some (q.bufferPool slot).data)
        pending := Function.update s.pending (fd, page) true } := by
  obtain ⟨ho, ⟨hr, -⟩ | ⟨c, b, slot', hr, hev, hc, hs⟩⟩ := allocatePage_idle h.owned hname ha
  · cases hr
  · obtain rfl := Option.some.inj hr
    refine ⟨ho, ?_⟩
    dsimp only
    rw [hs, hc]
    exact (h.mirrors.evict h.keyed hev).replace _ Int.one_pos

theorem Sound.write (h : Sound s) (hf : s.pool.hashTable.find fd page = some slot)
    (hpin : 0 < (s.pool.bufferPool slot).pin) (data : Block n) :
    Sound
      { pool := s.pool.setEntry slot { s.pool.bufferPool slot with data := data }
        store := Function.update s.store (fd, page) (some data)
        pending := Function.update s.pending (fd, page) true } := by
  refine ⟨h.owned.setEntry hf rfl rfl, ?_⟩
  dsimp only
  rw [cache_setEntry h.owned.named hf]
  exact h.mirrors.replace { s.pool.bufferPool slot with data := data } hpin

theorem Sound.failedRead {data : Block n} (h : Sound s)
    (hs : ∀ slot ∈ s.pool.taken, s.pool.Spare slot)
    (hr : BufferManager.failedRead data s.pool = .ok u q) : Sound { s with pool := q } := by
  obtain ⟨ho, hev, -⟩ := failedRead_idle h.owned hs hr
  exact ⟨ho, h.mirrors.evict h.keyed hev⟩

theorem Sound.flushPages (h : Sound s) (hr : FlushesUsed s.pool (.flushPages fd)) :
    Sound { s with pool := after (BufferManager.flushPages fd) s.pool } := by
  obtain ⟨ho, hev⟩ := flushSlots_idle h.owned List.nodup_range
    (fun i hi => List.mem_range.mp hi) hr
  exact ⟨ho, h.mirrors.evicts h.keyed hev⟩

end Steps

/-- Every careful call keeps slots and pages in order. -/
theorem sound_step (hn : 0 < n) : TrInv (Guarded Careful (readStep (n := n))) Sound := by
  rintro s c t ⟨hcare, hs⟩ h
  cases c with
  | failedRead fd page data =>
    simp only [readStep] at hs
    split at hs
    · split at hs
      · next hr =>
        obtain rfl := Option.some.inj hs
        exact h.failedRead hcare hr
      · simp at hs
    · simp at hs
  | flushPages fd =>
    obtain rfl := Option.some.inj hs
    exact h.flushPages hcare
  | call c =>
    cases c with
    | getPage fd page mp =>
      rcases step_getPage hs with rfl | ⟨slot, q, hg, rfl⟩
      · exact h
      · exact ⟨getPage_idle h.owned hcare hg, (h.getPage hn hg).1⟩
    | allocatePage fd page =>
      rcases step_allocatePage hs with rfl | ⟨slot, q, ha, rfl⟩
      · exact h
      · exact h.allocatePage hcare ha
    | unpinPage fd page =>
      rcases step_unpinPage hs with rfl | ⟨hlast, u, q, hp, rfl⟩
      · exact h
      · obtain ⟨ho, en, hen, hcache⟩ := unpinPage_idle h.owned hp
        refine ⟨ho, ?_⟩
        dsimp only
        rw [hcache]
        exact h.mirrors.repin hen (pos_of_not_lastPin hen hlast)
    | forcePage fd page =>
      obtain ⟨hpage, u, q, hf, rfl⟩ := step_forcePage hs
      have hx := get_bind_ok_iff.mp hf
      obtain ⟨ho, hsync⟩ := forceSlots_idle (by omega) h.owned (fun i hi => hi) hx
      exact ⟨ho, h.mirrors.syncs hsync⟩
    | markDirty fd page =>
      rcases step_markDirty hs with rfl | ⟨u, q, hm, rfl⟩
      · exact h
      · obtain ⟨ho, en, hen, hcache⟩ := markDirty_idle h.owned hm
        refine ⟨ho, ?_⟩
        dsimp only
        rw [hcache]
        exact h.mirrors.markDirty hen
    | write fd page data =>
      obtain ⟨slot, hf, hpin, rfl⟩ := step_write hs
      exact h.write hf hpin data

section Outcome

variable {q : BufferManager n} {slot : ℕ} {e : Error}

/-- A stored page is fetched if the pool can hold it, unless the page that has to go cannot be
written back. -/
theorem Sound.getPage_returns {b : Block n} (h : Sound s) (hb : s.store (fd, page) = some b)
    (hroom : CanHold s.pool fd page) :
    (∃ slot q, BufferManager.getPage fd page true s.pool = .ok slot q) ∨
      ∃ e, e.isIo = true ∧ BufferManager.getPage fd page true s.pool = .error e s.pool := by
  cases hg : BufferManager.getPage fd page true s.pool with
  | ok slot q => exact Or.inl ⟨slot, q, rfl⟩
  | error e q =>
    right
    obtain hio | ⟨-, ⟨-, i, -, hmp, -⟩ | ⟨-, hf, hfree, hv⟩⟩ := getPage_error hg
    · obtain rfl | ⟨hf, slot, v, ha, hnone⟩ := getPage_error_unread hg
      · exact ⟨e, hio, rfl⟩
      · -- the read cannot fail: the page is on disk
        obtain ⟨-, -, hev⟩ := internalAlloc_idle h.owned ha
        have hstored := (h.mirrors.evict h.keyed hev).holds _ b hb
        rw [contents_of_none (cache_entry_eq_none.mpr (find_internalAlloc ha hf))] at hstored
        exact absurd (hstored.symm.trans hnone) (by simp)
    · cases hmp
    · rcases hroom with hroom | hroom | hroom
      · exact absurd hf hroom
      · exact absurd hfree hroom
      · exact absurd hv hroom

/-- After a failed read the store is the same, and its slot is room again. -/
theorem Sound.failedRead_room {data : Block n} (h : Sound s)
    (hcare : Careful s (.failedRead fd page data))
    (hs : readStep s (.failedRead fd page data) = some t) :
    t.store = s.store ∧ (∀ fd' page', CanHold t.pool fd' page') ∧
      ∃ slot, s.pool.taken = some slot ∧ t.pool.Idle slot := by
  simp only [readStep] at hs
  split at hs
  swap
  · simp at hs
  split at hs
  · next hr =>
    obtain rfl := Option.some.inj hs
    obtain ⟨-, -, slot, htaken, hidle, hpin⟩ := failedRead_idle h.owned hcare hr
    exact ⟨rfl, fun _ _ => Or.inr (Or.inr (victim_ne_none hidle.1 hpin)), slot, htaken, hidle⟩
  · simp at hs

end Outcome

/-- Reads that fail, over whole runs of careful calls: every `getPage` hands out the bytes the page
was last written with, as long as there is room; a read that throws is such a step, and after it
there is room for every page; the slot it leaves behind has nothing to write back, handing it out or
flushing it writes nothing and forgets no page, and it is handed out when all others are taken. -/
theorem run_failed_reads {poolSize : ℕ} {raw : ℕ → BufferEntry n} {disk : Disk}
    {calls : List (ReadCall n)} (hn : 0 < n)
    (h : MTr (Guarded Careful readStep) (init poolSize raw disk) calls s) :
    (∀ fd page mp slot q b, getPage fd page mp s.pool = .ok slot q →
      s.store (fd, page) = some b → (q.bufferPool slot).data = b) ∧
    (∀ fd page b, s.store (fd, page) = some b → CanHold s.pool fd page →
      (∃ slot q, getPage fd page true s.pool = .ok slot q) ∨
        ∃ e, e.isIo = true ∧ getPage fd page true s.pool = .error e s.pool) ∧
    (∀ fd page mp e q, s.pool.hashTable.InRange fd page → s.pool.hashTable.find fd page = none →
      getPage fd page mp s.pool = .error e q → q = s.pool ∨
        ∃ data, readStep s (.failedRead fd page data) = some { s with pool := q }) ∧
    (∀ fd page data t, Careful s (.failedRead fd page data) →
      readStep s (.failedRead fd page data) = some t →
      t.store = s.store ∧ (∀ fd' page', CanHold t.pool fd' page') ∧
        ∃ slot, s.pool.taken = some slot ∧ t.pool.Idle slot) ∧
    ∀ i, s.pool.Idle i → (s.pool.bufferPool i).dirty = false ∧
      (∀ q, internalAlloc s.pool = .ok i q ∨ (∃ fd, flushSlot fd i s.pool = .ok () q) →
        q.disk = s.pool.disk ∧
          ∀ fd page, q.hashTable.find fd page = s.pool.hashTable.find fd page) ∧
      (s.pool.freeList = [] →
        (∀ j ∈ s.pool.usedList.toList, j ≠ i → (s.pool.bufferPool j).pin ≠ 0) →
        ∃ q, internalAlloc s.pool = .ok i q) := by
  have hs := mTr_trInv (sound_step hn) h (sound_init poolSize raw disk)
  refine ⟨?_, fun fd page b => hs.getPage_returns, ?_, fun fd page data t => hs.failedRead_room, ?_⟩
  · intro fd page mp slot q b hg hb
    exact (hs.getPage hn hg).2 b hb
  · intro fd page mp e q hrange hf hg
    obtain rfl | ⟨data, hr⟩ := getPage_throws hf hg
    · exact Or.inl rfl
    · right
      refine ⟨data, ?_⟩
      simp only [readStep, hrange, hf, and_self, if_true, hr]
  · intro i hi
    refine ⟨(hs.owned.of_idle hi).2.1, ?_, internalAlloc_idle_slot hs.owned hi⟩
    rintro q (ha | ⟨fd, hf⟩)
    · exact internalAlloc_of_idle hs.owned hi ha
    · exact flushSlot_of_idle hs.owned hi hf

/-- One buffer over a file of one page and ten bytes more. -/
def shortFile : StoreRun 4096 :=
  init 1 (fun _ => ⟨false, 0, 0, fun _ => 0, 0⟩) fun _ => some ⟨2 * 4096 + 10, fun _ => 0⟩

/-- The first byte of the page that a call hands out. -/
def firstByte (r : Result Error (BufferManager 4096) ℕ) : Option UInt8 :=
  match r with
  | .ok slot q => some ((q.bufferPool slot).data 0)
  | .error _ _ => none

theorem firstByte_eq_some {r : Result Error (BufferManager 4096) ℕ} {x : UInt8} :
    firstByte r = some x ↔ ∃ slot q, r = .ok slot q ∧ (q.bufferPool slot).data 0 = x := by
  cases r <;> simp [firstByte]

/-- A clean page gives way to a failed read, and is read again. -/
theorem run_failed_reads_clean : ∃ s : StoreRun 4096,
    MTr (Guarded Careful readStep) shortFile
      [.call (.getPage 3 0 true), .call (.unpinPage 3 0), .failedRead 3 1 fun _ => 9] s ∧
    ∃ slot q, getPage 3 0 true s.pool = .ok slot q ∧ (q.bufferPool slot).data 0 = 0 := by
  have h : (execGuarded Careful readStep shortFile
      [.call (.getPage 3 0 true), .call (.unpinPage 3 0), .failedRead 3 1 fun _ => 9]).any
        (fun s => (s.store (3, 0)).any (fun b => b 0 = 0) ∧
          (getPage 3 0 true s.pool).returned) = true := by
    decide +kernel
  obtain ⟨s, hs, hp⟩ := exists_mTr_of_execGuarded h
  obtain ⟨hstore, hget⟩ := of_decide_eq_true hp
  obtain ⟨b, hb, hb0⟩ := (Option.any_eq_true _ _).mp hstore
  obtain ⟨slot, q, hq⟩ := returned_iff.mp hget
  obtain ⟨hread, -⟩ := run_failed_reads (by decide) hs
  refine ⟨s, hs, slot, q, hq, ?_⟩
  rw [hread 3 0 true slot q b hq hb]
  simpa using hb0

/-- Page 0 was written and marked dirty. It gives way to a read that fails after ten bytes, and
those ten bytes are then written to page 0. -/
theorem failed_read_overwrites : ∃ (s : StoreRun 4096) (t : BufferManager 4096),
    MTr (fun s a t => step s a = some t) shortFile
      [.getPage 3 0 true, .write 3 0 fun _ => 7, .markDirty 3 0, .unpinPage 3 0] s ∧
    getPage 3 1 true s.pool = .error .incompleteReadError t ∧
    (∃ slot q, getPage 3 0 true s.pool = .ok slot q ∧ (q.bufferPool slot).data 0 = 7) ∧
    ∃ slot q, getPage 3 0 true t = .ok slot q ∧ (q.bufferPool slot).data 0 = 0 := by
  have h : (exec step shortFile
      [.getPage 3 0 true, .write 3 0 fun _ => 7, .markDirty 3 0, .unpinPage 3 0]).any (fun s =>
        (getPage 3 1 true s.pool).thrown = some .incompleteReadError ∧
          firstByte (getPage 3 0 true s.pool) = some 7 ∧
          firstByte (getPage 3 0 true (after (getPage 3 1 true) s.pool)) = some 0) = true := by
    decide +kernel
  obtain ⟨s, hs, hp⟩ := exists_mTr_of_exec h
  obtain ⟨hthrow, hbefore, hafter⟩ := of_decide_eq_true hp
  obtain ⟨t, ht⟩ := thrown_eq_some_iff.mp hthrow
  simp only [after, ht] at hafter
  exact ⟨s, t, hs, ht, firstByte_eq_some.mp hbefore, firstByte_eq_some.mp hafter⟩

end StoreRun

end AlphaDb.Io
