import AlphaDb.Io.Eviction
import AlphaDb.Io.FileRuns
import AlphaDb.Io.PageAccess

/-! Calls of a file handle that throw: whatever they fetched and pinned on the way, the header, the
pages and the pins are as they were. -/
namespace AlphaDb.Io

open EStateM Trace BufferManager Cache

namespace BufferManager

variable {n : ℕ} {p q : BufferManager n} {fd page : ℤ} {slot : ℕ} {k : PageId} {u : Unit}

/-- Making room takes no pins. -/
theorem internalAlloc_pins (h : Owned p) (ha : internalAlloc p = .ok slot q) :
    q.cache.pins k = p.cache.pins k := by
  have hpool := (internalAlloc_front ha).choose_spec.2.2
  cases hf : p.hashTable.find k.1 k.2 with
  | none =>
    rw [pins_of_none (cache_entry_eq_none.mpr (find_internalAlloc ha hf)),
      pins_of_none (cache_entry_eq_none.mpr hf)]
  | some i =>
    rw [pins_of_entry (cache_entry_eq_some.mpr ⟨i, hf, rfl⟩)]
    obtain hk | ⟨hk, -, hv⟩ := internalAlloc_find h ha hf
    · rw [pins_of_entry (cache_entry_eq_some.mpr ⟨i, hk, rfl⟩), hpool]
    · rw [pins_of_none (cache_entry_eq_none.mpr hk), (victim_used hv).2]

theorem pins_set {c : Cache n} {en : BufferEntry n} {k' : PageId} :
    (c.set k en).pins k' = if k' = k then en.pin else c.pins k' := by
  split
  · next h =>
    subst h
    exact pins_of_entry set_entry_self
  · next h => exact pins_set_of_ne h

/-- A fetch adds one pin to its page, and none to any other. -/
theorem getPage_pins {mp : Bool} (h : Owned p) (hg : getPage fd page mp p = .ok slot q) :
    q.cache.pins k = p.cache.pins k + if k = (fd, page) then 1 else 0 := by
  have ho := owned_iff.mp h
  obtain ⟨hf, -, rfl⟩ | ⟨hf, v, w, ha, hr, rfl⟩ := getPage_ok hg
  · rw [cache_touch, cache_setEntry ho.named hf, pins_set]
    split
    · next hk =>
      subst hk
      rw [pins_of_entry (cache_entry_eq_some.mpr ⟨slot, hf, rfl⟩)]
    · simp
  · obtain ⟨hv, -⟩ := internalAlloc_owned ho ha
    have hfv := find_internalAlloc ha hf
    obtain ⟨f, -, -, -, rfl⟩ := readPage_ok.mp hr
    rw [cache_install (hv.setHole _).named hfv, cache_setHole hv.named, pins_set,
      internalAlloc_pins h ha]
    split
    · next hk =>
      subst hk
      rw [pins_of_none (cache_entry_eq_none.mpr hf), zero_add]
    · simp

theorem unpinPage_pins (h : Owned p) (hu : unpinPage fd page p = .ok u q) :
    q.cache.pins k = p.cache.pins k - if k = (fd, page) then 1 else 0 := by
  obtain ⟨en, hen, -, hc⟩ := unpinPage_cache h hu
  rw [hc, pins_set]
  split
  · next hk =>
    subst hk
    rw [pins_of_entry hen]
  · simp

/-- Some page in the pool has no pins. -/
theorem victim_ne_none_iff (h : Owned p) :
    p.victim ≠ none ↔ ∃ k : PageId, p.hashTable.find k.1 k.2 ≠ none ∧ p.cache.pins k = 0 := by
  constructor
  · intro hv
    obtain ⟨i, hi⟩ := Option.ne_none_iff_exists'.mp hv
    obtain ⟨hu, hpin⟩ := victim_used hi
    have hf : p.hashTable.find (p.carried i).1 (p.carried i).2 = some i :=
      used_cached (owned_iff.mp h) hu
    refine ⟨p.carried i, by simp [hf], ?_⟩
    rw [pins_of_entry (cache_entry_eq_some.mpr ⟨i, hf, rfl⟩), hpin]
  · rintro ⟨k, hk, hpin⟩ hv
    obtain ⟨i, hf⟩ := Option.ne_none_iff_exists'.mp hk
    rw [pins_of_entry (cache_entry_eq_some.mpr ⟨i, hf, rfl⟩)] at hpin
    have hu := (((owned_iff.mp h).hash _ _ _).mp hf).1
    exact victim_eq_none_iff.mp hv i hu hpin

/-- A page is fetched only if the pool can hold it. -/
theorem canHold_of_getPage {mp : Bool} (hg : getPage fd page mp p = .ok slot q) :
    CanHold p fd page := by
  obtain ⟨hf, -⟩ | ⟨-, v, w, ha, -⟩ := getPage_ok hg
  · exact Or.inl (by simp [hf])
  · obtain ⟨rest, hfree, -⟩ | ⟨-, hv, -⟩ := internalAlloc_ok ha
    · exact Or.inr (Or.inl (by simp [hfree]))
    · exact Or.inr (Or.inr (by simp [hv]))

/-- Unpinning forgets no page and frees no slot. -/
theorem unpinPage_frame (hu : unpinPage fd page p = .ok u q) :
    q.hashTable = p.hashTable ∧ q.freeList = p.freeList := by
  obtain ⟨_, -, -, rfl⟩ := unpinPage_ok hu
  split
  · exact ⟨by simp [BufferManager.setEntry], by simp [BufferManager.setEntry]⟩
  · exact ⟨rfl, rfl⟩

/-- Once a fetched page is unpinned there is as much room as before. -/
theorem canHold_fetch_unpin {mp : Bool} {r : BufferManager n} (h : Owned p)
    (hg : getPage fd page mp p = .ok slot q) (hu : unpinPage fd page q = .ok u r) :
    CanHold r k.1 k.2 ↔ CanHold p k.1 k.2 := by
  have hoq := getPage_owned h hg
  have hor := unpinPage_owned hoq hu
  have hpins : ∀ k, r.cache.pins k = p.cache.pins k := by
    intro k
    rw [unpinPage_pins hoq hu, getPage_pins h hg, add_sub_cancel_right]
  obtain ⟨hhash, hfree⟩ := unpinPage_frame hu
  have hroom := canHold_of_getPage hg
  obtain ⟨hf, -, rfl⟩ | ⟨hf, -⟩ := getPage_ok hg
  · have hhash' : r.hashTable = p.hashTable := by
      rw [hhash, touch_hashTable]
      rfl
    have hfree' : r.freeList = p.freeList := by
      rw [hfree, touch_freeList]
      rfl
    simp only [CanHold, victim_ne_none_iff hor, victim_ne_none_iff h, hpins, hhash', hfree']
  · -- the page was brought in, and now it is one without pins
    have hzero : p.cache.pins (fd, page) = 0 := pins_of_none (cache_entry_eq_none.mpr hf)
    have hone : 0 < q.cache.pins (fd, page) := by
      rw [getPage_pins h hg, hzero]
      simp
    obtain ⟨en, hen, -⟩ := entry_of_pins hone
    obtain ⟨i, hi, -⟩ := cache_entry_eq_some.mp hen
    refine iff_of_true (Or.inr (Or.inr ?_)) (Or.inr (hroom.resolve_left (not_not.mpr hf)))
    refine (victim_ne_none_iff hor).mpr ⟨(fd, page), ?_, ?_⟩
    · simp [hhash, hi]
    · rw [hpins, hzero]

end BufferManager

variable {fd page : ℤ} {p q : BufferManager 4096} {slot : ℕ} {u : Unit}

/-- A page whose pin count alone changes is served on, and no contents change. -/
theorem Serves.hold {c : Cache 4096} {k : PageId} {b : Block 4096} {pin : ℤ}
    (h : Serves Settled fd p) (ho : Owned q) (hev : Evict p.cache c) (hb : c.contents k = some b)
    (hq : q.cache = c.hold k b pin) (hfile : (c.disk k.1).isSome = true)
    (hplace : 0 ≤ pageOffset 4096 k.2) : Serves Settled fd q ∧
      ∀ k b, p.cache.contents k = some b → q.cache.contents k = some b := by
  obtain ⟨hcoh, hkeep⟩ := h.evict hev
  have hclean : c.dirtyAt k = false → ¬ Settled k → c.disk.page k.1 k.2 = some b := by
    intro hclean hk
    obtain ⟨b', hb', he⟩ := hcoh.onDisk hb hclean hk
    exact (show b' = b from he) ▸ hb'
  obtain ⟨hs, hother⟩ := h.set ho hev hq hfile hplace (fun hk => hk.elim) hclean
  refine ⟨hs, ?_⟩
  intro k' b' hb'
  by_cases hk : k' = k
  · subst hk
    rw [hq, contents_hold_self, ← hb]
    exact hkeep _ b' hb'
  · exact (hother k' hk).2 b' hb'

theorem Serves.fetch {mp : Bool} (h : Serves Settled fd p) (hpage : 0 ≤ page)
    (hg : BufferManager.getPage fd page mp p = .ok slot q) : Serves Settled fd q ∧
      ∀ k b, p.cache.contents k = some b → q.cache.contents k = some b := by
  obtain ⟨c, b, hev, hb, -, hc⟩ := getPage_hold (by decide) h.owned hg
  have hplace : 0 ≤ pageOffset 4096 page := by
    unfold pageOffset
    omega
  exact h.hold (getPage_owned h.owned hg) hev hb hc (hev.isSome_disk h.file) hplace

theorem Serves.unpin (h : Serves Settled fd p) (hu : BufferManager.unpinPage fd page p = .ok u q) :
    Serves Settled fd q ∧ ∀ k b, p.cache.contents k = some b → q.cache.contents k = some b := by
  obtain ⟨b, hb, -, hc⟩ := unpinPage_hold h.owned hu
  obtain ⟨en, hen, -⟩ := unpinPage_cache h.owned hu
  obtain ⟨hfile, hplace⟩ := h.writable _ en hen
  exact h.hold (unpinPage_owned h.owned hu) (.keep _) hb hc hfile hplace

/-- A page written through its pointer and marked dirty is served on. -/
theorem Serves.write {b : Block 4096} (h : Serves Settled fd p)
    (hf : p.hashTable.find fd page = some slot)
    (hm : BufferManager.markDirty fd page
      (p.setEntry slot { p.bufferPool slot with data := b }) = .ok u q) : Serves Settled fd q := by
  have ho := owned_iff.mp h.owned
  have how : Owned (p.setEntry slot { p.bufferPool slot with data := b }) :=
    owned_iff.mpr (ho.setEntry rfl rfl)
  obtain ⟨en, hen, hc⟩ := markDirty_cache how hm
  obtain ⟨hfile, hplace⟩ := h.writable _ _ (entry_of_find hf)
  rw [cache_setEntry ho.named hf, set_set] at hc
  exact (h.set (markDirty_owned how hm) (.keep _) hc hfile hplace (fun hk => hk.elim)
    (fun hd => by cases hd)).1

namespace FileHandle

variable {s t v : FileHandle} {l : List ℤ} {e : Error} {ph : PageHandle}

/-- The header, every page that can be read, every pin and the room in the pool are as they
were. -/
structure Unchanged (s t : FileHandle) : Prop where
  fd : t.fd = s.fd
  header : t.header = s.header
  contents : ∀ k b, s.bufferManager.cache.contents k = some b →
    t.bufferManager.cache.contents k = some b
  pins : ∀ k, t.bufferManager.cache.pins k = s.bufferManager.cache.pins k
  room : ∀ page, CanHold t.bufferManager s.fd page ↔ CanHold s.bufferManager s.fd page

theorem unchanged_refl (s : FileHandle) : Unchanged s s :=
  ⟨rfl, rfl, fun _ _ hb => hb, fun _ => rfl, fun _ => Iff.rfl⟩

/-- The free pages are `l`, and no change is pending. -/
structure Steady (s : FileHandle) (l : List ℤ) : Prop where
  listed : Listed s l
  serves : Serves Settled s.fd s.bufferManager

theorem Steady.served (h : Steady s l) : Served (fun _ => False) s l :=
  ⟨h.listed, h.serves.mono (fun _ hk => hk.elim) fun _ hk => hk.2.elim⟩

theorem Served.steady (h : Served (fun _ => False) s l) : Steady s l :=
  ⟨h.listed, h.serves.mono (fun _ hk => hk.2.elim) fun _ hk => hk.elim⟩

/-- A page that is fetched can be unpinned, and then all is as before. -/
theorem Steady.fetch_unpin {mp : Bool} (h : Steady s l) (hp : s.IsValidPage page)
    (hg : pool (BufferManager.getPage s.fd page mp) s = .ok slot v) :
    Steady v l ∧ ∃ t, unpinPage page v = .ok () t ∧ Unchanged s t ∧ Steady t l := by
  obtain ⟨hquiet, hfind, hpin, -⟩ := fetchPage_ok h.listed hp hg
  obtain ⟨q, hq, rfl⟩ := pool_ok.mp hg
  obtain ⟨hserves, hcont⟩ := h.serves.fetch hp.1 hq
  have hlisted := h.listed.quiet hquiet
  obtain ⟨r, hr⟩ := unpinPage_of_find hfind hpin.ne'
  obtain ⟨hserves', hcont'⟩ := hserves.unpin hr
  have hu : unpinPage page { s with bufferManager := q } =
      .ok () { s with bufferManager := r } :=
    (unpinPage_eq (s := { s with bufferManager := q }) hlisted.isOpen hp).trans
      (pool_ok.mpr ⟨r, hr, rfl⟩)
  have hquiet' := unpinPage_quiet page hlisted
  simp only [after, hu] at hquiet'
  refine ⟨⟨hlisted, hserves⟩, _, hu, ⟨rfl, rfl, ?_, ?_, ?_⟩, hlisted.quiet hquiet', hserves'⟩
  · exact fun k b hb => hcont' k b (hcont k b hb)
  · intro k
    dsimp only
    rw [unpinPage_pins hserves.owned hr, getPage_pins h.serves.owned hq, add_sub_cancel_right]
  · intro page'
    exact canHold_fetch_unpin (k := (s.fd, page')) h.serves.owned hq hr

/-- A fetch that throws has changed nothing. -/
theorem Steady.fetch_error {mp : Bool} (h : Steady s l) (hp : s.IsValidPage page)
    (hg : pool (BufferManager.getPage s.fd page mp) s = .error e t) : t = s := by
  obtain ⟨q, hq, rfl⟩ := pool_error.mp hg
  obtain ⟨v, hv, -⟩ := h.listed.used page hp
  rw [h.listed.holds.getPage_error hv hq]

theorem getThisPage_unchanged (h : Steady s l) (hg : getThisPage page s = .error e t) :
    Unchanged s t ∧ Steady t l := by
  by_cases hp : s.IsValidPage page
  swap
  · rw [getThisPage_invalid h.listed.isOpen hp] at hg
    injection hg with _ hg
    exact hg ▸ ⟨unchanged_refl s, h⟩
  rw [getThisPage_eq h.listed.isOpen hp] at hg
  obtain hget | ⟨slot, v, hget, hg⟩ := bind_error_iff.mp hg
  · obtain rfl := h.fetch_error hp hget
    exact ⟨unchanged_refl _, h⟩
  obtain ⟨-, w, hu, hun, hw⟩ := h.fetch_unpin hp hget
  rw [bind_of_ok (rfl : (get : FileOp FileHandle) v = .ok v v)] at hg
  split at hg
  · exact absurd hg pure_ne_error
  · rw [bind_of_ok hu] at hg
    obtain ⟨-, rfl⟩ := throw_error_iff.mp hg
    exact ⟨hun, hw⟩

theorem disposePage_invalid (ho : s.fileIsOpen = true) (hp : ¬ s.IsValidPage page) :
    disposePage page s = .error .invalidPage s := by
  rw [disposePage, bind_of_ok (checkOpen_of_open ho)]
  exact bind_error_iff.mpr (Or.inl (checkValidPage_of_not hp))

/-- A page that is not in use, or that is pinned, or for which there is no room. -/
theorem disposePage_unchanged (h : Steady s l) (hd : disposePage page s = .error e t) :
    Unchanged s t ∧ Steady t l := by
  by_cases hp : s.IsValidPage page
  swap
  · rw [disposePage_invalid h.listed.isOpen hp] at hd
    injection hd with _ hd
    exact hd ▸ ⟨unchanged_refl s, h⟩
  rw [disposePage_eq h.listed.isOpen hp] at hd
  obtain hget | ⟨slot, v, hget, hd⟩ := bind_error_iff.mp hd
  · obtain rfl := h.fetch_error hp hget
    exact ⟨unchanged_refl _, h⟩
  obtain ⟨hv, w, hu, hun, hw⟩ := h.fetch_unpin hp hget
  obtain ⟨hquiet, hfind, hpin, hiff⟩ := fetchPage_ok h.listed hp hget
  rw [bind_of_ok (rfl : (get : FileOp FileHandle) v = .ok v v)] at hd
  split at hd
  · rw [bind_of_ok hu] at hd
    obtain ⟨-, rfl⟩ := throw_error_iff.mp hd
    exact ⟨hun, hw⟩
  · next hused =>
    -- a page in use goes on the list, and nothing on the way throws
    have hpv : v.IsValidPage page := by
      rw [IsValidPage, hquiet.2.2.1]
      exact hp
    obtain ⟨x, hx, -⟩ := linkPage_listed hv.listed hpv (fun hm => hused (hiff.mpr hm)) hfind hpin
    rw [hx] at hd
    cases hd

theorem Steady.disposePage (h : Steady s l) (hd : disposePage page s = .ok u t) :
    Steady t (page :: l) := by
  obtain ⟨t', ht', -, hp, hpl, hlisted⟩ | ⟨e, t', ht', -⟩ := disposePage_listed page h.listed
  swap
  · rw [ht'] at hd
    cases hd
  obtain rfl : t' = t := by
    rw [ht'] at hd
    injection hd
  refine ⟨hlisted, ?_⟩
  rw [disposePage_eq h.listed.isOpen hp] at hd
  obtain ⟨slot, v, hget, hd⟩ := bind_ok_iff.mp hd
  obtain ⟨hv, -⟩ := h.fetch_unpin hp hget
  obtain ⟨-, hfind, -, hiff⟩ := fetchPage_ok h.listed hp hget
  rw [bind_of_ok (rfl : (get : FileOp FileHandle) v = .ok v v),
    if_neg fun hne => hpl (hiff.mp hne)] at hd
  obtain ⟨_, w, hset, hd⟩ := bind_ok_iff.mp hd
  obtain rfl := set_ok_iff.mp hset
  obtain ⟨_, w, hm, hu⟩ := bind_ok_iff.mp hd
  have hopen : v.fileIsOpen = true := hv.listed.isOpen
  obtain ⟨-, q, hq, rfl⟩ := checked_ok (fun fd => BufferManager.markDirty fd page)
    (s := (v.setData slot (setNextFree (v.data slot) v.header.firstFree)).setHeader
      { v.header with firstFree := page }) hopen hm
  obtain ⟨-, r, hr, rfl⟩ := checked_ok (fun fd => BufferManager.unpinPage fd page)
    (s := { v with
      header := { v.header with firstFree := page }
      headerChanged := true
      bufferManager := q }) hopen hu
  exact ((hv.serves.write hfind hq).unpin hr).1

theorem Steady.unpinPage (h : Steady s l) (hu : unpinPage page s = .ok u t) : Steady t l := by
  have hquiet := unpinPage_quiet page h.listed
  simp only [after, hu] at hquiet
  obtain ⟨-, q, hq, rfl⟩ :=
    checked_ok (fun fd => BufferManager.unpinPage fd page) h.listed.isOpen hu
  exact ⟨h.listed.quiet hquiet, (h.serves.unpin hq).1⟩

/-- A client's write behind the link of a page in the pool, which it marks dirty. -/
theorem Steady.write {i : Fin 4096} {x : UInt8} (h : Steady s l) (hi : 4 ≤ i.val)
    (hf : s.bufferManager.hashTable.find s.fd page = some slot)
    (hm : markDirty page (s.setData slot (Function.update (s.data slot) i x)) = .ok u t) :
    Steady t l := by
  have hlisted : Listed (s.setData slot (Function.update (s.data slot) i x)) l :=
    h.listed.quiet (setData_quiet h.listed i hi x)
  have hquiet : Quiet _ (after (markDirty page) _) := markDirty_quiet hlisted
  simp only [after, hm] at hquiet
  obtain ⟨-, q, hq, rfl⟩ :=
    checked_ok (fun fd => BufferManager.markDirty fd page) hlisted.isOpen hm
  exact ⟨hlisted.quiet hquiet, h.serves.write hf hq⟩

end FileHandle

/-- The calls of a handle that take, give back and use pages. -/
inductive PageCall
  | allocatePage
  | disposePage (page : ℤ)
  | getThisPage (page : ℤ)
  | markDirty (page : ℤ)
  | unpinPage (page : ℤ)
  deriving DecidableEq, Repr

def PageCall.perform : PageCall → FileOp Unit
  | .allocatePage => do
    let _ ← FileHandle.allocatePage
    return ()
  | .disposePage page => FileHandle.disposePage page
  | .getThisPage page => do
    let _ ← FileHandle.getThisPage page
    return ()
  | .markDirty page => FileHandle.markDirty page
  | .unpinPage page => FileHandle.unpinPage page

/-- A call, or a client's write to a byte of a page in the pool, which it marks dirty. -/
inductive PageAction
  | call (c : PageCall)
  | write (page : ℤ) (i : Fin 4096) (x : UInt8)
  deriving DecidableEq, Repr

namespace FileHandle

variable {s t : FileHandle} {l : List ℤ} {e : Error} {c : PageCall} {fd : ℤ}
  {p : BufferManager 4096}

/-- One call, whether it returns or throws; its I/O succeeds, and the page count does not
overflow. -/
def step (s : FileHandle) : PageAction → Option FileHandle
  | .call c =>
    match c.perform s with
    | .ok _ t => some t
    | .error e t => if e.isIo ∨ e = .overflow then none else some t
  | .write page i x =>
    if 4 ≤ i.val then
      match s.bufferManager.hashTable.find s.fd page with
      | none => none
      | some slot =>
        match markDirty page (s.setData slot (Function.update (s.data slot) i x)) with
        | .ok _ t => some t
        | .error _ _ => none
    else none

theorem perform_error (h : Steady s l) (hc : c.perform s = .error e t) (he : e ≠ .overflow) :
    Unchanged s t ∧ Steady t l := by
  cases c with
  | allocatePage =>
    obtain ha | ⟨_, _, _, hr⟩ := bind_error_iff.mp hc
    · obtain he' | rfl := allocatePage_unchanged h.listed ha
      · exact absurd he' he
      · exact ⟨unchanged_refl _, h⟩
    · exact absurd hr pure_ne_error
  | disposePage page => exact disposePage_unchanged h hc
  | getThisPage page =>
    obtain hg | ⟨_, _, _, hr⟩ := bind_error_iff.mp hc
    · exact getThisPage_unchanged h hg
    · exact absurd hr pure_ne_error
  | markDirty page =>
    obtain rfl := markDirty_unchanged h.listed.isOpen hc
    exact ⟨unchanged_refl _, h⟩
  | unpinPage page =>
    obtain rfl := unpinPage_unchanged h.listed.isOpen hc
    exact ⟨unchanged_refl _, h⟩

theorem perform_ok (h : Steady s l) (hc : c.perform s = .ok u t) : ∃ l', Steady t l' := by
  cases c with
  | allocatePage =>
    obtain ⟨_, _, ha, hr⟩ := bind_ok_iff.mp hc
    obtain ⟨-, rfl⟩ := pure_ok_iff.mp hr
    obtain ⟨l', hs, -⟩ := h.served.allocatePage ha
    exact ⟨l', hs.steady⟩
  | disposePage page => exact ⟨page :: l, h.disposePage hc⟩
  | getThisPage page =>
    obtain ⟨_, _, hg, hr⟩ := bind_ok_iff.mp hc
    obtain ⟨-, rfl⟩ := pure_ok_iff.mp hr
    exact ⟨l, (h.served.getThisPage hg).1.steady⟩
  | markDirty page => exact ⟨l, (h.served.markDirty hc).1.steady⟩
  | unpinPage page => exact ⟨l, h.unpinPage hc⟩

theorem steady_step : TrInv (fun s a t => step s a = some t) fun s => ∃ l, Steady s l := by
  rintro s a t hs ⟨l, h⟩
  cases a with
  | call c =>
    simp only [step] at hs
    split at hs
    · next hc =>
      obtain rfl := Option.some.inj hs
      exact perform_ok h hc
    · next e t' hc =>
      split at hs
      · simp at hs
      · next he =>
        obtain rfl := Option.some.inj hs
        exact ⟨l, (perform_error h hc fun hov => he (Or.inr hov)).2⟩
  | write page i x =>
    simp only [step] at hs
    split at hs
    swap
    · simp at hs
    next hi =>
    split at hs
    · simp at hs
    next slot hf =>
    split at hs
    · next hm =>
      obtain rfl := Option.some.inj hs
      exact ⟨l, h.write hi hf hm⟩
    · simp at hs

/-- A file whose free pages are `l`, opened through a pool without unsaved changes. -/
theorem served_opened (ho : Owned p) (hc : Coherent id Settled p.cache) (hw : Writable p.cache)
    (hopen : openFile fd p = some s) (hl : Listed s l) : Served (fun _ => False) s l := by
  have hfile : s.fd = fd ∧ s.bufferManager = p ∧ (p.disk fd).isSome = true := by
    unfold openFile at hopen
    split at hopen
    · cases hopen
    next f hf =>
    split at hopen
    · obtain rfl := Option.some.inj hopen
      exact ⟨rfl, rfl, by simp [hf]⟩
    · cases hopen
  obtain ⟨rfl, rfl, hsome⟩ := hfile
  exact ⟨hl, ho, hc.mono fun _ hk => hk.elim, fun _ hk => hk.2.elim, hw, hsome⟩

theorem served_created (h : FileRun.Created fd p) (hw : Writable p.cache)
    (hopen : openFile fd p = some s) : Served (fun _ => False) s [] :=
  served_opened h.owned h.coherent hw hopen (FileRun.tracked_init h hopen).listed

/-- Over whole runs of a created and opened file, a call that throws leaves the header, the
contents and the status of every page, and every pin as they were. -/
theorem run_throws_unchanged {handle : FileHandle} {actions : List PageAction}
    (hp : FileRun.Created fd p) (hw : Writable p.cache) (ho : openFile fd p = some handle)
    (h : MTr (fun s a t => step s a = some t) handle actions s) :
    ∀ (c : PageCall) (e : Error) (t : FileHandle), c.perform s = .error e t → e ≠ .overflow →
      t.header = s.header ∧
      (∀ k b, s.bufferManager.cache.contents k = some b →
        t.bufferManager.cache.contents k = some b) ∧
      (∀ page, s.IsValidPage page → ∃ v, s.stored page = some v ∧ t.stored page = some v) ∧
      ∀ k, t.bufferManager.cache.pins k = s.bufferManager.cache.pins k := by
  obtain ⟨l, hl⟩ := mTr_trInv steady_step h ⟨[], (served_created hp hw ho).steady⟩
  intro c e t hc he
  obtain ⟨hu, -⟩ := perform_error hl hc he
  refine ⟨hu.header, hu.contents, ?_, hu.pins⟩
  intro page hpage
  obtain ⟨v, hv, -⟩ := hl.listed.used page hpage
  obtain ⟨b, hb, rfl⟩ := stored_eq_some.mp hv
  refine ⟨_, hv, stored_eq_some.mpr ⟨b, ?_, rfl⟩⟩
  rw [contents, hu.fd]
  exact hu.contents _ b hb

theorem writable_new (poolSize : ℕ) (raw : ℕ → BufferEntry 4096) (disk : Disk) :
    Writable (new poolSize raw disk).cache := by
  intro k en hk
  simp [new, cache] at hk

/-- A run given by its actions, on a created file behind a pool of one buffer. -/
theorem exists_run {actions : List PageAction} {test : FileHandle → Bool}
    (h : ((openFile 3 FileRun.createdPool).bind fun handle => exec step handle actions).any test =
      true) : ∃ handle s, openFile 3 FileRun.createdPool = some handle ∧
        MTr (fun s a t => step s a = some t) handle actions s ∧ test s = true := by
  cases ho : openFile 3 FileRun.createdPool with
  | none => simp [ho] at h
  | some handle =>
    rw [ho, Option.bind_some] at h
    obtain ⟨s, hs, ht⟩ := exists_mTr_of_exec h
    exact ⟨handle, s, rfl, hs, ht⟩

/-- The one buffer holds page 1, with a pin: page 0 cannot be fetched to be disposed of. -/
theorem run_throws_unchanged_pinned : ∃ handle s t, openFile 3 FileRun.createdPool = some handle ∧
    MTr (fun s a t => step s a = some t) handle
      [.call .allocatePage, .call (.unpinPage 0), .call .allocatePage] s ∧
    (PageCall.disposePage 0).perform s = .error .noBuf t ∧ t.header = s.header ∧
    t.bufferManager.cache.pins (3, 1) = s.bufferManager.cache.pins (3, 1) := by
  have h : ((openFile 3 FileRun.createdPool).bind fun handle => exec step handle
      [.call .allocatePage, .call (.unpinPage 0), .call .allocatePage]).any
        (fun s => ((PageCall.disposePage 0).perform s).thrown = some .noBuf) = true := by
    decide +kernel
  obtain ⟨handle, s, ho, hs, ht⟩ := exists_run h
  obtain ⟨t, he⟩ := thrown_eq_some_iff.mp (of_decide_eq_true ht)
  obtain ⟨hheader, -, -, hpins⟩ := run_throws_unchanged (FileRun.created_new 1 _ rfl)
    (writable_new 1 _ _) ho hs (.disposePage 0) .noBuf t he (by decide)
  exact ⟨handle, s, t, ho, hs, he, hheader, hpins (3, 1)⟩

end FileHandle

end AlphaDb.Io
