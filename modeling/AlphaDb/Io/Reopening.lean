import AlphaDb.Io.HandleRuns

/-! Closing a file and opening it again (`io/io_manager`, `file_handle::flush_pages` and
`force_page`): what is left behind on disk is the header and the pages as the handle had them. -/
namespace AlphaDb.Io

open EStateM BufferManager Cache

/-- The bytes of a `file_header`. -/
def FileHeader.encode (h : FileHeader) : Block 8 :=
  Block.putInt32 (Block.putInt32 (fun _ => 0) 0 h.firstFree) 4 h.pageNum

def FileHeader.decode (b : Block 8) : FileHeader := ⟨b.getInt32 0, b.getInt32 4⟩

/-- The header at the start of a file. -/
def Disk.header (d : Disk) (fd : ℤ) : Option FileHeader :=
  (d fd).bind fun f => (f.block 0 8).map FileHeader.decode

/-- `lseek` to the start, and `write`. -/
def Disk.putHeader (d : Disk) (fd : ℤ) (h : FileHeader) : Option Disk :=
  (d fd).map fun f => Function.update d fd (some (f.write 0 h.encode))

namespace FileHandle

/-- What `flush_pages` and `force_page` begin with: a header that has changed is written. -/
def saveHeader : FileOp Unit := fun s =>
  if s.headerChanged then
    match s.bufferManager.disk.putHeader s.fd s.header with
    | none => .error .unixError s
    | some d =>
      .ok () { s with headerChanged := false, bufferManager := { s.bufferManager with disk := d } }
  else .ok () s

def flushPages : FileOp Unit := do
  checkOpen
  saveHeader
  pool (BufferManager.flushPages (← get).fd)

def forcePage (page : ℤ) : FileOp Unit := do
  checkOpen
  saveHeader
  pool (BufferManager.forcePage (← get).fd page)

/-- `io_manager::close_file`, with the file it leaves behind. The descriptor is given back. -/
def closeFile : FileOp ByteFile := do
  checkOpen
  flushPages
  let s ← get
  match s.bufferManager.disk s.fd with
  | none => throw .unixError
  | some f =>
    set { s with
      fileIsOpen := false
      bufferManager :=
        { s.bufferManager with disk := Function.update s.bufferManager.disk s.fd none } }
    return f

end FileHandle

section Disk

variable {d d' : Disk} {fd fd' page : ℤ} {h x : FileHeader} {n : ℕ} {b : Block n}

theorem decode_encode (hfirst : Block.IsInt32 h.firstFree) (hnum : Block.IsInt32 h.pageNum) :
    FileHeader.decode h.encode = h := by
  have hlow : h.encode.getInt32 0 = h.firstFree := by
    have hkeep : h.encode.getInt32 0 = (Block.putInt32 (fun _ => 0) 0 h.firstFree :
        Block 8).getInt32 0 := by
      apply Block.getInt32_congr
      intro i hi
      have : ¬ 4 ≤ i := by omega
      simp [FileHeader.encode, Block.byteAt, Block.putInt32, this]
    rw [hkeep, Block.getInt32_putInt32 (by decide) hfirst]
  have hhigh : h.encode.getInt32 4 = h.pageNum := Block.getInt32_putInt32 (by decide) hnum
  rw [FileHeader.decode, hlow, hhigh]

theorem header_eq_some : d.header fd = some h ↔
    ∃ f b, d fd = some f ∧ f.block 0 8 = some b ∧ FileHeader.decode b = h := by
  simp only [Disk.header, Option.bind_eq_some_iff, Option.map_eq_some_iff]
  constructor
  · rintro ⟨f, hf, b, hb, he⟩
    exact ⟨f, b, hf, hb, he⟩
  · rintro ⟨f, b, hf, hb, he⟩
    exact ⟨f, hf, b, hb, he⟩

theorem putHeader_eq_some : d.putHeader fd h = some d' ↔
    ∃ f, d fd = some f ∧ d' = Function.update d fd (some (f.write 0 h.encode)) := by
  simp [Disk.putHeader, eq_comm]

/-- A page lies behind the header. -/
theorem le_pageOffset (hpage : 0 ≤ page) : 4096 ≤ (pageOffset n page).toNat := by
  have := mul_nonneg hpage (Int.natCast_nonneg n)
  unfold pageOffset
  omega

theorem header_putPage (hd : d.putPage fd' page b = some d') (hpage : fd' = fd → 0 ≤ page)
    (hx : d.header fd = some x) : d'.header fd = some x := by
  obtain ⟨f, hf, -, rfl⟩ := putPage_eq_some.mp hd
  obtain ⟨g, c, hg, hc, he⟩ := header_eq_some.mp hx
  by_cases hfd : fd = fd'
  · subst hfd
    obtain rfl := Option.some.inj (hf.symm.trans hg)
    have hplace := le_pageOffset (n := n) (hpage rfl)
    refine header_eq_some.mpr ⟨_, c, Function.update_self .., ?_, he⟩
    exact ByteFile.block_write_of_disjoint hc (by omega)
  · exact header_eq_some.mpr ⟨g, c, by rw [Function.update_of_ne hfd, hg], hc, he⟩

theorem header_putHeader (hfirst : Block.IsInt32 h.firstFree) (hnum : Block.IsInt32 h.pageNum)
    (hd : d.putHeader fd h = some d') : d'.header fd = some h := by
  obtain ⟨f, hf, rfl⟩ := putHeader_eq_some.mp hd
  exact header_eq_some.mpr ⟨_, h.encode, Function.update_self .., ByteFile.block_write_same,
    decode_encode hfirst hnum⟩

theorem page_putHeader (hd : d.putHeader fd h = some d') (hpage : fd' = fd → 0 ≤ page)
    (hb : d.page fd' page = some b) : d'.page fd' page = some b := by
  obtain ⟨f, hf, rfl⟩ := putHeader_eq_some.mp hd
  obtain ⟨g, hg, ho, hb⟩ := page_eq_some.mp hb
  by_cases hfd : fd' = fd
  · subst hfd
    obtain rfl := Option.some.inj (hf.symm.trans hg)
    have hplace := le_pageOffset (n := n) (hpage rfl)
    refine page_eq_some.mpr ⟨_, Function.update_self .., ho, ?_⟩
    exact ByteFile.block_write_of_disjoint hb (by omega)
  · exact page_eq_some.mpr ⟨g, by rw [Function.update_of_ne hfd, hg], ho, hb⟩

theorem isSome_putHeader (hd : d.putHeader fd h = some d') (hf : (d fd').isSome = true) :
    (d' fd').isSome = true := by
  obtain ⟨f, -, rfl⟩ := putHeader_eq_some.mp hd
  by_cases hfd : fd' = fd
  · simp [hfd]
  · simpa [hfd] using hf

end Disk

namespace Cache

variable {c c' : Cache 4096} {fd : ℤ} {x : FileHeader}

/-- No page of the file lies over its header. -/
def Behind (fd : ℤ) (c : Cache 4096) : Prop := ∀ page en, c.entry (fd, page) = some en → 0 ≤ page

theorem Evict.behind (h : Evict c c') (hb : Behind fd c) : Behind fd c' :=
  fun page en hen => hb page en (h.entry_some hen)

theorem Evict.header (h : Evict c c') (hk : c.Keyed) (hb : Behind fd c)
    (hx : c.disk.header fd = some x) : c'.disk.header fd = some x := by
  cases h with
  | keep => exact hx
  | @drop k en d hen _ hw =>
    obtain ⟨-, rfl⟩ | ⟨-, hput⟩ := hw
    · exact hx
    · refine header_putPage hput ?_ hx
      rintro rfl
      have hkey := hk k en hen
      exact hb en.page en (by rw [hkey]; exact hen)

theorem header_of_evicts (h : Relation.ReflTransGen Evict c c') (hk : c.Keyed)
    (hb : Behind fd c) (hx : c.disk.header fd = some x) : c'.disk.header fd = some x := by
  induction h using Relation.ReflTransGen.head_induction_on with
  | refl => exact hx
  | head h _ ih => exact ih (h.keyed hk) (h.behind hb) (h.header hk hb hx)

theorem entry_of_evicts {k : PageId} {en : BufferEntry 4096}
    (h : Relation.ReflTransGen Evict c c') (hen : c'.entry k = some en) :
    c.entry k = some en := by
  induction h using Relation.ReflTransGen.head_induction_on with
  | refl => exact hen
  | head h _ ih => exact h.entry_some ih

theorem isSome_of_evicts (h : Relation.ReflTransGen Evict c c') (hf : (c.disk fd).isSome = true) :
    (c'.disk fd).isSome = true := by
  induction h using Relation.ReflTransGen.head_induction_on with
  | refl => exact hf
  | head h _ ih => exact ih (h.isSome_disk hf)

theorem entry_of_syncs {k : PageId} {en : BufferEntry 4096}
    (h : Relation.ReflTransGen Sync c c') (hen : c'.entry k = some en) :
    ∃ en', c.entry k = some en' ∧ en'.pin = en.pin := by
  induction h using Relation.ReflTransGen.head_induction_on with
  | refl => exact ⟨en, hen, rfl⟩
  | head h _ ih =>
    obtain ⟨en', hen', hpin⟩ := ih
    cases h with
    | @write k' en'' d hk' _ =>
      by_cases he : k = k'
      · subst he
        rw [set_entry_self] at hen'
        obtain rfl := Option.some.inj hen'
        exact ⟨en'', hk', hpin⟩
      · rw [set_entry_of_ne he] at hen'
        exact ⟨en', hen', hpin⟩

theorem Sync.isSome_disk (h : Sync c c') (hf : (c.disk fd).isSome = true) :
    (c'.disk fd).isSome = true := by
  cases h with
  | @write k en d _ hput =>
    obtain ⟨f, -, -, rfl⟩ := putPage_eq_some.mp hput
    by_cases he : fd = k.1
    · simp [he]
    · simpa [he] using hf

theorem isSome_of_syncs (h : Relation.ReflTransGen Sync c c') (hf : (c.disk fd).isSome = true) :
    (c'.disk fd).isSome = true := by
  induction h using Relation.ReflTransGen.head_induction_on with
  | refl => exact hf
  | head h _ ih => exact ih (h.isSome_disk hf)

theorem Sync.behind (h : Sync c c') (hb : Behind fd c) : Behind fd c' := by
  intro page en hen
  obtain ⟨en', hen', -⟩ := entry_of_syncs (.single h) hen
  exact hb page en' hen'

theorem Sync.header (h : Sync c c') (hb : Behind fd c) (hx : c.disk.header fd = some x) :
    c'.disk.header fd = some x := by
  obtain ⟨hen, hput⟩ := h
  refine header_putPage hput ?_ hx
  rintro rfl
  exact hb _ _ hen

theorem header_of_syncs (h : Relation.ReflTransGen Sync c c') (hb : Behind fd c)
    (hx : c.disk.header fd = some x) : c'.disk.header fd = some x := by
  induction h using Relation.ReflTransGen.head_induction_on with
  | refl => exact hx
  | head h _ ih => exact ih (h.behind hb) (h.header hb hx)

end Cache

/-- What a flush does before it returns or meets a pinned page: it drops pages that it has written
back. -/
theorem flushPages_evicts {p : BufferManager 4096} {fd : ℤ} (h : Owned p)
    (hr : ∀ i ∈ p.reached fd (List.range p.poolSize), i ∉ p.freeList) :
    Owned (after (BufferManager.flushPages fd) p) ∧
      Relation.ReflTransGen Evict p.cache (after (BufferManager.flushPages fd) p).cache := by
  have hlt : ∀ i ∈ List.range p.poolSize, i < p.poolSize := fun i hi => List.mem_range.mp hi
  rw [BufferManager.flushPages, after_bind_ok (rfl : (get : Op 4096 _) p = .ok p p)]
  refine flushSlots_inv (P := fun q => Owned q ∧ Relation.ReflTransGen Evict p.cache q.cache)
    (fun q hq => hq.1.slots) ?_ ⟨h, .refl⟩ List.nodup_range hlt hr
  rintro q i d ⟨ho, hev⟩ hu hpin hw
  have hoq := owned_iff.mp ho
  refine ⟨owned_iff.mpr (release_owned hoq hu d), hev.tail ?_⟩
  rw [release_cache hoq.named]
  exact .drop (cache_entry_eq_some.mpr ⟨i, used_cached hoq hu, rfl⟩) hpin hw

namespace FileHandle

variable {s t v : FileHandle} {l : List ℤ} {page : ℤ} {slot : ℕ} {u : Unit} {e : Error}
  {q : BufferManager 4096}

/-- The header and the pages are as they were. -/
structure Kept (s t : FileHandle) : Prop where
  fd : t.fd = s.fd
  header : t.header = s.header
  contents : ∀ page b, 0 ≤ page → s.contents page = some b → t.contents page = some b

theorem Kept.trans (h : Kept s v) (h' : Kept v t) : Kept s t :=
  ⟨h'.fd.trans h.fd, h'.header.trans h.header,
    fun page b h0 hb => h'.contents page b h0 (h.contents page b h0 hb)⟩

/-- A header that has not changed is the one on disk. -/
def Saved (s : FileHandle) : Prop :=
  s.headerChanged = false → s.bufferManager.disk.header s.fd = some s.header

/-- The header, on disk too, and all pages are as they were. -/
structure Calm (s t : FileHandle) : Prop where
  fd : t.fd = s.fd
  header : t.header = s.header
  changed : t.headerChanged = s.headerChanged
  saved : ∀ x, s.bufferManager.disk.header s.fd = some x →
    t.bufferManager.disk.header s.fd = some x
  contents : ∀ page b, s.contents page = some b → t.contents page = some b

theorem calm_refl (s : FileHandle) : Calm s s := ⟨rfl, rfl, rfl, fun _ hx => hx, fun _ _ hb => hb⟩

theorem Calm.trans (h : Calm s v) (h' : Calm v t) : Calm s t := by
  refine ⟨h'.fd.trans h.fd, h'.header.trans h.header, h'.changed.trans h.changed, ?_, ?_⟩
  · intro x hx
    have hv := h.saved x hx
    rw [← h.fd] at hv ⊢
    exact h'.saved x hv
  · exact fun page b hb => h'.contents page b (h.contents page b hb)

theorem Calm.kept (h : Calm s t) : Kept s t :=
  ⟨h.fd, h.header, fun page b _ => h.contents page b⟩

theorem Calm.isSaved (h : Calm s t) (hs : Saved s) : Saved t := by
  intro hc
  rw [h.fd, h.header]
  exact h.saved _ (hs (h.changed ▸ hc))

theorem Steady.behind (h : Steady s l) : Behind s.fd s.bufferManager.cache :=
  fun page en hen => (h.listed.holds.cached page en hen).1

theorem Steady.keyed (h : Steady s l) : s.bufferManager.cache.Keyed := h.serves.keyed

/-- The header and the pages of a file carry its list, also to another descriptor. -/
theorem Listed.carry (h : Listed s l) (hopen : t.fileIsOpen = true) (hheader : t.header = s.header)
    (hholds : Holds Settled t.fd t.header.pageNum t.bufferManager)
    (hcont : ∀ page b, s.IsValidPage page → s.contents page = some b →
      t.contents page = some b) : Listed t l := by
  have hvalid : ∀ p, t.IsValidPage p ↔ s.IsValidPage p := by
    intro p
    rw [IsValidPage, IsValidPage, hheader]
  have hstored : ∀ p v, s.IsValidPage p → s.stored p = some v → t.stored p = some v := by
    intro p v hp hv
    obtain ⟨b, hb, rfl⟩ := stored_eq_some.mp hv
    exact stored_eq_some.mpr ⟨b, hcont p b hp hb, rfl⟩
  refine ⟨hopen, hholds, ?_, ?_, h.nodup, ?_, ?_⟩
  · rw [hheader]
    exact h.count
  · rw [hheader]
    apply h.chain.frame
    intro p hp
    obtain ⟨v, hv, -⟩ := h.used p (h.valid p hp)
    rw [hstored p v (h.valid p hp) hv, hv]
  · exact fun p hp => (hvalid p).mpr (h.valid p hp)
  · intro p hp
    obtain ⟨v, hv, hiff⟩ := h.used p ((hvalid p).mp hp)
    exact ⟨v, hstored p v ((hvalid p).mp hp) hv, hiff⟩

/-- Pages written back, in any number, are served on. -/
theorem Steady.evicts (h : Steady s l) (ho : Owned q)
    (hev : Relation.ReflTransGen Evict s.bufferManager.cache q.cache) :
    Steady { s with bufferManager := q } l ∧ Calm s { s with bufferManager := q } := by
  obtain ⟨hcoh, -, hkeep⟩ := keeps_of_evicts hev h.keyed h.serves.coherent h.serves.pinned
  have hcont : ∀ k b, s.bufferManager.cache.contents k = some b → q.cache.contents k = some b := by
    intro k b hb
    obtain ⟨b', hb', he⟩ := hkeep k b hb
    exact (show b' = b from he) ▸ hb'
  refine ⟨⟨?_, ?_⟩, rfl, rfl, rfl, fun x => header_of_evicts hev h.keyed h.behind,
    fun page => hcont (s.fd, page)⟩
  · refine h.listed.carry h.listed.isOpen rfl ⟨ho, ?_, ?_⟩ fun page b _ => hcont (s.fd, page) b
    · exact (keeps_of_evicts hev h.keyed h.listed.holds.coherent (pendingPinned_settled _)).1
    · exact fun page en hen => h.listed.holds.cached page en (entry_of_evicts hev hen)
  · refine ⟨ho, hcoh, pendingPinned_settled _, ?_, isSome_of_evicts hev h.serves.file⟩
    intro k en hen
    obtain ⟨hf, hplace⟩ := h.serves.writable k en (entry_of_evicts hev hen)
    exact ⟨isSome_of_evicts hev hf, hplace⟩

/-- The header has gone to disk, and nothing else has moved. -/
structure Written (s t : FileHandle) : Prop where
  kept : Kept s t
  changed : t.headerChanged = false
  freeList : t.bufferManager.freeList = s.bufferManager.freeList
  bufferPool : t.bufferManager.bufferPool = s.bufferManager.bufferPool

theorem saveHeader_ok (h : Steady s l) (hs : Saved s) :
    ∃ t, saveHeader s = .ok () t ∧ Steady t l ∧ Saved t ∧ Written s t := by
  unfold saveHeader
  split
  swap
  · next hc =>
    exact ⟨s, rfl, h, hs, ⟨rfl, rfl, fun _ _ _ hb => hb⟩, by simpa using hc, rfl, rfl⟩
  obtain ⟨f, hf⟩ := Option.isSome_iff_exists.mp h.serves.file
  obtain ⟨d, hd⟩ : ∃ d, s.bufferManager.disk.putHeader s.fd s.header = some d :=
    ⟨_, putHeader_eq_some.mpr ⟨f, hf, rfl⟩⟩
  simp only [hd]
  let q : BufferManager 4096 := { s.bufferManager with disk := d }
  have hpage : ∀ (k : PageId) (b : Block 4096), (k.1 = s.fd → 0 ≤ k.2) →
      s.bufferManager.disk.page k.1 k.2 = some b → d.page k.1 k.2 = some b :=
    fun _ _ hk hb => page_putHeader hd hk hb
  have hplaced : ∀ (k : PageId) en, s.bufferManager.cache.entry k = some en →
      k.1 = s.fd → 0 ≤ k.2 := by
    rintro ⟨fd, page⟩ en hen rfl
    exact h.behind page en hen
  have hcoh : ∀ {β : Type} {obs : Block 4096 → β}, Coherent obs Settled s.bufferManager.cache →
      Coherent obs Settled q.cache := by
    intro β obs hcoh k en hen hdirty hk
    obtain ⟨b, hb, he⟩ := hcoh k en hen hdirty hk
    exact ⟨b, hpage k b (hplaced k en hen) hb, he⟩
  have hcont : ∀ page b, 0 ≤ page → s.contents page = some b →
      q.cache.contents (s.fd, page) = some b := by
    intro page b h0 hb
    cases hen : s.bufferManager.cache.entry (s.fd, page) with
    | some en =>
      rw [contents, contents_of_entry hen] at hb
      rw [contents_of_entry (show q.cache.entry _ = some en from hen), hb]
    | none =>
      rw [contents, contents_of_none hen] at hb
      rw [contents_of_none (show q.cache.entry _ = none from hen)]
      exact hpage (s.fd, page) b (fun _ => h0) hb
  have ho : Owned q := owned_iff.mpr ((owned_iff.mp h.serves.owned).setDisk d)
  have hcount := h.listed.count
  have hnum : Block.IsInt32 s.header.pageNum := by
    unfold Block.IsInt32
    omega
  refine ⟨_, rfl, ⟨?_, ?_⟩, ?_, ⟨rfl, rfl, hcont⟩, rfl, rfl, rfl⟩
  · exact h.listed.carry h.listed.isOpen rfl ⟨ho, hcoh h.listed.holds.coherent,
      h.listed.holds.cached⟩ fun page b hp => hcont page b hp.1
  · refine ⟨ho, hcoh h.serves.coherent, pendingPinned_settled _, ?_,
      isSome_putHeader hd h.serves.file⟩
    intro k en hen
    obtain ⟨hfile, hplace⟩ := h.serves.writable k en hen
    exact ⟨isSome_putHeader hd hfile, hplace⟩
  · exact fun _ => header_putHeader h.listed.firstFree_int32 hnum hd

/-- Pages written to disk where they stand are served on. -/
theorem Steady.syncs (h : Steady s l) (ho : Owned q)
    (hev : Relation.ReflTransGen Sync s.bufferManager.cache q.cache) :
    Steady { s with bufferManager := q } l ∧ Calm s { s with bufferManager := q } := by
  obtain ⟨hcoh, -, hkeep⟩ := keeps_of_syncs hev h.serves.coherent h.serves.pinned
  have hcont : ∀ k b, s.bufferManager.cache.contents k = some b → q.cache.contents k = some b := by
    intro k b hb
    obtain ⟨b', hb', he⟩ := hkeep k b hb
    exact (show b' = b from he) ▸ hb'
  refine ⟨⟨?_, ?_⟩, rfl, rfl, rfl, fun x => header_of_syncs hev h.behind,
    fun page => hcont (s.fd, page)⟩
  · refine h.listed.carry h.listed.isOpen rfl ⟨ho, ?_, ?_⟩ fun page b _ => hcont (s.fd, page) b
    · exact (keeps_of_syncs hev h.listed.holds.coherent (pendingPinned_settled _)).1
    · intro page en hen
      obtain ⟨en', hen', hpin⟩ := entry_of_syncs hev hen
      exact hpin ▸ h.listed.holds.cached page en' hen'
  · refine ⟨ho, hcoh, pendingPinned_settled _, ?_, isSome_of_syncs hev h.serves.file⟩
    intro k en hen
    obtain ⟨en', hen', -⟩ := entry_of_syncs hev hen
    obtain ⟨hf, hplace⟩ := h.serves.writable k en' hen'
    exact ⟨isSome_of_syncs hev hf, hplace⟩

/-- Forcing a page saves the header, and moves nothing. -/
theorem forcePage_ok (h : Steady s l) (hs : Saved s) (hpage : 0 ≤ page)
    (hf : forcePage page s = .ok u t) : Steady t l ∧ Saved t ∧ Kept s t := by
  obtain ⟨v, hv, hsteady, hsaved, hw⟩ := saveHeader_ok h hs
  rw [forcePage, bind_of_ok (checkOpen_of_open h.listed.isOpen), bind_of_ok hv,
    bind_of_ok (rfl : (get : FileOp FileHandle) v = .ok v v)] at hf
  obtain ⟨q, hq, rfl⟩ := pool_ok.mp hf
  have hne : page ≠ -1 := by omega
  have ho : Owned q := by
    have hx := get_bind_ok_iff.mp hq
    have hforce : Owned (after (forceSlots v.fd page v.bufferManager.usedList.toList)
        v.bufferManager) := forceSlots_owned _ hsteady.serves.owned
    simpa only [after, hx] using hforce
  obtain ⟨ht, hcalm⟩ := hsteady.syncs ho (forcePage_cache hne hsteady.serves.owned hq)
  exact ⟨ht, hcalm.isSaved hsaved, hw.kept.trans hcalm.kept⟩

theorem forcePage_error (h : Steady s l) (hs : Saved s) (hf : forcePage page s = .error e t) :
    e.isIo = true := by
  obtain ⟨v, hv, -⟩ := saveHeader_ok h hs
  rw [forcePage, bind_of_ok (checkOpen_of_open h.listed.isOpen), bind_of_ok hv,
    bind_of_ok (rfl : (get : FileOp FileHandle) v = .ok v v)] at hf
  obtain ⟨q, hq, -⟩ := pool_error.mp hf
  exact BufferManager.forcePage_error hq

/-- No buffer that is free still carries the descriptor, as it does after a flush. -/
def NoStale (s : FileHandle) : Prop :=
  ∀ i ∈ s.bufferManager.freeList, (s.bufferManager.bufferPool i).fd ≠ s.fd

instance (s : FileHandle) : Decidable s.NoStale :=
  inferInstanceAs (Decidable (∀ i ∈ s.bufferManager.freeList, _))

theorem NoStale.written (hn : NoStale s) (hw : Written s v) : NoStale v := by
  unfold NoStale
  rw [hw.freeList, hw.bufferPool, hw.kept.fd]
  exact hn

theorem NoStale.reached (hn : NoStale s) :
    ∀ i ∈ s.bufferManager.reached s.fd (List.range s.bufferManager.poolSize),
      i ∉ s.bufferManager.freeList := by
  intro i hi hfree
  have hm := (List.mem_filter.mp ((List.takeWhile_sublist _).mem hi)).2
  exact hn i hfree (by simpa using hm)

/-- A flush, as far as it gets. -/
theorem Steady.flush (h : Steady s l) (hn : NoStale s) :
    let t : FileHandle :=
      { s with bufferManager := after (BufferManager.flushPages s.fd) s.bufferManager }
    Steady t l ∧ Calm s t := by
  obtain ⟨ho, hev⟩ := flushPages_evicts h.serves.owned hn.reached
  exact h.evicts ho hev

theorem flushPages_eq (ho : s.fileIsOpen = true) (hv : saveHeader s = .ok () v) :
    flushPages s = pool (BufferManager.flushPages v.fd) v := by
  rw [flushPages, bind_of_ok (checkOpen_of_open ho), bind_of_ok hv,
    bind_of_ok (rfl : (get : FileOp FileHandle) v = .ok v v)]

/-- What a closed handle leaves behind: a file with the header and the pages that the handle had. -/
structure Left (s : FileHandle) (f : ByteFile) : Prop where
  header : (f.block 0 8).map FileHeader.decode = some s.header
  contents : ∀ page b, 0 ≤ page → s.contents page = some b →
    f.block (pageOffset 4096 page).toNat 4096 = some b

/-- A pool without unsaved changes, and with no page of the descriptor. -/
structure Ready (fd : ℤ) (p : BufferManager 4096) : Prop where
  owned : Owned p
  coherent : Coherent id Settled p.cache
  writable : Writable p.cache
  uncached : ∀ page, p.cache.entry (fd, page) = none

/-- A descriptor under which the pool holds nothing is given a file, or given back. -/
theorem ready_update {fd : ℤ} {p : BufferManager 4096} (ho : Owned p)
    (hcoh : Coherent id Settled p.cache) (hw : Writable p.cache)
    (hnone : ∀ page, p.cache.entry (fd, page) = none) (f : Option ByteFile) :
    Ready fd { p with disk := Function.update p.disk fd f } := by
  have hdisk : ∀ k en, p.cache.entry k = some en →
      Function.update p.disk fd f k.1 = p.disk k.1 := by
    rintro ⟨fd', page⟩ en hen
    refine Function.update_of_ne ?_ ..
    rintro rfl
    simp [hnone page] at hen
  refine ⟨owned_iff.mpr ((owned_iff.mp ho).setDisk _), ?_, ?_, hnone⟩
  · intro k en hen hdirty hk
    obtain ⟨b, hb, he⟩ := hcoh k en hen hdirty hk
    refine ⟨b, ?_, he⟩
    unfold Disk.page at hb ⊢
    dsimp only [cache_disk]
    rwa [hdisk k en hen]
  · intro k en hen
    obtain ⟨hsome, hplace⟩ := hw k en hen
    refine ⟨?_, hplace⟩
    dsimp only [cache_disk]
    rwa [hdisk k en hen]

/-- A file that cannot be closed, for a page that is pinned, is as open as before. -/
theorem closeFile_error (h : Steady s l) (hs : Saved s) (hn : NoStale s)
    (hc : closeFile s = .error e t) : Steady t l ∧ Saved t ∧ Kept s t := by
  obtain ⟨v, hv, hsteady, hsaved, hw⟩ := saveHeader_ok h hs
  obtain ⟨ht, hcalm⟩ := hsteady.flush (hn.written hw)
  have hflush := flushPages_eq h.listed.isOpen hv
  rw [closeFile, bind_of_ok (checkOpen_of_open h.listed.isOpen)] at hc
  obtain hf | ⟨_, w, hf, hc⟩ := bind_error_iff.mp hc
  · obtain ⟨q, hq, rfl⟩ := pool_error.mp (hflush ▸ hf)
    simp only [after, hq] at ht hcalm
    exact ⟨ht, hcalm.isSaved hsaved, hw.kept.trans hcalm.kept⟩
  · obtain ⟨q, hq, rfl⟩ := pool_ok.mp (hflush ▸ hf)
    simp only [after, hq] at ht
    obtain ⟨f, hfile⟩ := Option.isSome_iff_exists.mp ht.serves.file
    have hfile : q.disk v.fd = some f := hfile
    rw [bind_of_ok (rfl : (get : FileOp FileHandle) _ = .ok _ _)] at hc
    simp only [hfile] at hc
    obtain hc | ⟨_, _, _, hc⟩ := bind_error_iff.mp hc
    · exact absurd hc set_ne_error
    · exact absurd hc pure_ne_error

/-- A file that is closed holds what the handle had, and the pool holds nothing of it any more. -/
theorem closeFile_ok {f : ByteFile} (h : Steady s l) (hs : Saved s) (hn : NoStale s)
    (hc : closeFile s = .ok f t) : Left s f ∧ Ready s.fd t.bufferManager ∧
      t.bufferManager.disk s.fd = none := by
  obtain ⟨v, hv, hsteady, hsaved, hw⟩ := saveHeader_ok h hs
  have hnv := hn.written hw
  obtain ⟨ht, hcalm⟩ := hsteady.flush hnv
  rw [closeFile, bind_of_ok (checkOpen_of_open h.listed.isOpen)] at hc
  obtain ⟨_, w, hf, hc⟩ := bind_ok_iff.mp hc
  obtain ⟨q, hq, rfl⟩ := pool_ok.mp (flushPages_eq h.listed.isOpen hv ▸ hf)
  simp only [after, hq] at ht hcalm
  obtain ⟨g, hfile⟩ := Option.isSome_iff_exists.mp ht.serves.file
  have hfile : q.disk v.fd = some g := hfile
  rw [bind_of_ok (rfl : (get : FileOp FileHandle) _ = .ok _ _)] at hc
  simp only [hfile] at hc
  obtain ⟨_, x, hset, hc⟩ := bind_ok_iff.mp hc
  obtain rfl := set_ok_iff.mp hset
  obtain ⟨rfl, rfl⟩ := pure_ok_iff.mp hc
  obtain ⟨-, -, hnone⟩ := flushPages_cache hsteady.serves.owned hnv.reached hq
  refine ⟨⟨?_, ?_⟩, ?_, ?_⟩
  · have hheader := hcalm.saved _ (hsaved hw.changed)
    obtain ⟨g', b, hg', hb, he⟩ := header_eq_some.mp hheader
    obtain rfl := Option.some.inj (hfile.symm.trans hg')
    rw [hb, Option.map_some, he, hw.kept.header]
  · intro page b h0 hb
    have hb := hcalm.contents page b (hw.kept.contents page b h0 hb)
    rw [contents, contents_of_none (hnone page)] at hb
    obtain ⟨g', hg', -, hblock⟩ := page_eq_some.mp hb
    obtain rfl := Option.some.inj (hfile.symm.trans hg')
    exact hblock
  · rw [← hw.kept.fd]
    exact ready_update ht.serves.owned ht.serves.coherent ht.serves.writable hnone none
  · simp [hw.kept.fd]

/-- A header that was just read is the one on disk. -/
theorem saved_openFile {fd : ℤ} {p : BufferManager 4096} (h : openFile fd p = some s) :
    Saved s := by
  unfold openFile at h
  split at h
  · cases h
  next f hf =>
  split at h
  · next havail =>
    obtain rfl := Option.some.inj h
    exact fun _ => header_eq_some.mpr
      ⟨f, _, hf, ByteFile.block_of_readInto havail (by decide), rfl⟩
  · cases h

/-- A file that a handle has left behind, opened through any pool that is ready for it. -/
theorem openFile_left {f : ByteFile} {fd : ℤ} {p : BufferManager 4096} (h : Steady s l)
    (hl : Left s f) (hp : Ready fd p) (hf : p.disk fd = some f) :
    ∃ t, openFile fd p = some t ∧ Steady t l ∧ Saved t ∧ t.header = s.header ∧
      ∀ page b, 0 ≤ page → s.contents page = some b → t.contents page = some b := by
  obtain ⟨b, hb, hheader⟩ := Option.map_eq_some_iff.mp hl.header
  have hsize := (ByteFile.block_eq_some_iff.mp hb).1
  have havail : f.available 0 8 = 8 := by
    unfold ByteFile.available
    omega
  obtain rfl : f.readInto 0 (fun _ => 0) = b :=
    Option.some.inj ((ByteFile.block_of_readInto havail (by decide)).symm.trans hb)
  let t : FileHandle := ⟨fd, s.header, true, false, p⟩
  have hopen : openFile fd p = some t := by
    simp only [openFile, hf, havail, if_true, t, ← hheader]
    rfl
  have hcont : ∀ page b, 0 ≤ page → s.contents page = some b → t.contents page = some b := by
    intro page b h0 hb
    have hplace : 0 ≤ pageOffset 4096 page := by
      unfold pageOffset
      omega
    rw [contents, contents_of_none (hp.uncached page)]
    exact page_eq_some.mpr ⟨f, hf, hplace, hl.contents page b h0 hb⟩
  refine ⟨t, hopen, ⟨?_, ?_⟩, ?_, rfl, hcont⟩
  · refine h.listed.carry rfl rfl ⟨hp.owned, ?_, ?_⟩ fun page b hpage => hcont page b hpage.1
    · intro k en hen hdirty hk
      obtain ⟨b', hb', he⟩ := hp.coherent k en hen hdirty hk
      exact ⟨b', hb', congrArg nextFree he⟩
    · intro page en hen
      simp [t, hp.uncached page] at hen
  · exact ⟨hp.owned, hp.coherent, pendingPinned_settled _, hp.writable, by simp [t, hf]⟩
  · exact saved_openFile hopen

end FileHandle

end AlphaDb.Io
