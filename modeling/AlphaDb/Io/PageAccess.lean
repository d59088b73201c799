import AlphaDb.Io.PinnedPages

/-! Work on the pages of one file through `getThisPage` and `unpinPage`: what a client of the file
handle reads, and which of its changes stay. -/
namespace AlphaDb.Io

open EStateM BufferManager Cache

/-- What a page handle's `data` points to: the bytes behind the link. -/
def pageData (b : Block 4096) : Block 4092 := fun i => b ⟨i.val + 4, by omega⟩

def setPageData (b : Block 4096) (d : Block 4092) : Block 4096 := fun i =>
  if h : 4 ≤ i.val then d ⟨i.val - 4, by omega⟩ else b i

@[simp] theorem pageData_setPageData (b : Block 4096) (d : Block 4092) :
    pageData (setPageData b d) = d := by
  funext i
  simp [pageData, setPageData]

@[simp] theorem setPageData_pageData (b : Block 4096) : setPageData b (pageData b) = b := by
  funext i
  unfold setPageData pageData
  split
  · next h =>
    congr 1
    apply Fin.ext
    exact Nat.sub_add_cancel h
  · rfl

@[simp] theorem nextFree_setPageData (b : Block 4096) (d : Block 4092) :
    nextFree (setPageData b d) = nextFree b := by
  apply Block.getInt32_congr
  intro i hi
  have hin : 0 + i < 4096 := by omega
  have hout : ¬ 4 ≤ 0 + i := by omega
  simp only [Block.byteAt, dif_pos hin, setPageData, dif_neg hout]

/-- A page that was just handed out is clear. -/
theorem pageData_new : pageData (setNextFree (fun _ => 0) pageUsed) = fun _ => 0 := by
  funext i
  simp [pageData, setNextFree, Block.putInt32]

namespace FileHandle

variable {s t : FileHandle} {l : List ℤ} {P : ℤ → Prop} {page : ℤ} {c : Cache 4096}
  {b b' : Block 4096} {pin : ℤ} {q : BufferManager 4096} {ph : PageHandle} {e : Error}

def contents (s : FileHandle) (page : ℤ) : Option (Block 4096) :=
  s.bufferManager.cache.contents (s.fd, page)

def pins (s : FileHandle) (page : ℤ) : ℤ := s.bufferManager.cache.pins (s.fd, page)

def dirtyAt (s : FileHandle) (page : ℤ) : Bool := s.bufferManager.cache.dirtyAt (s.fd, page)

/-- The free pages are `l`, and of the pages in the pool only those in `P`, which are pinned, have
changes that would not be written back. -/
structure Served (P : ℤ → Prop) (s : FileHandle) (l : List ℤ) : Prop where
  listed : Listed s l
  serves : Serves (fun k => k.1 = s.fd ∧ P k.2) s.fd s.bufferManager

/-- Every page of the file reads as before, and has at least the pins it had. -/
structure Spares (s t : FileHandle) : Prop where
  fd : t.fd = s.fd
  header : t.header = s.header
  pins : ∀ page, s.pins page ≤ t.pins page
  contents : ∀ page b, s.contents page = some b → t.contents page = some b

theorem spares_refl (s : FileHandle) : Spares s s :=
  ⟨rfl, rfl, fun _ => le_rfl, fun _ _ hb => hb⟩

theorem Spares.trans {r : FileHandle} (h : Spares r s) (h' : Spares s t) : Spares r t :=
  ⟨h'.fd.trans h.fd, h'.header.trans h.header, fun page => (h.pins page).trans (h'.pins page),
    fun page b hb => h'.contents page b (h.contents page b hb)⟩

theorem stored_eq_some {v : ℤ} :
    s.stored page = some v ↔ ∃ b, s.contents page = some b ∧ nextFree b = v := by
  simp [stored, storedLink, contents]

theorem Served.mono {P' : ℤ → Prop} (h : Served P s l) (hP : ∀ page, P page → P' page)
    (hpin : ∀ page, P' page → 0 < s.pins page) : Served P' s l := by
  refine ⟨h.listed, h.serves.mono (fun k hk => ⟨hk.1, hP _ hk.2⟩) ?_⟩
  rintro ⟨fd, page⟩ ⟨rfl, hk⟩
  exact hpin page hk

/-- Room is made, and a page of the file is held with other bytes behind its link. Unless it is
dirty or pending, the bytes stay. -/
theorem Served.hold (h : Served P s l) (hp : s.IsValidPage page) (ho : Owned q)
    (hev : Evict s.bufferManager.cache c) (hb : c.contents (s.fd, page) = some b)
    (hq : q.cache = c.hold (s.fd, page) b' pin) (hpin : 0 ≤ pin) (hpos : P page → 0 < pin)
    (hlink : nextFree b' = nextFree b)
    (hsave : b' = b ∨ c.dirtyAt (s.fd, page) = true ∨ P page) :
    Served P { s with bufferManager := q } l ∧
      ∀ page', page' ≠ page → s.pins page' ≤ q.cache.pins (s.fd, page') ∧
        ∀ b, s.contents page' = some b → q.cache.contents (s.fd, page') = some b := by
  obtain ⟨hcoh, hcont⟩ := h.serves.evict hev
  obtain ⟨hlinks, -, hcached⟩ := h.listed.holds.evict hev
  have hplace : 0 ≤ pageOffset 4096 page := by
    have := hp.1
    unfold pageOffset
    omega
  obtain ⟨hserves, hother⟩ := h.serves.set ho hev hq (hev.isSome_disk h.serves.file) hplace
    (fun hk => hpos hk.2) (by
      intro hd hk
      rcases hsave with rfl | hdirty | hP
      · obtain ⟨b₀, hb₀, he⟩ := hcoh.onDisk hb hd hk
        exact (show b₀ = b' from he) ▸ hb₀
      · exact absurd (hdirty.symm.trans hd) (by decide)
      · exact absurd ⟨rfl, hP⟩ hk)
  have hkept : ∀ page', page' ≠ page → s.pins page' ≤ q.cache.pins (s.fd, page') ∧
      ∀ b, s.contents page' = some b → q.cache.contents (s.fd, page') = some b := by
    intro page' hne
    exact hother (s.fd, page') (by simpa using hne)
  refine ⟨⟨?_, hserves⟩, hkept⟩
  refine h.listed.agree rfl rfl ?_ ?_
  · refine holds_of_set ho hq hlinks hcached le_rfl hp hpin ?_
    intro hd hk
    obtain ⟨b₀, hb₀, he⟩ := hlinks.onDisk hb hd hk
    exact ⟨b₀, hb₀, he.trans hlink.symm⟩
  · intro page' v hv
    obtain ⟨b₀, hb₀, rfl⟩ := stored_eq_some.mp hv
    by_cases hne : page' = page
    · subst hne
      obtain rfl := Option.some.inj ((hcont _ _ hb₀).symm.trans hb)
      refine stored_eq_some.mpr ⟨b', ?_, hlink⟩
      simp [contents, hq]
    · exact stored_eq_some.mpr ⟨b₀, (hkept page' hne).2 b₀ hb₀, rfl⟩

section Fetch

/-- Room was made, and a page was pinned in a slot. -/
structure Fetched (s : FileHandle) (page : ℤ) (slot : ℕ) (q : BufferManager 4096) (c : Cache 4096)
    (b : Block 4096) : Prop where
  valid : s.IsValidPage page
  owned : Owned q
  evict : Evict s.bufferManager.cache c
  contents : c.contents (s.fd, page) = some b
  dirty : c.dirtyAt (s.fd, page) = s.dirtyAt page
  cache : q.cache = c.hold (s.fd, page) b (c.pins (s.fd, page) + 1)
  find : q.hashTable.find s.fd page = some slot

theorem Fetched.entry {slot : ℕ} (h : Fetched s page slot q c b) :
    q.bufferPool slot =
      ⟨c.dirtyAt (s.fd, page), s.fd, page, b, c.pins (s.fd, page) + 1⟩ := by
  have hen := entry_of_find h.find
  rw [h.cache, entry_hold_self] at hen
  exact (Option.some.inj hen).symm

theorem Served.pins_nonneg (h : Served P s l) (page : ℤ) : 0 ≤ s.pins page := by
  cases hen : s.bufferManager.cache.entry (s.fd, page) with
  | none => exact (pins_of_none hen).ge
  | some en => exact (pins_of_entry hen).ge.trans' (h.listed.holds.cached page en hen).2.2

/-- What was fetched is the page as it was. -/
theorem Fetched.contents_eq {slot : ℕ} (h : Served P s l) (hf : Fetched s page slot q c b) :
    s.contents page = some b := by
  obtain ⟨v, hv, -⟩ := h.listed.used page hf.valid
  obtain ⟨b₀, hb₀, -⟩ := stored_eq_some.mp hv
  have := (h.serves.evict hf.evict).2 _ b₀ hb₀
  rw [hf.contents] at this
  exact this ▸ hb₀

theorem Fetched.served {slot : ℕ} (h : Served P s l) (hf : Fetched s page slot q c b) :
    let t : FileHandle := { s with bufferManager := q }
    Served P t l ∧ Spares s t ∧ s.pins page + 1 ≤ t.pins page := by
  intro t
  have hle : s.pins page ≤ c.pins (s.fd, page) := hf.evict.pins_le (s.fd, page)
  have hnonneg := h.pins_nonneg page
  have hpins : t.pins page = c.pins (s.fd, page) + 1 := by simp [t, pins, hf.cache]
  obtain ⟨hserved, hother⟩ := h.hold hf.valid hf.owned hf.evict hf.contents hf.cache
    (by omega) (fun _ => by omega) rfl (Or.inl rfl)
  refine ⟨hserved, ⟨rfl, rfl, ?_, ?_⟩, by omega⟩
  · intro page'
    by_cases hne : page' = page
    · subst hne
      omega
    · exact (hother page' hne).1
  · intro page' b' hb'
    by_cases hne : page' = page
    · subst hne
      obtain rfl := Option.some.inj ((hf.contents_eq h).symm.trans hb')
      simp [t, FileHandle.contents, hf.cache]
    · exact (hother page' hne).2 b' hb'

/-- What follows the checks of `getThisPage`. -/
theorem getThisPage_eq (ho : s.fileIsOpen = true) (hp : s.IsValidPage page) :
    getThisPage page s = (do
      let slot ← pool (BufferManager.getPage s.fd page true)
      if nextFree ((← get).data slot) = pageUsed then
        return ⟨page, slot⟩
      else
        unpinPage page
        throw .invalidPage : FileOp PageHandle) s := by
  rw [getThisPage, bind_of_ok (checkOpen_of_open ho), bind_of_ok (checkValidPage_of_valid hp)]
  rfl

theorem getThisPage_invalid (ho : s.fileIsOpen = true) (hp : ¬ s.IsValidPage page) :
    getThisPage page s = .error .invalidPage s := by
  rw [getThisPage, bind_of_ok (checkOpen_of_open ho)]
  exact bind_error_iff.mpr (Or.inl (checkValidPage_of_not hp))

theorem getPage_fetched {slot : ℕ} (h : Served P s l) (hp : s.IsValidPage page)
    (hg : pool (BufferManager.getPage s.fd page true) s = .ok slot t) :
    ∃ c b q, t = { s with bufferManager := q } ∧ Fetched s page slot q c b ∧
      (nextFree b ≠ pageUsed ↔ page ∈ l) := by
  obtain ⟨-, -, -, hlink⟩ := fetchPage_ok h.listed hp hg
  obtain ⟨q, hq, rfl⟩ := pool_ok.mp hg
  obtain ⟨c, b, hev, hb, hd, hc⟩ := getPage_hold (by decide) h.serves.owned hq
  have hf : Fetched s page slot q c b :=
    ⟨hp, getPage_owned h.serves.owned hq, hev, hb, hd, hc, getPage_find hq⟩
  refine ⟨c, b, q, rfl, hf, ?_⟩
  simpa only [data, hf.entry] using hlink

theorem getThisPage_ok (h : Served P s l) (hg : getThisPage page s = .ok ph t) :
    ∃ c b q slot, ph = ⟨page, slot⟩ ∧ t = { s with bufferManager := q } ∧
      Fetched s page slot q c b ∧ page ∉ l := by
  by_cases hp : s.IsValidPage page
  · rw [getThisPage_eq h.listed.isOpen hp] at hg
    obtain ⟨slot, u, hget, hg⟩ := bind_ok_iff.mp hg
    obtain ⟨c, b, q, rfl, hf, hlink⟩ := getPage_fetched h hp hget
    replace hg := get_bind_ok_iff.mp hg
    simp only [data, hf.entry] at hg
    split at hg
    · next hused =>
      obtain ⟨rfl, rfl⟩ := pure_ok_iff.mp hg
      exact ⟨c, b, q, slot, rfl, rfl, hf, fun hm => hlink.mpr hm hused⟩
    · obtain ⟨_, _, _, hg⟩ := bind_ok_iff.mp hg
      exact absurd hg throw_ne_ok
  · rw [getThisPage_invalid h.listed.isOpen hp] at hg
    cases hg

theorem Served.getThisPage (h : Served P s l) (hg : getThisPage page s = .ok ph t) :
    Served P t l ∧ Spares s t ∧ s.pins page + 1 ≤ t.pins page := by
  obtain ⟨c, b, q, slot, -, rfl, hf, -⟩ := getThisPage_ok h hg
  exact hf.served h

/-- A page in use is handed out if the pool can hold it. -/
theorem getThisPage_returns (h : Served P s l) (hp : s.IsValidPage page) (hl : page ∉ l)
    (hroom : CanHold s.bufferManager s.fd page) :
    ∃ slot t, getThisPage page s = .ok ⟨page, slot⟩ t := by
  obtain ⟨v, hv, -⟩ := h.listed.used page hp
  obtain ⟨b₀, hb₀, -⟩ := stored_eq_some.mp hv
  obtain ⟨slot, q, hq⟩ := h.serves.getPage hb₀ hroom
  have hget : pool (BufferManager.getPage s.fd page true) s =
      .ok slot { s with bufferManager := q } := pool_ok.mpr ⟨q, hq, rfl⟩
  obtain ⟨-, -, -, hlink⟩ := fetchPage_ok h.listed hp hget
  refine ⟨slot, { s with bufferManager := q }, ?_⟩
  rw [getThisPage_eq h.listed.isOpen hp, bind_of_ok hget, bind_of_ok (get_ok_iff.mpr ⟨rfl, rfl⟩)]
  rw [if_pos (not_not.mp fun hne => hl (hlink.mp hne))]
  rfl

end Fetch

section Unpin

variable {u : Unit}

theorem checked_ok {α : Type} {a : α} (x : ℤ → Op 4096 α) (ho : s.fileIsOpen = true)
    (h : (do checkOpen; checkValidPage page; pool (x (← get).fd) : FileOp α) s = .ok a t) :
    s.IsValidPage page ∧ ∃ q, x s.fd s.bufferManager = .ok a q ∧
      t = { s with bufferManager := q } := by
  by_cases hp : s.IsValidPage page
  · rw [checked_eq (fun fd => pool (x fd)) ho hp] at h
    exact ⟨hp, pool_ok.mp h⟩
  · rw [checked_invalid (fun fd => pool (x fd)) ho hp] at h
    cases h

/-- A call that checks its page first changes nothing if its call of the pool does not. -/
theorem checked_unchanged {α : Type} (x : ℤ → Op 4096 α) (ho : s.fileIsOpen = true)
    (hx : ∀ e q, x s.fd s.bufferManager = .error e q → q = s.bufferManager)
    (h : (do checkOpen; checkValidPage page; pool (x (← get).fd) : FileOp α) s = .error e t) :
    t = s := by
  by_cases hp : s.IsValidPage page
  · rw [checked_eq (fun fd => pool (x fd)) ho hp] at h
    obtain ⟨q, hq, rfl⟩ := pool_error.mp h
    rw [hx e q hq]
  · rw [checked_invalid (fun fd => pool (x fd)) ho hp] at h
    injection h with _ h
    exact h.symm

theorem unpinPage_unchanged (ho : s.fileIsOpen = true) (hu : unpinPage page s = .error e t) :
    t = s :=
  checked_unchanged (fun fd => BufferManager.unpinPage fd page) ho
    (fun _ _ hq => (unpinPage_error hq).1) hu

/-- A page with unsaved changes must keep a pin. -/
theorem Served.unpinPage (h : Served P s l) (hu : unpinPage page s = .ok u t)
    (hkeep : P page → 1 < s.pins page) :
    Served P t l ∧ t.fd = s.fd ∧ t.header = s.header ∧
      (∀ p b, s.contents p = some b → t.contents p = some b) ∧
      s.pins page ≤ t.pins page + 1 ∧ ∀ p, p ≠ page → s.pins p ≤ t.pins p := by
  obtain ⟨hp, q, hq, rfl⟩ :=
    checked_ok (fun fd => BufferManager.unpinPage fd page) h.listed.isOpen hu
  obtain ⟨b, hb, hne, hc⟩ := unpinPage_hold h.serves.owned hq
  have hnonneg : 0 ≤ s.bufferManager.cache.pins (s.fd, page) := h.pins_nonneg page
  obtain ⟨hserved, hother⟩ := h.hold hp (unpinPage_owned h.serves.owned hq) (.keep _) hb hc
    (by omega) (fun hP => Int.sub_pos_of_lt (hkeep hP)) rfl (Or.inl rfl)
  refine ⟨hserved, rfl, rfl, ?_, ?_, fun p hp => (hother p hp).1⟩
  · intro p b' hb'
    by_cases he : p = page
    · subst he
      obtain rfl := Option.some.inj (hb.symm.trans hb')
      simp [contents, hc]
    · exact (hother p he).2 b' hb'
  · simp [pins, hc]

/-- A call that throws gives back the pin it took. -/
theorem getThisPage_error (h : Served P s l) (hg : getThisPage page s = .error e t) :
    Served P t l ∧ Spares s t := by
  by_cases hp : s.IsValidPage page
  swap
  · rw [getThisPage_invalid h.listed.isOpen hp] at hg
    injection hg with _ hg
    exact hg ▸ ⟨h, spares_refl s⟩
  rw [getThisPage_eq h.listed.isOpen hp] at hg
  obtain hget | ⟨slot, v, hget, hg⟩ := bind_error_iff.mp hg
  · obtain ⟨q, hq, rfl⟩ := pool_error.mp hget
    obtain ⟨v, hv, -⟩ := h.listed.used page hp
    rw [h.listed.holds.getPage_error hv hq]
    exact ⟨h, spares_refl s⟩
  obtain ⟨c, b, q, rfl, hf, -⟩ := getPage_fetched h hp hget
  obtain ⟨hserved, hspares, hpins⟩ := hf.served h
  replace hg := get_bind_error_iff.mp hg
  split at hg
  · exact absurd hg pure_ne_error
  obtain hu | ⟨_, w, hu, hg⟩ := bind_error_iff.mp hg
  · rw [unpinPage_unchanged hserved.listed.isOpen hu]
    exact ⟨hserved, hspares⟩
  · obtain ⟨-, rfl⟩ := throw_error_iff.mp hg
    have hkeep : P page → 1 < FileHandle.pins { s with bufferManager := q } page := by
      intro hP
      have := pendingPinned_iff.mp h.serves.pinned (s.fd, page) ⟨rfl, hP⟩
      unfold pins at hpins ⊢
      omega
    obtain ⟨hserved', hfd, hheader, hcont, hpin, hother⟩ := hserved.unpinPage hu hkeep
    refine ⟨hserved', hfd, hheader, ?_, fun p b hb => hcont p b (hspares.contents p b hb)⟩
    intro p
    by_cases he : p = page
    · subst he
      omega
    · exact (hspares.pins p).trans (hother p he)

end Unpin

section Allocate

/-- A page of the file that is not on the free list. -/
def InUse (s : FileHandle) (l : List ℤ) (page : ℤ) : Prop := s.IsValidPage page ∧ page ∉ l

theorem inUse_iff (h : t.header = s.header) (page : ℤ) : InUse t l page ↔ InUse s l page := by
  rw [InUse, InUse, IsValidPage, IsValidPage, h]

theorem takePage_hold (h : Served P s l) (ht : takePage s = .ok ph t) :
    ∃ c b, Evict s.bufferManager.cache c ∧ t.fd = s.fd ∧ Owned t.bufferManager ∧
      t.bufferManager.cache = c.hold (s.fd, ph.page) b (c.pins (s.fd, ph.page) + 1) := by
  replace ht := get_bind_ok_iff.mp ht
  by_cases hfirst : s.header.firstFree ≠ pageListEnd
  · rw [if_pos hfirst] at ht
    obtain ⟨slot, v, hget, ht⟩ := bind_ok_iff.mp ht
    obtain ⟨_, w, hm, ht⟩ := bind_ok_iff.mp ht
    obtain ⟨rfl, rfl⟩ := pure_ok_iff.mp ht
    obtain ⟨q, hq, rfl⟩ := pool_ok.mp hget
    obtain rfl := modify_ok_iff.mp hm
    obtain ⟨c, b, hev, -, -, hc⟩ := getPage_hold (by decide) h.serves.owned hq
    exact ⟨c, b, hev, rfl, getPage_owned h.serves.owned hq, hc⟩
  · rw [if_neg hfirst] at ht
    obtain ⟨r, v, hget, ht⟩ := bind_ok_iff.mp ht
    obtain ⟨q, hq, rfl⟩ := pool_ok.mp hget
    obtain ⟨rfl, -, -⟩ | ⟨hnone, c, b, slot, rfl, hev, hc, -⟩ :=
      allocatePage_cache h.serves.owned hq
    · obtain ⟨slot, hslot, -⟩ := h.listed.holds.allocatePage h.listed.count.1 hq
      cases hslot
    · obtain ⟨m, v, hinc, ht⟩ := bind_ok_iff.mp ht
      obtain ⟨_, w, hm, ht⟩ := bind_ok_iff.mp ht
      obtain ⟨rfl, rfl⟩ := pure_ok_iff.mp ht
      obtain rfl := modify_ok_iff.mp hm
      unfold increment at hinc
      split at hinc
      · obtain ⟨rfl, rfl⟩ := pure_ok_iff.mp hinc
        have hnone' := hev.entry_none hnone
        refine ⟨c, b, hev, rfl, allocatePage_owned h.serves.owned hq, ?_⟩
        rw [hc, Cache.hold, dirtyAt_of_none hnone', pins_of_none hnone', zero_add]
      · exact absurd hinc throw_ne_ok

/-- The page that is handed out is clear, dirty, and pinned. -/
theorem allocatePage_hold (h : Served P s l) (ha : allocatePage s = .ok ph t) :
    ∃ c, Evict s.bufferManager.cache c ∧ t.fd = s.fd ∧ Owned t.bufferManager ∧
      t.bufferManager.cache = c.set (s.fd, ph.page)
        ⟨true, s.fd, ph.page, setNextFree (fun _ => 0) pageUsed,
          c.pins (s.fd, ph.page) + 1⟩ := by
  rw [allocatePage, bind_of_ok (checkOpen_of_open h.listed.isOpen)] at ha
  obtain ⟨ph', v, htake, ha⟩ := bind_ok_iff.mp ha
  obtain ⟨_, w, hm, ha⟩ := bind_ok_iff.mp ha
  obtain rfl := modify_ok_iff.mp hm
  obtain ⟨_, w, hdirty, ha⟩ := bind_ok_iff.mp ha
  obtain ⟨rfl, rfl⟩ := pure_ok_iff.mp ha
  obtain ⟨c, b, hev, hfd, ho, hc⟩ := takePage_hold h htake
  obtain ⟨hopen, -, hvalid, hfind, -⟩ := takePage_ok h.listed htake
  let x := { v with headerChanged := true }.setData ph'.slot (setNextFree (fun _ => 0) pageUsed)
  have hox : Owned x.bufferManager := owned_iff.mpr ((owned_iff.mp ho).setEntry rfl rfl)
  have heq : FileHandle.markDirty ph'.page x = pool (BufferManager.markDirty x.fd ph'.page) x :=
    checked_eq (fun fd => pool (BufferManager.markDirty fd ph'.page)) hopen hvalid
  rw [heq] at hdirty
  obtain ⟨q, hq, rfl⟩ := pool_ok.mp hdirty
  refine ⟨c, hev, hfd, markDirty_owned hox hq, ?_⟩
  obtain ⟨en, hen, hcq⟩ := markDirty_cache hox hq
  have hentry := entry_of_find hfind
  rw [hfd, hc, entry_hold_self] at hentry
  have hx : x.bufferManager.cache = v.bufferManager.cache.set (v.fd, ph'.page)
      { v.bufferManager.bufferPool ph'.slot with data := setNextFree (fun _ => 0) pageUsed } :=
    cache_setEntry (owned_iff.mp ho).named hfind _
  have hxfd : x.fd = s.fd := hfd
  rw [hx, hfd, hxfd, set_entry_self] at hen
  obtain rfl := Option.some.inj hen
  rw [← Option.some.inj hentry] at hx hcq
  rw [hcq, hx, hxfd, hfd, set_set, hc, Cache.hold, set_set]

/-- One page comes into use, clear and pinned; the other pages of the file stay as they are. -/
theorem Served.allocatePage (h : Served P s l) (ha : allocatePage s = .ok ph t) :
    ∃ l', Served P t l' ∧ t.fd = s.fd ∧ ¬ InUse s l ph.page ∧
      t.contents ph.page = some (setNextFree (fun _ => 0) pageUsed) ∧
      s.pins ph.page + 1 ≤ t.pins ph.page ∧
      (∀ p, InUse t l' p ↔ p = ph.page ∨ InUse s l p) ∧
      ∀ p, p ≠ ph.page → s.pins p ≤ t.pins p ∧
        ∀ b, s.contents p = some b → t.contents p = some b := by
  obtain ⟨c, hev, hfd, ho, hc⟩ := allocatePage_hold h ha
  have hle : s.pins ph.page ≤ c.pins (s.fd, ph.page) := hev.pins_le (s.fd, ph.page)
  have hnonneg := h.pins_nonneg ph.page
  obtain ⟨l', hlisted, hvalid, hnot, huse⟩ : ∃ l', Listed t l' ∧ t.IsValidPage ph.page ∧
      ¬ InUse s l ph.page ∧ ∀ p, InUse t l' p ↔ p = ph.page ∨ InUse s l p := by
    obtain ⟨rest, rfl, hnum, hl⟩ | ⟨rfl, hpage, hnum, hl⟩ := allocatePage_listed h.listed ha
    · have hold := h.listed.valid ph.page (by simp)
      obtain ⟨hfresh, -⟩ := List.nodup_cons.mp h.listed.nodup
      have hvalid : ∀ p, t.IsValidPage p ↔ s.IsValidPage p := by
        intro p
        rw [IsValidPage, IsValidPage, hnum]
      refine ⟨rest, hl, (hvalid _).mpr hold, fun hu => hu.2 (by simp), ?_⟩
      intro p
      rw [InUse, InUse, hvalid]
      by_cases he : p = ph.page
      · subst he
        simp [hold, hfresh]
      · simp [he]
    · have hcount := h.listed.count.1
      refine ⟨[], hl, ?_, ?_, ?_⟩
      · rw [IsValidPage, hpage, hnum]
        omega
      · rw [InUse, IsValidPage, hpage]
        omega
      · intro p
        simp only [InUse, IsValidPage, hnum, hpage, List.not_mem_nil, not_false_eq_true, and_true]
        omega
  have hplace : 0 ≤ pageOffset 4096 ph.page := by
    have := hvalid.1
    unfold pageOffset
    omega
  obtain ⟨hserves, hother⟩ := h.serves.set ho hev hc (hev.isSome_disk h.serves.file) hplace
    (fun _ => by dsimp only; omega) (fun hd => by cases hd)
  refine ⟨l', ⟨hlisted, by rw [hfd]; exact hserves⟩, hfd, hnot, ?_, ?_, huse, ?_⟩
  · rw [contents, hfd, hc, contents_of_entry set_entry_self]
  · have hpins : t.pins ph.page = c.pins (s.fd, ph.page) + 1 := by
      rw [pins, hfd, hc, pins_of_entry set_entry_self]
    omega
  · intro p hne
    have hpins : t.pins p = t.bufferManager.cache.pins (s.fd, p) := by rw [pins, hfd]
    have hcont : t.contents p = t.bufferManager.cache.contents (s.fd, p) := by
      rw [contents, hfd]
    rw [hpins, hcont]
    exact hother (s.fd, p) (by simpa using hne)

end Allocate

/-- Room is made, and a page of another file gets an entry. -/
theorem Served.other {k : PageId} {en : BufferEntry 4096} (h : Served P s l) (hk : k.1 ≠ s.fd)
    (ho : Owned q) (hev : Evict s.bufferManager.cache c) (hq : q.cache = c.set k en)
    (hfile : (c.disk k.1).isSome = true) (hplace : 0 ≤ pageOffset 4096 k.2)
    (hen : en.dirty = false → c.disk.page k.1 k.2 = some en.data) :
    Served P { s with bufferManager := q } l ∧ Spares s { s with bufferManager := q } := by
  obtain ⟨hlinks, -, hcached⟩ := h.listed.holds.evict hev
  have hne : ∀ page, (s.fd, page) ≠ k := by
    rintro page rfl
    exact hk rfl
  obtain ⟨hserves, hother⟩ := h.serves.set ho hev hq hfile hplace
    (fun hpend => absurd hpend.1 hk) (fun hd _ => hen hd)
  have hkept := fun page => hother (s.fd, page) (hne page)
  refine ⟨⟨?_, hserves⟩, rfl, rfl, fun page => (hkept page).1, fun page => (hkept page).2⟩
  refine h.listed.agree rfl rfl ⟨ho, ?_, ?_⟩ ?_
  · rw [hq]
    exact hlinks.set fun hd _ => ⟨en.data, hen hd, rfl⟩
  · intro page en' hen'
    rw [hq, set_entry_of_ne (hne page)] at hen'
    exact hcached page en' hen'
  · intro page v hv
    obtain ⟨b, hb, rfl⟩ := stored_eq_some.mp hv
    exact stored_eq_some.mpr ⟨b, (hkept page).2 b hb, rfl⟩

theorem markDirty_unchanged (ho : s.fileIsOpen = true) (hm : markDirty page s = .error e t) :
    t = s :=
  checked_unchanged (fun fd => BufferManager.markDirty fd page) ho
    (fun _ _ hq => (markDirty_error hq).1) hm

theorem Served.markDirty {u : Unit} (h : Served P s l) (hm : markDirty page s = .ok u t) :
    Served P t l ∧ Spares s t := by
  have hquiet : Quiet s (after (FileHandle.markDirty page) s) := markDirty_quiet h.listed
  simp only [after, hm] at hquiet
  obtain ⟨-, q, hq, rfl⟩ :=
    checked_ok (fun fd => BufferManager.markDirty fd page) h.listed.isOpen hm
  obtain ⟨en, hen, hc⟩ := markDirty_cache h.serves.owned hq
  obtain ⟨hfile, hplace⟩ := h.serves.writable _ _ hen
  have hpos : P page → 0 < en.pin := by
    intro hP
    obtain ⟨en', hen', hpin⟩ := h.serves.pinned (s.fd, page) ⟨rfl, hP⟩
    rw [hen] at hen'
    exact Option.some.inj hen' ▸ hpin
  obtain ⟨hserves, hother⟩ := h.serves.set (markDirty_owned h.serves.owned hq) (.keep _) hc hfile
    hplace (fun hk => hpos hk.2) (fun hd => by cases hd)
  refine ⟨⟨h.listed.quiet hquiet, hserves⟩, rfl, rfl, ?_, ?_⟩
  · intro p
    by_cases he : p = page
    · subst he
      simp [pins, hc, pins_of_entry hen, pins_of_entry set_entry_self]
    · exact (hother (s.fd, p) (by simpa using he)).1
  · intro p b hb
    by_cases he : p = page
    · subst he
      rw [contents, contents_of_entry hen] at hb
      rw [contents, hc, contents_of_entry set_entry_self, hb]
    · exact (hother (s.fd, p) (by simpa using he)).2 b hb

end FileHandle

end AlphaDb.Io
