import AlphaDb.Io.PageAccess
import AlphaDb.Table.TableFormat

/-! Records in the pages of a table file (`table/table_handle`), over any layout of records within
one page. -/
namespace AlphaDb.Table

open AlphaDb.Io EStateM BufferManager Cache FileHandle

/-- `slot_ptr_t`: a slot as it is passed to a page. -/
def slotPtr (slot : ℤ) : UInt16 := UInt16.ofInt slot

/-- The calls of `table_format`, on the bytes behind the link of a page. -/
structure RecordFormat where
  nextFree : Block 4092 → ℤ
  /-- `free_upper - free_lower`. -/
  space : Block 4092 → ℤ
  get : Block 4092 → UInt16 → Option (List UInt8)
  /-- The slot of the new record, or -1. -/
  put : Block 4092 → List UInt8 → Block 4092 × ℤ
  remove : Block 4092 → UInt16 → Block 4092 × Bool

/-- A page keeps its records: what was put at a slot is there until the slot is removed. -/
structure RecordFormat.Lawful (F : RecordFormat) : Prop where
  get_clear : F.get (fun _ => 0) = fun _ => none
  get_put : ∀ d a, (F.put d a).2 ≠ -1 →
    F.get (F.put d a).1 = Function.update (F.get d) (slotPtr (F.put d a).2) (some a)
  get_refused : ∀ d a, (F.put d a).2 = -1 → F.get (F.put d a).1 = F.get d
  get_remove : ∀ d i, F.get (F.remove d i).1 = Function.update (F.get d) i none
  remove_found : ∀ d i, (F.remove d i).2 = (F.get d i).isSome
  remove_missing : ∀ d i, F.get d i = none → (F.remove d i).1 = d

section Calls

variable (F : RecordFormat) (firstFree : ℤ)

/-- The body of every call: a page is fetched, used behind its link, and unpinned. -/
def withPage {α : Type} (page : ℤ) (f : Block 4092 → Block 4092 × α) : FileOp α := do
  let ph ← getThisPage page
  let s ← get
  let r := f (pageData (s.data ph.slot))
  set (s.setData ph.slot (setPageData (s.data ph.slot) r.1))
  unpinPage ph.page
  return r.2

/-- Nothing stands for the record of a tuple that was never set. -/
def getRecord (id : Rid) : FileOp (Option (List UInt8)) :=
  withPage id.page fun d => (d, F.get d (slotPtr id.slot))

/-- The loop of `getNextFree`, with so many seeks left. The pages it looks at stay pinned. -/
def seekFree (need : ℤ) : ℕ → ℤ → FileOp ℤ
  | 0, _ => do
    let ph ← allocatePage
    return ph.page
  | seeks + 1, e => do
    if 0 < e then
      let ph ← getThisPage e
      let d := pageData ((← get).data ph.slot)
      if F.space d > need then return e
      else seekFree need seeks (F.nextFree d)
    else
      let ph ← allocatePage
      return ph.page

def getNextFree (need : ℤ) : FileOp ℤ := seekFree F need 3 firstFree

def insertRecord (data : List UInt8) : FileOp Rid := do
  let nextfree ← getNextFree F firstFree data.length
  let slot ← withPage nextfree fun d => F.put d data
  return ⟨nextfree, slot⟩

def deleteRecord (id : Rid) : FileOp Bool :=
  withPage id.page fun d => F.remove d (slotPtr id.slot)

/-- Nothing stands for the result when the end is reached without one. -/
def updateRecord (id : Rid) (data : List UInt8) : FileOp (Option Bool) := do
  if ← deleteRecord F id then
    let _ ← insertRecord F firstFree data
    return none
  else return some false

end Calls

variable {F : RecordFormat} {s t : FileHandle} {l : List ℤ} {P : ℤ → Prop} {page : ℤ}
  {α : Type} {f : Block 4092 → Block 4092 × α} {r : α} {e : Error}

section WithPage

/-- A page that was fetched is used and gives back its pin, without being marked dirty. -/
theorem withPage_of_fetched {slot : ℕ} {q : BufferManager 4096} {c : Cache 4096} {b : Block 4096}
    (h : Served P s l) (hg : getThisPage page s = .ok ⟨page, slot⟩ { s with bufferManager := q })
    (hf : Fetched s page slot q c b) :
    ∃ q', withPage page f s = .ok (f (pageData b)).2 { s with bufferManager := q' } ∧ Owned q' ∧
      q'.cache = c.hold (s.fd, page) (setPageData b (f (pageData b)).1)
        (c.pins (s.fd, page)) := by
  have hnonneg : 0 ≤ c.pins (s.fd, page) :=
    (h.pins_nonneg page).trans (hf.evict.pins_le (s.fd, page))
  let b' := setPageData b (f (pageData b)).1
  let v : FileHandle := FileHandle.setData { s with bufferManager := q } slot b'
  have hov : Owned v.bufferManager := owned_iff.mpr ((owned_iff.mp hf.owned).setEntry rfl rfl)
  have hv : v.bufferManager.cache =
      c.hold (s.fd, page) b' (c.pins (s.fd, page) + 1) := by
    have hset : v.bufferManager.cache = q.cache.set (s.fd, page)
        { q.bufferPool slot with data := b' } :=
    cache_setEntry (owned_iff.mp hf.owned).named hf.find _
    rw [hset, hf.entry, hf.cache, Cache.hold, set_set, Cache.hold]
  have hpin : (v.bufferManager.bufferPool slot).pin ≠ 0 := by
    simp only [v, setData, BufferManager.setEntry, Function.update_self, hf.entry]
    omega
  obtain ⟨q', hq'⟩ := unpinPage_of_find (p := v.bufferManager) hf.find hpin
  have hu : unpinPage page v = .ok () { v with bufferManager := q' } :=
    (unpinPage_eq (s := v) h.listed.isOpen hf.valid).trans (pool_ok.mpr ⟨q', hq', rfl⟩)
  refine ⟨q', ?_, unpinPage_owned hov hq', ?_⟩
  · rw [withPage, bind_of_ok hg, bind_of_ok (get_ok_iff.mpr ⟨rfl, rfl⟩)]
    simp only [data, hf.entry]
    rw [bind_of_ok ((set_ok_iff (v := ⟨⟩)).mpr rfl), bind_of_ok hu]
    rfl
  · obtain ⟨b₀, hb₀, -, hc⟩ := unpinPage_hold hov hq'
    rw [hv, contents_hold_self] at hb₀
    obtain rfl := Option.some.inj hb₀
    rw [hc, hv, pins_hold_self, hold_hold, add_sub_cancel_right]

theorem withPage_of_error (hg : getThisPage page s = .error e t) :
    withPage page f s = .error e t := by
  rw [withPage]
  exact bind_error_iff.mpr (Or.inl hg)

/-- What is read from a page is read from its bytes. -/
theorem withPage_value (h : Served P s l) (hw : withPage page f s = .ok r t) :
    ∃ b, InUse s l page ∧ s.contents page = some b ∧ r = (f (pageData b)).2 := by
  cases hg : getThisPage page s with
  | error e u =>
    rw [withPage_of_error hg] at hw
    cases hw
  | ok ph u =>
    obtain ⟨c, b, q, slot, rfl, rfl, hf, hl⟩ := getThisPage_ok h hg
    obtain ⟨q', hq', -⟩ := withPage_of_fetched (f := f) h hg hf
    rw [hq'] at hw
    injection hw with hr
    exact ⟨b, ⟨hf.valid, hl⟩, hf.contents_eq h, hr.symm⟩

/-- The page is left with the bytes that `f` gives it, as long as they are not lost: they are the
same, or the page is dirty, or it has unsaved changes already. -/
theorem withPage_ok (h : Served P s l) (hw : withPage page f s = .ok r t)
    (hsave : ∀ b, InUse s l page → s.contents page = some b →
      (f (pageData b)).1 = pageData b ∨ s.dirtyAt page = true ∨ P page) :
    ∃ b, InUse s l page ∧ s.contents page = some b ∧ r = (f (pageData b)).2 ∧
      t.contents page = some (setPageData b (f (pageData b)).1) ∧ Served P t l ∧
      t.fd = s.fd ∧ t.header = s.header ∧ ∀ p, s.pins p ≤ t.pins p ∧
        ∀ b, p ≠ page → s.contents p = some b → t.contents p = some b := by
  cases hg : getThisPage page s with
  | error e u =>
    rw [withPage_of_error hg] at hw
    cases hw
  | ok ph u =>
    obtain ⟨c, b, q, slot, rfl, rfl, hf, hl⟩ := getThisPage_ok h hg
    obtain ⟨q', hq', ho, hc⟩ := withPage_of_fetched (f := f) h hg hf
    rw [hq'] at hw
    injection hw with hr ht
    subst hr ht
    have hb := hf.contents_eq h
    have hle : s.pins page ≤ c.pins (s.fd, page) := hf.evict.pins_le (s.fd, page)
    have hpos : P page → 0 < s.pins page :=
      fun hP => pendingPinned_iff.mp h.serves.pinned (s.fd, page) ⟨rfl, hP⟩
    have hnonneg := h.pins_nonneg page
    obtain ⟨hserved, hother⟩ := h.hold hf.valid ho hf.evict hf.contents hc (by omega)
      (fun hP => (hpos hP).trans_le hle) (nextFree_setPageData ..) (by
        rw [hf.dirty]
        rcases hsave b ⟨hf.valid, hl⟩ hb with hsame | hkeep
        · left
          rw [hsame, setPageData_pageData]
        · exact Or.inr hkeep)
    refine ⟨b, ⟨hf.valid, hl⟩, hb, rfl, ?_, hserved, rfl, rfl, ?_⟩
    · simp [FileHandle.contents, hc]
    · intro p
      by_cases he : p = page
      · subst he
        refine ⟨?_, fun _ hne => absurd rfl hne⟩
        have hpins : FileHandle.pins { s with bufferManager := q' } p = c.pins (s.fd, p) := by
          rw [FileHandle.pins, hc, pins_hold_self]
        exact hle.trans hpins.ge
      · exact ⟨(hother p he).1, fun b _ hb => (hother p he).2 b hb⟩

/-- A call that throws has done no work. -/
theorem withPage_error (h : Served P s l) (hw : withPage page f s = .error e t) :
    Served P t l ∧ Spares s t := by
  cases hg : getThisPage page s with
  | error e' u =>
    rw [withPage_of_error hg] at hw
    injection hw with he hu
    subst he hu
    exact getThisPage_error h hg
  | ok ph u =>
    obtain ⟨c, b, q, slot, rfl, rfl, hf, -⟩ := getThisPage_ok h hg
    obtain ⟨q', hq', -⟩ := withPage_of_fetched (f := f) h hg hf
    rw [hq'] at hw
    cases hw

theorem withPage_returns (h : Served P s l) (hp : InUse s l page)
    (hroom : CanHold s.bufferManager s.fd page) :
    ∃ r t, withPage page f s = .ok r t := by
  obtain ⟨slot, u, hg⟩ := getThisPage_returns h hp.1 hp.2 hroom
  obtain ⟨c, b, q, slot', hph, rfl, hf, -⟩ := getThisPage_ok h hg
  injection hph with _ hslot
  subst hslot
  obtain ⟨q', hq', -⟩ := withPage_of_fetched (f := f) h hg hf
  exact ⟨_, _, hq'⟩

theorem getRecord_ok {id : Rid} {a : Option (List UInt8)} (h : Served P s l)
    (hg : getRecord F id s = .ok a t) :
    ∃ b, InUse s l id.page ∧ s.contents id.page = some b ∧
      a = F.get (pageData b) (slotPtr id.slot) ∧ Served P t l ∧ Spares s t := by
  obtain ⟨b, hp, hb, ha, hcont, hserved, hfd, hheader, hother⟩ :=
    withPage_ok h hg fun _ _ _ => Or.inl rfl
  refine ⟨b, hp, hb, ha, hserved, hfd, hheader, fun p => (hother p).1, ?_⟩
  intro p b' hb'
  by_cases he : p = id.page
  · subst he
    rw [hcont, setPageData_pageData, ← hb, hb']
  · exact (hother p).2 b' he hb'

theorem getRecord_spares (F : RecordFormat) (id : Rid) (h : Served P s l) :
    Served P (after (getRecord F id) s) l ∧ Spares s (after (getRecord F id) s) := by
  cases hg : getRecord F id s with
  | ok a t =>
    obtain ⟨_, -, -, -, hserved⟩ := getRecord_ok h hg
    simpa only [after, hg] using hserved
  | error e t => simpa only [after, hg] using withPage_error h hg

end WithPage

section Insert

variable {l' l'' : List ℤ} {u : FileHandle} {firstFree need e : ℤ} {seeks : ℕ} {x : Error}
  {id : Rid} {a : List UInt8}

/-- Pages in use stay as they are, and pages come into use clear. -/
structure Grows (s : FileHandle) (l : List ℤ) (t : FileHandle) (l' : List ℤ) : Prop where
  fd : t.fd = s.fd
  pins : ∀ p, s.pins p ≤ t.pins p
  kept : ∀ p, InUse s l p → InUse t l' p ∧ ∀ b, s.contents p = some b → t.contents p = some b
  fresh : ∀ p, InUse t l' p →
    InUse s l p ∨ t.contents p = some (setNextFree (fun _ => 0) pageUsed)

theorem grows_of_spares (h : Spares s t) : Grows s l t l := by
  have huse : ∀ p, InUse t l p ↔ InUse s l p := inUse_iff h.header
  exact ⟨h.fd, h.pins, fun p hp => ⟨(huse p).mpr hp, h.contents p⟩,
    fun p hp => Or.inl ((huse p).mp hp)⟩

theorem Grows.trans (h : Grows s l t l') (h' : Grows t l' u l'') : Grows s l u l'' := by
  refine ⟨h'.fd.trans h.fd, fun p => (h.pins p).trans (h'.pins p), ?_, ?_⟩
  · intro p hp
    obtain ⟨hp', hcont⟩ := h.kept p hp
    obtain ⟨hp'', hcont'⟩ := h'.kept p hp'
    exact ⟨hp'', fun b hb => hcont' b (hcont b hb)⟩
  · intro p hp
    rcases h'.fresh p hp with hp' | hnew
    · rcases h.fresh p hp' with hp'' | hnew
      · exact Or.inl hp''
      · exact Or.inr ((h'.kept p hp').2 _ hnew)
    · exact Or.inr hnew

/-- A page to insert into: in use, and with one more pin than it had. -/
structure Offered (P : ℤ → Prop) (s : FileHandle) (l : List ℤ) (page : ℤ) (t : FileHandle)
    (l' : List ℤ) : Prop where
  served : Served P t l'
  grows : Grows s l t l'
  inUse : InUse t l' page
  pinned : s.pins page + 1 ≤ t.pins page

theorem offered_new (h : Served P s l)
    (ha : (do let ph ← allocatePage; return ph.page : FileOp ℤ) s = .ok page t) :
    ∃ l', Offered P s l page t l' := by
  obtain ⟨ph, v, hp, hv⟩ := bind_ok_iff.mp ha
  obtain ⟨rfl, rfl⟩ := pure_ok_iff.mp hv
  obtain ⟨l', hserved, hfd, hnot, hnew, hpins, huse, hother⟩ := h.allocatePage hp
  refine ⟨l', hserved, ⟨hfd, ?_, ?_, ?_⟩, (huse _).mpr (Or.inl rfl), hpins⟩
  · intro p
    by_cases he : p = ph.page
    · subst he
      omega
    · exact (hother p he).1
  · intro p hp
    have hne : p ≠ ph.page := by
      rintro rfl
      exact hnot hp
    exact ⟨(huse p).mpr (Or.inr hp), (hother p hne).2⟩
  · intro p hp
    rcases (huse p).mp hp with rfl | hp'
    · exact Or.inr hnew
    · exact Or.inl hp'

theorem new_error (h : Served P s l)
    (ha : (do let ph ← allocatePage; return ph.page : FileOp ℤ) s = .error x t) :
    x = .overflow ∨ t = s := by
  obtain hp | ⟨_, _, _, hp⟩ := bind_error_iff.mp ha
  · exact allocatePage_unchanged h.listed hp
  · exact absurd hp pure_ne_error

/-- One round of the loop that looks at a page. -/
theorem seekFree_pos (F : RecordFormat) (need : ℤ) (seeks : ℕ) (he : 0 < e) :
    seekFree F need (seeks + 1) e s = (do
      let ph ← getThisPage e
      let d := pageData ((← get).data ph.slot)
      if F.space d > need then return e
      else seekFree F need seeks (F.nextFree d) : FileOp ℤ) s := by
  rw [seekFree, if_pos he]

theorem seekFree_ok (h : Served P s l) (hs : seekFree F need seeks e s = .ok page t) :
    ∃ l', Offered P s l page t l' := by
  induction seeks generalizing s e with
  | zero => exact offered_new h hs
  | succ seeks ih =>
    by_cases he : 0 < e
    · rw [seekFree_pos F need seeks he] at hs
      obtain ⟨ph, v, hg, hs⟩ := bind_ok_iff.mp hs
      obtain ⟨c, b, q, slot, rfl, rfl, hf, hl⟩ := getThisPage_ok h hg
      obtain ⟨hserved, hspares, hpins⟩ := hf.served h
      replace hs := get_bind_ok_iff.mp hs
      split at hs
      · obtain ⟨rfl, rfl⟩ := pure_ok_iff.mp hs
        exact ⟨l, hserved, grows_of_spares hspares, ⟨hf.valid, hl⟩, hpins⟩
      · obtain ⟨l', ho⟩ := ih hserved hs
        refine ⟨l', ho.served, (grows_of_spares hspares).trans ho.grows, ho.inUse, ?_⟩
        have := hspares.pins page
        have := ho.pinned
        omega
    · rw [seekFree, if_neg he] at hs
      exact offered_new h hs

theorem seekFree_error (h : Served P s l) (hs : seekFree F need seeks e s = .error x t) :
    x = .overflow ∨ Served P t l ∧ Spares s t := by
  induction seeks generalizing s e with
  | zero =>
    rcases new_error h hs with hx | rfl
    · exact Or.inl hx
    · exact Or.inr ⟨h, spares_refl _⟩
  | succ seeks ih =>
    by_cases he : 0 < e
    · rw [seekFree_pos F need seeks he] at hs
      obtain hg | ⟨ph, v, hg, hs⟩ := bind_error_iff.mp hs
      · exact Or.inr (getThisPage_error h hg)
      obtain ⟨c, b, q, slot, rfl, rfl, hf, hl⟩ := getThisPage_ok h hg
      obtain ⟨hserved, hspares, -⟩ := hf.served h
      replace hs := get_bind_error_iff.mp hs
      split at hs
      · exact absurd hs pure_ne_error
      · rcases ih hserved hs with hx | ⟨hserved', hspares'⟩
        · exact Or.inl hx
        · exact Or.inr ⟨hserved', hspares.trans hspares'⟩
    · rw [seekFree, if_neg he] at hs
      rcases new_error h hs with hx | rfl
      · exact Or.inl hx
      · exact Or.inr ⟨h, spares_refl _⟩

theorem canHold_of_pins (h : 0 < s.pins page) : CanHold s.bufferManager s.fd page := by
  obtain ⟨en, hen, -⟩ := entry_of_pins h
  obtain ⟨slot, hslot, -⟩ := cache_entry_eq_some.mp hen
  left
  exact Option.ne_none_iff_exists'.mpr ⟨slot, hslot⟩

/-- A record is put into the page that was offered. The page keeps a pin, so it stays in the pool
although it is not marked dirty. -/
theorem insertRecord_ok (h : Served P s l) (hi : insertRecord F firstFree a s = .ok id t) :
    ∃ v l' b, Offered P s l id.page v l' ∧ v.contents id.page = some b ∧
      id.slot = (F.put (pageData b) a).2 ∧
      t.contents id.page = some (setPageData b (F.put (pageData b) a).1) ∧
      Served (fun p => P p ∨ p = id.page) t l' ∧ t.fd = v.fd ∧ t.header = v.header ∧
      ∀ p, v.pins p ≤ t.pins p ∧
        ∀ b, p ≠ id.page → v.contents p = some b → t.contents p = some b := by
  obtain ⟨page, v, hn, hi⟩ := bind_ok_iff.mp hi
  obtain ⟨slot, w, hw, hi⟩ := bind_ok_iff.mp hi
  obtain ⟨rfl, rfl⟩ := pure_ok_iff.mp hi
  obtain ⟨l', ho⟩ := seekFree_ok h hn
  have hnonneg := h.pins_nonneg page
  have hpinned := ho.pinned
  have hserved : Served (fun p => P p ∨ p = page) v l' := by
    refine ho.served.mono (fun p hp => Or.inl hp) ?_
    rintro p (hp | rfl)
    · exact pendingPinned_iff.mp ho.served.serves.pinned (v.fd, p) ⟨rfl, hp⟩
    · omega
  obtain ⟨b, -, hb, hr, hcont, hserved', hfd, hheader, hother⟩ :=
    withPage_ok hserved hw fun _ _ _ => Or.inr (Or.inr (Or.inr rfl))
  exact ⟨v, l', b, ho, hb, hr, hcont, hserved', hfd, hheader, hother⟩

theorem insertRecord_error (h : Served P s l)
    (hi : insertRecord F firstFree a s = .error x t) :
    x = .overflow ∨ Served P t l ∧ Spares s t := by
  obtain hn | ⟨page, v, hn, hi⟩ := bind_error_iff.mp hi
  · exact seekFree_error h hn
  obtain ⟨l', ho⟩ := seekFree_ok h hn
  have hnonneg := h.pins_nonneg page
  have hpinned := ho.pinned
  obtain ⟨r, w, hw⟩ := withPage_returns (f := fun d => F.put d a) ho.served ho.inUse
    (canHold_of_pins (by omega))
  obtain hw' | ⟨_, _, _, hi⟩ := bind_error_iff.mp hi
  · rw [hw] at hw'
    cases hw'
  · exact absurd hi pure_ne_error

end Insert

end AlphaDb.Table
