import AlphaDb.Io.FailedReads
import AlphaDb.Io.HandleRuns

/-! The exact pins that the calls of a file handle take and give back, whether they return or
throw. -/
namespace AlphaDb.Io

open EStateM BufferManager Cache

namespace BufferManager

variable {n : ℕ} {p q : BufferManager n} {fd page : ℤ} {slot : ℕ} {k : PageId} {e : Error}
  {u : Unit}

/-- A fetch that throws takes no pins, also where its read fails. -/
theorem getPage_error_pins {mp : Bool} (h : Owned p) (hg : getPage fd page mp p = .error e q) :
    q.cache.pins k = p.cache.pins k := by
  cases hf : p.hashTable.find fd page with
  | some i =>
    obtain rfl | ⟨hnone, -⟩ := getPage_error_unread hg
    · rfl
    · exact absurd (hf.symm.trans hnone) (by simp)
  | none =>
    obtain rfl | ⟨data, hread⟩ := getPage_throws hf hg
    · rfl
    · obtain ⟨slot, v, ha, rfl⟩ := failedRead_ok hread
      obtain ⟨hv, -⟩ := internalAlloc_owned (owned_iff.mp h) ha
      rw [cache_setHole hv.named, internalAlloc_pins h ha]

/-- A new page has one pin. -/
theorem allocatePage_pins (h : Owned p) (ha : allocatePage fd page p = .ok (some slot) q) :
    q.cache.pins k = p.cache.pins k + if k = (fd, page) then 1 else 0 := by
  obtain ⟨_, -, hnone, -⟩ | ⟨hf, i, v, -, hv, rfl⟩ := allocatePage_ok ha
  · cases hnone
  · obtain ⟨hov, -⟩ := internalAlloc_owned (owned_iff.mp h) hv
    rw [cache_install hov.named (find_internalAlloc hv hf), pins_set, internalAlloc_pins h hv]
    split
    · next hk =>
      subst hk
      rw [pins_of_none (cache_entry_eq_none.mpr hf), zero_add]
    · simp

theorem markDirty_pins (h : Owned p) (hm : markDirty fd page p = .ok u q) :
    q.cache.pins k = p.cache.pins k := by
  obtain ⟨en, hen, hc⟩ := markDirty_cache h hm
  rw [hc, pins_set]
  split
  · next hk =>
    subst hk
    exact (pins_of_entry hen).symm
  · rfl

/-- Bytes that are written through a pointer change no pins. -/
theorem write_pins {b : Block n} (h : Owned p) (hf : p.hashTable.find fd page = some slot) :
    (p.setEntry slot { p.bufferPool slot with data := b }).cache.pins k = p.cache.pins k := by
  rw [cache_setEntry (owned_iff.mp h).named hf, pins_set]
  split
  · next hk =>
    subst hk
    exact (pins_of_entry (cache_entry_eq_some.mpr ⟨slot, hf, rfl⟩)).symm
  · rfl

end BufferManager

namespace FileHandle

variable {s t : FileHandle} {page : ℤ} {slot : ℕ} {k : PageId} {e : Error} {u : Unit}
  {ph : PageHandle}

/-- An open file behind a pool in order, none of whose pages has a negative pin count. -/
structure Pooled (s : FileHandle) : Prop where
  isOpen : s.fileIsOpen = true
  owned : Owned s.bufferManager
  pins_nonneg : ∀ page, 0 ≤ s.pins page

theorem Listed.pooled {l : List ℤ} (h : Listed s l) : Pooled s := by
  refine ⟨h.isOpen, h.holds.owned, fun page => ?_⟩
  cases hen : s.bufferManager.cache.entry (s.fd, page) with
  | none => exact (pins_of_none hen).ge
  | some en => exact (pins_of_entry hen).ge.trans' (h.holds.cached page en hen).2.2

/-- What a call that returns has done: pins were added, and the handle is the same otherwise. -/
structure Adds (s t : FileHandle) (d : PageId → ℤ) : Prop where
  isOpen : t.fileIsOpen = s.fileIsOpen
  fd : t.fd = s.fd
  owned : Owned t.bufferManager
  pins : ∀ k, t.bufferManager.cache.pins k = s.bufferManager.cache.pins k + d k

/-- One pin of a page. -/
def onePin (fd page : ℤ) (k : PageId) : ℤ := if k = (fd, page) then 1 else 0

theorem onePin_nonneg (fd page : ℤ) (k : PageId) : 0 ≤ onePin fd page k := by
  unfold onePin
  split <;> decide

theorem Adds.trans {r : FileHandle} {d d' : PageId → ℤ} (h : Adds r s d) (h' : Adds s t d') :
    Adds r t fun k => d k + d' k := by
  refine ⟨h'.isOpen.trans h.isOpen, h'.fd.trans h.fd, h'.owned, fun k => ?_⟩
  rw [h'.pins, h.pins, add_assoc]

theorem Adds.pooled {d : PageId → ℤ} (h : Pooled s) (ha : Adds s t d) (hd : ∀ k, 0 ≤ d k) :
    Pooled t := by
  refine ⟨ha.isOpen.trans h.isOpen, ha.owned, fun page => ?_⟩
  have hs : 0 ≤ s.bufferManager.cache.pins (s.fd, page) := h.pins_nonneg page
  have hpage := hd (s.fd, page)
  rw [FileHandle.pins, ha.fd, ha.pins]
  omega

/-- A handle that is handed out: the page is in its slot, with one more pin. -/
theorem getThisPage_adds (h : Pooled s) (hg : getThisPage page s = .ok ph t) :
    ph.page = page ∧ s.IsValidPage page ∧ t.header = s.header ∧
      t.bufferManager.hashTable.find s.fd page = some ph.slot ∧ Adds s t (onePin s.fd page) := by
  by_cases hp : s.IsValidPage page
  · rw [getThisPage_eq h.isOpen hp] at hg
    obtain ⟨slot, v, hget, hg⟩ := bind_ok_iff.mp hg
    obtain ⟨q, hq, rfl⟩ := pool_ok.mp hget
    replace hg := get_bind_ok_iff.mp hg
    split at hg
    · obtain ⟨rfl, rfl⟩ := pure_ok_iff.mp hg
      exact ⟨rfl, hp, rfl, getPage_find hq, rfl, rfl, getPage_owned h.owned hq,
        fun k => getPage_pins h.owned hq⟩
    · obtain ⟨_, _, _, hg⟩ := bind_ok_iff.mp hg
      exact absurd hg throw_ne_ok
  · rw [getThisPage_invalid h.isOpen hp] at hg
    cases hg

/-- A fetched page can be unpinned. -/
theorem unpinPage_adds (h : Pooled s) (hp : s.IsValidPage page)
    (hf : s.bufferManager.hashTable.find s.fd page = some slot) (hpos : 0 < s.pins page) :
    ∃ t, unpinPage page s = .ok () t ∧ t.header = s.header ∧
      Adds s t fun k => -onePin s.fd page k := by
  have hpin : (s.bufferManager.bufferPool slot).pin ≠ 0 := by
    rw [pins, pins_of_entry (entry_of_find hf)] at hpos
    omega
  obtain ⟨q, hq⟩ := unpinPage_of_find hf hpin
  refine ⟨{ s with bufferManager := q }, ?_, rfl, rfl, rfl, unpinPage_owned h.owned hq, ?_⟩
  · exact (unpinPage_eq h.isOpen hp).trans (pool_ok.mpr ⟨q, hq, rfl⟩)
  · intro k
    rw [unpinPage_pins h.owned hq, onePin, sub_eq_add_neg]

/-- A call that throws takes no pins, and it gives none back that it has not taken. -/
theorem getThisPage_throws (h : Pooled s) (hg : getThisPage page s = .error e t) :
    (∀ k, t.bufferManager.cache.pins k = s.bufferManager.cache.pins k) ∧
      e ≠ .pageAlreadyUnpinned := by
  by_cases hp : s.IsValidPage page
  swap
  · rw [getThisPage_invalid h.isOpen hp] at hg
    cases hg
    exact ⟨fun _ => rfl, by decide⟩
  rw [getThisPage_eq h.isOpen hp] at hg
  obtain hget | ⟨slot, v, hget, hg⟩ := bind_error_iff.mp hg
  · obtain ⟨q, hq, rfl⟩ := pool_error.mp hget
    refine ⟨fun k => getPage_error_pins h.owned hq, ?_⟩
    rintro rfl
    obtain hio | ⟨-, ⟨hne, -⟩ | ⟨hne, -⟩⟩ := getPage_error hq
    · cases hio
    · cases hne
    · cases hne
  obtain ⟨q, hq, rfl⟩ := pool_ok.mp hget
  have hadds : Adds s { s with bufferManager := q } (onePin s.fd page) :=
    ⟨rfl, rfl, getPage_owned h.owned hq, fun k => getPage_pins h.owned hq⟩
  replace hg := get_bind_error_iff.mp hg
  split at hg
  · exact absurd hg pure_ne_error
  have hpos : 0 < q.cache.pins (s.fd, page) := by
    have hs : 0 ≤ s.bufferManager.cache.pins (s.fd, page) := h.pins_nonneg page
    rw [getPage_pins h.owned hq, if_pos rfl]
    omega
  have hpooled := hadds.pooled h (onePin_nonneg _ _)
  obtain ⟨w, hw, -, hback⟩ := unpinPage_adds hpooled hp (getPage_find hq) hpos
  rw [bind_of_ok hw] at hg
  obtain ⟨rfl, rfl⟩ := throw_error_iff.mp hg
  refine ⟨fun k => ?_, by decide⟩
  rw [(hadds.trans hback).pins k]
  simp

theorem getThisPage_error_pins (h : Pooled s) (hg : getThisPage page s = .error e t) :
    t.bufferManager.cache.pins k = s.bufferManager.cache.pins k :=
  (getThisPage_throws h hg).1 k

theorem markDirty_adds (h : Pooled s) (hm : markDirty page s = .ok u t) : Adds s t 0 := by
  obtain ⟨-, q, hq, rfl⟩ := checked_ok (fun fd => BufferManager.markDirty fd page) h.isOpen hm
  refine ⟨rfl, rfl, markDirty_owned h.owned hq, fun k => ?_⟩
  rw [Pi.zero_apply, add_zero]
  exact markDirty_pins h.owned hq

/-- A page that another client had pinned can be unpinned as well. -/
theorem unpinPage_ok_adds (h : Pooled s) (hu : unpinPage page s = .ok u t) :
    Pooled t ∧ Adds s t fun k => -onePin s.fd page k := by
  obtain ⟨-, q, hq, rfl⟩ := checked_ok (fun fd => BufferManager.unpinPage fd page) h.isOpen hu
  have hadds : Adds s { s with bufferManager := q } fun k => -onePin s.fd page k := by
    refine ⟨rfl, rfl, unpinPage_owned h.owned hq, fun k => ?_⟩
    rw [unpinPage_pins h.owned hq, onePin, sub_eq_add_neg]
  refine ⟨⟨h.isOpen, hadds.owned, fun page' => ?_⟩, hadds⟩
  have hs : 0 ≤ s.bufferManager.cache.pins (s.fd, page') := h.pins_nonneg page'
  change 0 ≤ q.cache.pins (s.fd, page')
  rw [unpinPage_pins h.owned hq]
  split
  · next hpage =>
    obtain ⟨en, hen, hpin, -⟩ := unpinPage_cache h.owned hq
    rw [hpage] at hs ⊢
    rw [pins_of_entry hen] at hs ⊢
    omega
  · omega

/-- A pinned page is not disposed of. -/
theorem disposePage_pinned (h : Pooled s) (hpos : 0 < s.pins page) :
    ∃ e, disposePage page s = .error e s := by
  by_cases hp : s.IsValidPage page
  swap
  · exact ⟨_, disposePage_invalid h.isOpen hp⟩
  have hget : BufferManager.getPage s.fd page false s.bufferManager =
      .error .pagePinned s.bufferManager := by
    cases hf : s.bufferManager.hashTable.find s.fd page with
    | none =>
      rw [pins, pins_of_none (cache_entry_eq_none.mpr hf)] at hpos
      exact absurd hpos (lt_irrefl 0)
    | some slot =>
      rw [pins, pins_of_entry (entry_of_find hf)] at hpos
      have hg : (get : Op 4096 (BufferManager 4096)) s.bufferManager =
          .ok s.bufferManager s.bufferManager := rfl
      rw [BufferManager.getPage, bind_of_ok hg]
      simp only [hf]
      rw [if_pos ⟨trivial, hpos⟩]
      rfl
  refine ⟨.pagePinned, ?_⟩
  rw [disposePage_eq h.isOpen hp]
  exact bind_error_iff.mpr (Or.inl (pool_error.mpr ⟨_, hget, rfl⟩))

/-- The pool gives a buffer for the page that `allocatePage` takes: the head of the free list, or
a new one. -/
def HasBuffer (s : FileHandle) : Prop :=
  if s.header.firstFree ≠ pageListEnd then
    ∃ slot q, BufferManager.getPage s.fd s.header.firstFree true s.bufferManager = .ok slot q
  else
    ∃ slot q, BufferManager.allocatePage s.fd s.header.pageNum s.bufferManager = .ok (some slot) q

/-- A buffer was pinned for a page. The page is taken, or its number cannot be counted. -/
structure TookBuffer (s : FileHandle) (page : ℤ) (slot : ℕ) (q : BufferManager 4096) : Prop where
  owned : Owned q
  find : q.hashTable.find s.fd page = some slot
  pins : ∀ k, q.cache.pins k = s.bufferManager.cache.pins k + onePin s.fd page k
  takes : (∃ header, takePage s = .ok ⟨page, slot⟩ { s with header, bufferManager := q }) ∨
    ∃ e, takePage s = .error e { s with bufferManager := q }

theorem takePage_of_buffer (h : Pooled s) (hb : HasBuffer s) :
    ∃ page slot q, TookBuffer s page slot q := by
  have hget : (get : FileOp FileHandle) s = .ok s s := rfl
  unfold HasBuffer at hb
  split at hb
  · next hfirst =>
    obtain ⟨slot, q, hq⟩ := hb
    refine ⟨s.header.firstFree, slot, q, getPage_owned h.owned hq, getPage_find hq,
      fun k => getPage_pins h.owned hq,
      Or.inl ⟨{ s.header with firstFree := nextFree (q.bufferPool slot).data }, ?_⟩⟩
    rw [takePage, bind_of_ok hget, if_pos hfirst, bind_of_ok (pool_ok.mpr ⟨q, hq, rfl⟩)]
    rfl
  · next hfirst =>
    obtain ⟨slot, q, hq⟩ := hb
    refine ⟨s.header.pageNum, slot, q, allocatePage_owned h.owned hq, allocatePage_find hq,
      fun k => allocatePage_pins h.owned hq, ?_⟩
    rw [takePage, bind_of_ok hget, if_neg hfirst, bind_of_ok (pool_ok.mpr ⟨q, hq, rfl⟩)]
    by_cases hcount : s.header.pageNum + 1 < 2 ^ 31
    · left
      simp only [increment, if_pos hcount]
      exact ⟨_, rfl⟩
    · right
      simp only [increment, if_neg hcount]
      exact ⟨_, rfl⟩

theorem takePage_of_no_buffer (h : Pooled s) (hb : ¬ HasBuffer s) :
    ∃ e t, takePage s = .error e t ∧
      ∀ k, t.bufferManager.cache.pins k = s.bufferManager.cache.pins k := by
  have hget : (get : FileOp FileHandle) s = .ok s s := rfl
  unfold HasBuffer at hb
  split at hb
  · next hfirst =>
    cases hq : BufferManager.getPage s.fd s.header.firstFree true s.bufferManager with
    | ok slot q => exact absurd ⟨slot, q, hq⟩ hb
    | error e q =>
      refine ⟨e, { s with bufferManager := q }, ?_, fun k => getPage_error_pins h.owned hq⟩
      rw [takePage, bind_of_ok hget, if_pos hfirst]
      exact bind_error_iff.mpr (Or.inl (pool_error.mpr ⟨q, hq, rfl⟩))
  · next hfirst =>
    cases hq : BufferManager.allocatePage s.fd s.header.pageNum s.bufferManager with
    | error e q =>
      obtain ⟨rfl, -⟩ := allocatePage_error hq
      refine ⟨e, s, ?_, fun _ => rfl⟩
      rw [takePage, bind_of_ok hget, if_neg hfirst]
      exact bind_error_iff.mpr (Or.inl (pool_error.mpr ⟨_, hq, rfl⟩))
    | ok r q =>
      cases r with
      | some slot => exact absurd ⟨slot, q, hq⟩ hb
      | none =>
        obtain ⟨_, -, -, rfl⟩ | ⟨-, _, _, hr, -⟩ := allocatePage_ok hq
        swap
        · cases hr
        refine ⟨.nullPointer, s, ?_, fun _ => rfl⟩
        rw [takePage, bind_of_ok hget, if_neg hfirst, bind_of_ok (pool_ok.mpr ⟨_, hq, rfl⟩)]
        rfl

/-- Clearing a page that was taken and marking it dirty. -/
theorem clearPage_adds (ho : s.fileIsOpen = true) (hp : Owned s.bufferManager)
    (hf : s.bufferManager.hashTable.find s.fd page = some slot) :
    let x := { s with headerChanged := true }.setData slot (setNextFree (fun _ => 0) pageUsed)
    (∃ t, markDirty page x = .ok () t ∧ Adds s t 0) ∨ ∃ e, markDirty page x = .error e x ∧
      ∀ k, x.bufferManager.cache.pins k = s.bufferManager.cache.pins k := by
  intro x
  have hx : ∀ k, x.bufferManager.cache.pins k = s.bufferManager.cache.pins k := fun k =>
    write_pins hp hf
  have hox : Owned x.bufferManager := owned_iff.mpr ((owned_iff.mp hp).setEntry rfl rfl)
  have hopen : x.fileIsOpen = true := ho
  cases hm : markDirty page x with
  | error e t =>
    obtain rfl := markDirty_unchanged hopen hm
    exact Or.inr ⟨e, rfl, hx⟩
  | ok u t =>
    left
    obtain ⟨-, q, hq, rfl⟩ := checked_ok (fun fd => BufferManager.markDirty fd page) hopen hm
    refine ⟨_, rfl, rfl, rfl, markDirty_owned hox hq, fun k => ?_⟩
    rw [Pi.zero_apply, add_zero, ← hx k]
    exact markDirty_pins hox hq

/-- A page is allocated with one pin, or a buffer was pinned for it before something threw. -/
theorem allocatePage_of_buffer (h : Pooled s) (hb : HasBuffer s) : ∃ page,
    (∃ slot t, allocatePage s = .ok ⟨page, slot⟩ t ∧ Adds s t (onePin s.fd page)) ∨
    ∃ e t, allocatePage s = .error e t ∧
      ∀ k, t.bufferManager.cache.pins k =
        s.bufferManager.cache.pins k + onePin s.fd page k := by
  obtain ⟨page, slot, q, htook⟩ := takePage_of_buffer h hb
  refine ⟨page, ?_⟩
  rw [allocatePage, bind_of_ok (checkOpen_of_open h.isOpen)]
  obtain ⟨header, htake⟩ | ⟨e, htake⟩ := htook.takes
  swap
  · exact Or.inr ⟨e, _, bind_error_iff.mpr (Or.inl htake), htook.pins⟩
  rw [bind_of_ok htake]
  let v : FileHandle := { s with header, bufferManager := q }
  have hmodify : (modify fun s => { s with headerChanged := true }.setData slot
      (setNextFree (fun _ => 0) pageUsed) : FileOp Unit) v = .ok ()
        ({ v with headerChanged := true }.setData slot (setNextFree (fun _ => 0) pageUsed)) := rfl
  have hclear := clearPage_adds (s := v) h.isOpen htook.owned htook.find
  rw [bind_of_ok hmodify]
  obtain ⟨t, hm, hadds⟩ | ⟨e, hm, hpins⟩ := hclear
  · left
    refine ⟨slot, t, ?_, hadds.isOpen, hadds.fd, hadds.owned, fun k => ?_⟩
    · rw [bind_of_ok hm]
      rfl
    · rw [hadds.pins k, Pi.zero_apply, add_zero]
      exact htook.pins k
  · right
    exact ⟨e, _, bind_error_iff.mpr (Or.inl hm), fun k => (hpins k).trans (htook.pins k)⟩

theorem allocatePage_of_no_buffer (h : Pooled s) (hb : ¬ HasBuffer s) :
    ∃ e t, allocatePage s = .error e t ∧
      ∀ k, t.bufferManager.cache.pins k = s.bufferManager.cache.pins k := by
  obtain ⟨e, t, htake, hpins⟩ := takePage_of_no_buffer h hb
  refine ⟨e, t, ?_, hpins⟩
  rw [allocatePage, bind_of_ok (checkOpen_of_open h.isOpen)]
  exact bind_error_iff.mpr (Or.inl htake)

/-- Whether it returns or throws, an allocation takes no pins back. -/
theorem allocatePage_pins_le (h : Pooled s) (k : PageId) :
    s.bufferManager.cache.pins k ≤ (after allocatePage s).bufferManager.cache.pins k := by
  by_cases hb : HasBuffer s
  · have hone := fun page => onePin_nonneg s.fd page k
    obtain ⟨page, ⟨slot, t, ha, hadds⟩ | ⟨e, t, ha, hpins⟩⟩ := allocatePage_of_buffer h hb
    · have := hone page
      simp only [after, ha, hadds.pins k]
      omega
    · have := hone page
      simp only [after, ha, hpins k]
      omega
  · obtain ⟨e, t, ha, hpins⟩ := allocatePage_of_no_buffer h hb
    simp only [after, ha, hpins k, le_refl]

theorem allocatePage_pooled (h : Pooled s) (ha : allocatePage s = .ok ph t) : Pooled t := by
  by_cases hb : HasBuffer s
  · obtain ⟨page, ⟨slot, v, hv, hadds⟩ | ⟨e, v, hv, -⟩⟩ := allocatePage_of_buffer h hb
    · rw [hv] at ha
      injection ha with _ ht
      exact ht ▸ hadds.pooled h (onePin_nonneg _ _)
    · rw [hv] at ha
      cases ha
  · obtain ⟨e, v, hv, -⟩ := allocatePage_of_no_buffer h hb
    rw [hv] at ha
    cases ha

end FileHandle

end AlphaDb.Io
