import AlphaDb.Io.FileRuns
import AlphaDb.Io.HashChains

/-! Where a page of a file is on disk and in the page table, in the `int` arithmetic of the source
(`read_page`, `write_page`, `hash_table::hash`). -/
namespace AlphaDb.Io

open Block Trace

variable {bufferSize bucketNum fd page page' v w : ℤ} {s : FileHandle}

/-- `page * buffer_size_ + 4096` in `read_page` and `write_page`, before it becomes an `off_t`. -/
def intOffset (bufferSize page : ℤ) : Option ℤ := do
  let product ← checkInt (page * bufferSize)
  checkInt (product + 4096)

/-- The pages of a file have their places: the offset of each is exact, their ranges of bytes are
apart from each other and behind the header block, and each has a bucket of the page table. -/
structure Addressed (bucketNum : ℤ) (s : FileHandle) : Prop where
  offset : ∀ page, s.IsValidPage page → intOffset 4096 page = some (4096 + 4096 * page)
  apart : ∀ page page' o o', s.IsValidPage page → s.IsValidPage page' → page ≠ page' →
    intOffset 4096 page = some o → intOffset 4096 page' = some o' → o + 4096 ≤ o' ∨ o' + 4096 ≤ o
  header : ∀ page o, s.IsValidPage page → intOffset 4096 page = some o → 4096 ≤ o
  bucket : ∀ page, s.IsValidPage page →
    ∃ b, HashChains.hash bucketNum s.fd page = some b ∧ 0 ≤ b ∧ b < bucketNum

/-- The offset of the last page and the sum of the descriptor and the last page are `int`s. -/
def InReach (s : FileHandle) : Prop :=
  s.header.pageNum = 0 ∨ s.header.pageNum ≤ 524287 ∧ s.fd + s.header.pageNum ≤ 2 ^ 31

theorem checkInt_eq_some : checkInt v = some w ↔ IsInt32 v ∧ v = w := by
  unfold checkInt
  split
  · rename_i h
    simp [h]
  · rename_i h
    simp [h]

/-- No offset is any other than the ideal one. -/
theorem intOffset_eq_some : intOffset bufferSize page = some v ↔
    IsInt32 (page * bufferSize) ∧ IsInt32 (page * bufferSize + 4096) ∧
      page * bufferSize + 4096 = v := by
  unfold intOffset
  constructor
  · intro h
    obtain ⟨product, hp, hv⟩ := Option.bind_eq_some_iff.mp h
    obtain ⟨hint, rfl⟩ := checkInt_eq_some.mp hp
    exact ⟨hint, checkInt_eq_some.mp hv⟩
  · rintro ⟨hp, hv, he⟩
    rw [checkInt_eq_some.mpr ⟨hp, rfl⟩]
    exact checkInt_eq_some.mpr ⟨hv, he⟩

/-- The pool reads and writes a page where its bytes are in the model of the disk. -/
theorem intOffset_eq_pageOffset {n : ℕ} (h : intOffset n page = some v) :
    v = pageOffset n page := (intOffset_eq_some.mp h).2.2.symm

theorem intOffset_page (h0 : 0 ≤ page) :
    intOffset 4096 page = some (4096 + 4096 * page) ↔ page < 524287 := by
  rw [intOffset_eq_some]
  unfold IsInt32
  omega

theorem hash_ne_none (hfd : 0 ≤ fd) (h0 : 0 ≤ page) :
    (∃ b, HashChains.hash bucketNum fd page = some b) ↔ HashChains.Fits fd page := by
  unfold HashChains.hash HashChains.Fits
  constructor
  · rintro ⟨b, hb⟩
    obtain ⟨v, hv, -⟩ := Option.map_eq_some_iff.mp hb
    exact ⟨hfd, h0, (checkInt_eq_some.mp hv).1.2⟩
  · intro h
    exact ⟨_, HashChains.hash_eq h⟩

theorem addressed_of_inReach (hb : 1 ≤ bucketNum) (hfd : 0 ≤ s.fd) (h : InReach s) :
    Addressed bucketNum s := by
  have hpage : ∀ page, s.IsValidPage page → 0 ≤ page ∧ page < 524287 ∧ s.fd + page < 2 ^ 31 := by
    rintro page ⟨h0, h1⟩
    obtain h | ⟨hn, hs⟩ := h
    · omega
    · exact ⟨h0, by omega, by omega⟩
  refine ⟨?_, ?_, ?_, ?_⟩
  · intro page hp
    obtain ⟨h0, h1, -⟩ := hpage page hp
    exact (intOffset_page h0).mpr h1
  · intro page page' o o' _ _ hne ho ho'
    obtain rfl := intOffset_eq_pageOffset ho
    obtain rfl := intOffset_eq_pageOffset ho'
    exact pageOffset_disjoint 4096 hne
  · intro page o hp ho
    obtain ⟨h0, -⟩ := hpage page hp
    obtain ⟨-, -, rfl⟩ := intOffset_eq_some.mp ho
    omega
  · intro page hp
    obtain ⟨h0, -, h2⟩ := hpage page hp
    have hf : HashChains.Fits s.fd page := ⟨hfd, h0, h2⟩
    exact ⟨_, HashChains.hash_eq hf, HashChains.tmod_mem hf hb⟩

/-- A file with pages has its last page in its place only where the arithmetic reaches. -/
theorem inReach_of_addressed (hfd : 0 ≤ s.fd) (hn : 0 ≤ s.header.pageNum)
    (h : Addressed bucketNum s) : InReach s := by
  rcases hn.eq_or_lt with hn | hn
  · exact .inl hn.symm
  · have hlast : s.IsValidPage (s.header.pageNum - 1) := ⟨by omega, by omega⟩
    have hoffset := (intOffset_page hlast.1).mp (h.offset _ hlast)
    obtain ⟨b, hb, -⟩ := h.bucket _ hlast
    obtain ⟨-, -, hsum⟩ := (hash_ne_none hfd hlast.1).mp ⟨b, hb⟩
    exact .inr ⟨by omega, by omega⟩

/-- The pages of a file have their places exactly when the arithmetic reaches the last one. -/
theorem addressed_iff_inReach (hb : 1 ≤ bucketNum) (hfd : 0 ≤ s.fd) (hn : 0 ≤ s.header.pageNum) :
    Addressed bucketNum s ↔ InReach s :=
  ⟨inReach_of_addressed hfd hn, addressed_of_inReach hb hfd⟩

/-- A file with two pages. -/
theorem addressed_two_pages :
    Addressed 17 ⟨3, ⟨pageListEnd, 2⟩, true, false, FileRun.createdPool⟩ :=
  (addressed_iff_inReach (by decide) (by decide) (by decide)).mpr
    (.inr ⟨by decide, by decide⟩)

/-- A file of 2 GiB, open. -/
def largeFile : FileHandle := ⟨3, ⟨pageListEnd, 524287⟩, true, false, FileRun.createdPool⟩

/-- The next page that it allocates has no offset. -/
theorem not_addressed_large_file : ∃ handle t,
    FileHandle.allocatePage largeFile = .ok handle t ∧ t.IsValidPage handle.page ∧
      intOffset 4096 handle.page = none ∧ ¬ Addressed 17 t := by
  have h : ((do
      let handle ← FileHandle.allocatePage
      let t ← get
      if handle.page = 524287 ∧ t.header.pageNum = 524288 then pure () else throw .eof :
        FileOp Unit) largeFile).returned = true := by
    decide +kernel
  obtain ⟨_, _, hrun⟩ := EStateM.returned_iff.mp h
  obtain ⟨handle, t, ha, hrun⟩ := EStateM.bind_ok_iff.mp hrun
  rw [EStateM.get_bind_ok_iff] at hrun
  obtain ⟨hpage, hnum⟩ : handle.page = 524287 ∧ t.header.pageNum = 524288 := by
    by_contra hne
    rw [if_neg hne] at hrun
    exact EStateM.throw_ne_ok hrun
  have hvalid : t.IsValidPage handle.page := by
    rw [FileHandle.IsValidPage, hpage, hnum]
    decide
  have hnone : intOffset 4096 handle.page = none := by
    rw [hpage]
    decide
  refine ⟨handle, t, ha, hvalid, hnone, ?_⟩
  intro hall
  have := hall.offset handle.page hvalid
  rw [hnone] at this
  cases this

/-- In every run of a created file, the pages in use have their places while the arithmetic reaches
the last one. -/
theorem run_allocated_offset {p : BufferManager 4096} {handle : FileHandle}
    {calls : List FileCall} {r : FileRun} (hp : FileRun.Created fd p)
    (ho : openFile fd p = some handle)
    (h : MTr (fun s a t => FileRun.step s a = some t) (FileRun.init handle) calls r)
    (hb : 1 ≤ bucketNum) (hfd : 0 ≤ r.handle.fd) (hr : InReach r.handle)
    (ha : r.allocated page = true) :
    intOffset 4096 page = some (4096 + 4096 * page) ∧
      ∃ b, HashChains.hash bucketNum r.handle.fd page = some b ∧ 0 ≤ b ∧ b < bucketNum := by
  have hinv : TrInv (fun s a t => FileRun.step s a = some t) FileRun.Tracked :=
    fun s a t hs ht => (FileRun.tracked_step ht hs).1
  have ht := mTr_trInv hinv h (FileRun.tracked_init hp ho)
  have hvalid := ((ht.allocated page).mp ha).1
  have hall := addressed_of_inReach hb hfd hr
  exact ⟨hall.offset page hvalid, hall.bucket page hvalid⟩

end AlphaDb.Io
