import AlphaDb.Io.FreeList
import AlphaDb.Io.PoolRuns

/-! Runs of one handle of a created file, against the history of its pages. -/
namespace AlphaDb.Io

open EStateM Trace BufferManager Cache

/-- A handle with the history of its calls: the pages that were disposed of and are still free,
latest first, and the pages that were handed out and not disposed of since. -/
structure FileRun where
  handle : FileHandle
  disposed : List ℤ
  allocated : ℤ → Bool

/-- Calls of the handle, and a client's write to a byte of a slot. -/
inductive FileCall
  | allocatePage
  | disposePage (page : ℤ)
  | getThisPage (page : ℤ)
  | getNextPage (current : ℤ)
  | getPrevPage (current : ℤ)
  | markDirty (page : ℤ)
  | unpinPage (page : ℤ)
  | write (slot : ℕ) (i : Fin 4096) (x : UInt8)

namespace FileRun

open FileHandle

variable {s t : FileRun} {fd : ℤ} {p : BufferManager 4096}

def init (handle : FileHandle) : FileRun := ⟨handle, [], fun _ => false⟩

/-- One call, whether it returns or throws. Running out of page numbers is undefined, and a
client writes only inside the data area of a page handle. -/
def step (s : FileRun) : FileCall → Option FileRun
  | .allocatePage =>
    match FileHandle.allocatePage s.handle with
    | .ok handle t =>
      some
        { handle := t
          disposed := s.disposed.erase handle.page
          allocated := Function.update s.allocated handle.page true }
    | .error e t => if e = .overflow then none else some { s with handle := t }
  | .disposePage page =>
    match FileHandle.disposePage page s.handle with
    | .ok _ t =>
      some
        { handle := t
          disposed := page :: s.disposed
          allocated := Function.update s.allocated page false }
    | .error _ t => some { s with handle := t }
  | .getThisPage page => some { s with handle := after (FileHandle.getThisPage page) s.handle }
  | .getNextPage current =>
    some { s with handle := after (FileHandle.getNextPage current) s.handle }
  | .getPrevPage current =>
    some { s with handle := after (FileHandle.getPrevPage current) s.handle }
  | .markDirty page => some { s with handle := after (FileHandle.markDirty page) s.handle }
  | .unpinPage page => some { s with handle := after (FileHandle.unpinPage page) s.handle }
  | .write slot i x =>
    if 4 ≤ i.val then
      some { s with handle := s.handle.setData slot (Function.update (s.handle.data slot) i x) }
    else none

/-- The chain is the history of the disposed pages, and every other page is allocated. -/
structure Tracked (s : FileRun) : Prop where
  listed : Listed s.handle s.disposed
  allocated : ∀ p, s.allocated p = true ↔ s.handle.IsValidPage p ∧ p ∉ s.disposed

theorem Tracked.quiet {handle : FileHandle} (h : Tracked s) (hq : Quiet s.handle handle) :
    Tracked { s with handle := handle } ∧ handle.header.pageNum = s.handle.header.pageNum := by
  have hheader := hq.2.2.1
  refine ⟨⟨h.listed.quiet hq, ?_⟩, by rw [hheader]⟩
  intro p
  rw [IsValidPage, hheader]
  exact h.allocated p

theorem Tracked.allocatePage {handle : PageHandle} {q : FileHandle} (h : Tracked s)
    (ha : FileHandle.allocatePage s.handle = .ok handle q) :
    Tracked { handle := q
              disposed := s.disposed.erase handle.page
              allocated := Function.update s.allocated handle.page true } ∧
      s.allocated handle.page = false ∧ (∀ p, s.disposed.head? = some p → handle.page = p) ∧
      (q.header.pageNum ≠ s.handle.header.pageNum → s.disposed = []) := by
  obtain ⟨rest, hl, hnum, hq⟩ | ⟨hl, hpage, hnum, hq⟩ := allocatePage_listed h.listed ha
  · have hvalid := h.listed.valid handle.page (by simp [hl])
    have herase : s.disposed.erase handle.page = rest := by simp [hl]
    have hnot : handle.page ∉ rest := by
      have := h.listed.nodup
      rw [hl] at this
      exact (List.nodup_cons.mp this).1
    refine ⟨⟨by rw [herase]; exact hq, ?_⟩, ?_, ?_, fun hne => absurd hnum hne⟩
    · intro p
      dsimp only
      rw [herase, IsValidPage, hnum]
      by_cases he : p = handle.page
      · subst he
        simpa using ⟨hvalid, hnot⟩
      · rw [Function.update_of_ne he, h.allocated p, hl]
        simp [he, IsValidPage]
    · rw [Bool.eq_false_iff, Ne, h.allocated handle.page, hl]
      simp
    · intro p hp
      simpa [hl] using hp
  · refine ⟨⟨by rw [hl]; exact hq, ?_⟩, ?_, ?_, fun _ => hl⟩
    · intro p
      dsimp only
      rw [IsValidPage, hnum]
      by_cases he : p = handle.page
      · subst he
        have := h.listed.count.1
        simp [hl]
        omega
      · rw [Function.update_of_ne he, h.allocated p, IsValidPage, hl]
        simp
        omega
    · rw [Bool.eq_false_iff, Ne, h.allocated handle.page, IsValidPage]
      omega
    · simp [hl]

theorem Tracked.disposePage {page : ℤ} {q : FileHandle} (h : Tracked s)
    (hnum : q.header.pageNum = s.handle.header.pageNum) (hl : Listed q (page :: s.disposed)) :
    Tracked { handle := q
              disposed := page :: s.disposed
              allocated := Function.update s.allocated page false } := by
  refine ⟨hl, ?_⟩
  intro p
  dsimp only
  rw [IsValidPage, hnum]
  by_cases he : p = page
  · subst he
    simp
  · rw [Function.update_of_ne he, h.allocated p]
    simp [he, IsValidPage]

/-- Every call keeps the list, and only a call that finds the chain empty adds a page. -/
theorem tracked_step {call : FileCall} (h : Tracked s) (hs : step s call = some t) :
    Tracked t ∧ (t.handle.header.pageNum ≠ s.handle.header.pageNum → s.disposed = []) := by
  have hquiet : ∀ handle, Quiet s.handle handle →
      Tracked { s with handle := handle } ∧
        (handle.header.pageNum ≠ s.handle.header.pageNum → s.disposed = []) := by
    intro handle hq
    obtain ⟨ht, hnum⟩ := h.quiet hq
    exact ⟨ht, fun hne => absurd hnum hne⟩
  cases call with
  | allocatePage =>
    simp only [step] at hs
    split at hs
    · next handle q ha =>
      obtain rfl := Option.some.inj hs
      obtain ⟨ht, -, -, hgrow⟩ := h.allocatePage ha
      exact ⟨ht, hgrow⟩
    · next e q ha =>
      split at hs
      · simp at hs
      · next hne =>
        obtain rfl := Option.some.inj hs
        obtain he | rfl := allocatePage_unchanged h.listed ha
        · exact absurd he hne
        · exact hquiet _ (quiet_refl h.listed)
  | disposePage page =>
    simp only [step] at hs
    obtain ⟨q, hq, hnum, -, -, hl⟩ | ⟨e, q, hq, hquiet'⟩ :=
      disposePage_listed page h.listed
    · simp only [hq] at hs
      obtain rfl := Option.some.inj hs
      exact ⟨h.disposePage hnum hl, fun hne => absurd hnum hne⟩
    · simp only [hq] at hs
      obtain rfl := Option.some.inj hs
      exact hquiet q hquiet'
  | getThisPage page =>
    obtain rfl := Option.some.inj hs
    exact hquiet _ (getThisPage_quiet page h.listed)
  | getNextPage current =>
    obtain rfl := Option.some.inj hs
    exact hquiet _ (getNextPage_quiet h.listed)
  | getPrevPage current =>
    obtain rfl := Option.some.inj hs
    exact hquiet _ (getPrevPage_quiet h.listed)
  | markDirty page =>
    obtain rfl := Option.some.inj hs
    exact hquiet _ (markDirty_quiet h.listed)
  | unpinPage page =>
    obtain rfl := Option.some.inj hs
    exact hquiet _ (unpinPage_quiet page h.listed)
  | write slot i x =>
    simp only [step] at hs
    split at hs
    · next hi =>
      obtain rfl := Option.some.inj hs
      exact hquiet _ (setData_quiet h.listed i hi x)
    · simp at hs

/-- A pool that behaves as a page store and has not seen the file `fd`, which was just created. -/
structure Created (fd : ℤ) (p : BufferManager 4096) : Prop where
  owned : Owned p
  coherent : Coherent id Settled p.cache
  uncached : ∀ page, p.cache.entry (fd, page) = none
  file : p.disk fd = some createFile

theorem tracked_init {handle : FileHandle} (h : Created fd p) (ho : openFile fd p = some handle) :
    Tracked (init handle) := by
  have hsize : createFile.available 0 8 = 8 := by decide +kernel
  have hfirst : (createFile.readInto 0 (fun _ => 0 : Block 8)).getInt32 0 = -1 := by
    decide +kernel
  have hcount : (createFile.readInto 0 (fun _ => 0 : Block 8)).getInt32 4 = 0 := by
    decide +kernel
  simp only [openFile, h.file, hsize, if_true, Option.some.injEq, hfirst, hcount] at ho
  subst ho
  have hcoh : Coherent nextFree Settled p.cache := by
    intro k en hk hd hp
    obtain ⟨b, hb, he⟩ := h.coherent k en hk hd hp
    exact ⟨b, hb, congrArg nextFree he⟩
  have hnone : ∀ q : ℤ, ¬ (0 ≤ q ∧ q < 0) := by omega
  refine ⟨⟨rfl, ⟨h.owned, hcoh, ?_⟩, by simp [init], rfl, List.nodup_nil, by simp [init], ?_⟩, ?_⟩
  · intro page en hk
    simp [init, h.uncached page] at hk
  · exact fun q hq => absurd hq (hnone q)
  · intro q
    simp [init, IsValidPage]

/-- The free-page list over whole runs of a handle: the chain visits distinct pages of the file,
exactly those whose link is not the mark of a used page; `allocatePage` returns no page that is
allocated, and the page disposed of last, if one is still free; a call adds a page to the file
only when the chain is empty. -/
theorem run_free_list {handle : FileHandle} {calls : List FileCall} (hp : Created fd p)
    (ho : openFile fd p = some handle)
    (h : MTr (fun s a t => step s a = some t) (init handle) calls s) :
    (∃ l, Follows s.handle.stored pageListEnd s.handle.header.firstFree l ∧ l.Nodup ∧
      (∀ p ∈ l, 0 ≤ p ∧ p < s.handle.header.pageNum) ∧
      ∀ p, 0 ≤ p → p < s.handle.header.pageNum →
        ∃ v, s.handle.stored p = some v ∧ (p ∈ l ↔ v ≠ pageUsed)) ∧
    (∀ page q, FileHandle.allocatePage s.handle = .ok page q →
      s.allocated page.page = false ∧ ∀ p, s.disposed.head? = some p → page.page = p) ∧
    ∀ call t, step s call = some t → t.handle.header.pageNum ≠ s.handle.header.pageNum →
      s.handle.header.firstFree = pageListEnd := by
  have hinv : TrInv (fun s a t => step s a = some t) Tracked :=
    fun s a t hs ht => (tracked_step ht hs).1
  have ht := mTr_trInv hinv h (tracked_init hp ho)
  have hl := ht.listed
  refine ⟨⟨s.disposed, hl.chain, hl.nodup, hl.valid, ?_⟩, ?_, ?_⟩
  · intro p h0 h1
    obtain ⟨v, hv, hiff⟩ := hl.used p ⟨h0, h1⟩
    exact ⟨v, hv, hiff.symm⟩
  · intro page q ha
    obtain ⟨-, hfree, hhead, -⟩ := ht.allocatePage ha
    exact ⟨hfree, hhead⟩
  · intro call t hs hne
    have hnil := (tracked_step ht hs).2 hne
    exact hl.chain.eq_nil_iff.mp hnil

theorem created_new (poolSize : ℕ) (raw : ℕ → BufferEntry 4096) {disk : Disk}
    (h : disk fd = some createFile) : Created fd (new poolSize raw disk) := by
  refine ⟨owned_new poolSize raw disk, ?_, ?_, h⟩
  · intro k en hk
    simp [new, cache] at hk
  · intro page
    simp [new, cache]

/-- A created file behind a pool of one buffer. -/
def createdPool : BufferManager 4096 :=
  new 1 (fun _ => ⟨false, 0, 0, fun _ => 0, 0⟩) fun _ => some createFile

/-- Two pages allocated and disposed of through one buffer: the later one is handed out again. -/
theorem run_free_list_two_pages : ∃ handle s, openFile 3 createdPool = some handle ∧
    MTr (fun s a t => step s a = some t) (init handle)
      [.allocatePage, .unpinPage 0, .allocatePage, .unpinPage 1, .disposePage 0, .disposePage 1]
      s ∧
    ∃ page q, FileHandle.allocatePage s.handle = .ok page q ∧ page.page = 1 ∧
      s.allocated 1 = false := by
  have h : ((openFile 3 createdPool).bind fun handle => exec step (init handle)
      [.allocatePage, .unpinPage 0, .allocatePage, .unpinPage 1, .disposePage 0,
        .disposePage 1]).any (fun s => s.disposed.head? = some 1 ∧
          (FileHandle.allocatePage s.handle).returned) = true := by
    decide +kernel
  obtain ⟨handle, ho⟩ : ∃ handle, openFile 3 createdPool = some handle := by
    cases ho : openFile 3 createdPool with
    | none => simp [ho] at h
    | some handle => exact ⟨handle, rfl⟩
  rw [ho, Option.bind_some] at h
  obtain ⟨s, hs, hp⟩ := exists_mTr_of_exec h
  obtain ⟨hhead, hret⟩ := of_decide_eq_true hp
  obtain ⟨page, q, hq⟩ := returned_iff.mp hret
  obtain ⟨-, halloc, -⟩ := run_free_list (created_new 1 _ rfl) ho hs
  obtain ⟨hfree, hlast⟩ := halloc page q hq
  have hone := hlast 1 hhead
  exact ⟨handle, s, ho, hs, page, q, hq, hone, hone ▸ hfree⟩

end FileRun

end AlphaDb.Io
