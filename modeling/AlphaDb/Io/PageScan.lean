import AlphaDb.Io.HandleRuns

/-! Scans over the pages in use: `getNextPage` and `getPrevPage` pass over every page that
`getThisPage` does not hand out, whether it is free or the pool has no room for it. -/
namespace AlphaDb.Io

open EStateM Trace BufferManager Cache

namespace FileHandle

variable {s t u : FileHandle} {l : List ℤ} {e : Error} {ph : PageHandle} {page current : ℤ}
  {pages : List ℤ} {fd : ℤ} {p : BufferManager 4096}

/-- The page is allocated: its link is the mark of a used page. -/
def Used (s : FileHandle) (page : ℤ) : Prop :=
  s.IsValidPage page ∧ s.stored page = some pageUsed

instance (s : FileHandle) (page : ℤ) : Decidable (s.Used page) :=
  inferInstanceAs (Decidable (_ ∧ _))

/-- The pages that a search hands out one after another, each unpinned before the next step. -/
def scanFrom : ℕ → FileOp PageHandle → FileOp (List ℤ)
  | 0, _ => throw .eof
  | n + 1, next => fun s =>
    match next s with
    | .ok handle t =>
      (do
        unpinPage handle.page
        let rest ← scanFrom n (getNextPage handle.page)
        return handle.page :: rest : FileOp (List ℤ)) t
    | .error e t => if e = .eof then .ok [] t else .error e t

def scan : FileOp (List ℤ) := do
  scanFrom ((← get).header.pageNum.toNat + 1) getFirstPage

/-- No page in use is passed over on the way up, and none is left at the end of the file. -/
def NextComplete (s : FileHandle) : Prop :=
  ∀ current, -1 ≤ current → current < s.header.pageNum →
    (∀ ph t, getNextPage current s = .ok ph t →
      s.Used ph.page ∧ current < ph.page ∧ ∀ q, current < q → q < ph.page → ¬ s.Used q) ∧
    ∀ e t, getNextPage current s = .error e t → e = .eof ∧ ∀ q, current < q → ¬ s.Used q

/-- The same on the way down. -/
def PrevComplete (s : FileHandle) : Prop :=
  ∀ current, 0 ≤ current → current ≤ s.header.pageNum →
    (∀ ph t, getPrevPage current s = .ok ph t →
      s.Used ph.page ∧ ph.page < current ∧ ∀ q, ph.page < q → q < current → ¬ s.Used q) ∧
    ∀ e t, getPrevPage current s = .error e t → e = .eof ∧ ∀ q, q < current → ¬ s.Used q

/-- A scan visits the pages in use, each once, in increasing order. -/
def ScanComplete (s : FileHandle) : Prop :=
  ∃ pages t, scan s = .ok pages t ∧ pages.Pairwise (· < ·) ∧ ∀ q, q ∈ pages ↔ s.Used q

section Pages

theorem pagesAfter_eq (current pageNum : ℤ) : pagesAfter current pageNum =
    (List.range (pageNum - (current + 1)).toNat).map fun i : ℕ => current + 1 + (i : ℤ) := by
  simp [pagesAfter, ← List.map_eq_flatMap]

theorem pagesBefore_eq (current : ℤ) : pagesBefore current =
    (List.range current.toNat).map fun i : ℕ => current - 1 - (i : ℤ) := by
  simp [pagesBefore, ← List.map_eq_flatMap]

theorem mem_pagesAfter {pageNum q : ℤ} :
    q ∈ pagesAfter current pageNum ↔ current < q ∧ q < pageNum := by
  simp only [pagesAfter_eq, List.mem_map, List.mem_range]
  constructor
  · rintro ⟨i, hi, rfl⟩
    omega
  · rintro ⟨h₁, h₂⟩
    exact ⟨(q - (current + 1)).toNat, by omega, by omega⟩

theorem mem_pagesBefore {q : ℤ} : q ∈ pagesBefore current ↔ 0 ≤ q ∧ q < current := by
  simp only [pagesBefore_eq, List.mem_map, List.mem_range]
  constructor
  · rintro ⟨i, hi, rfl⟩
    omega
  · rintro ⟨h₁, h₂⟩
    exact ⟨(current - 1 - q).toNat, by omega, by omega⟩

theorem pairwise_pagesAfter (current pageNum : ℤ) :
    (pagesAfter current pageNum).Pairwise (· < ·) := by
  rw [pagesAfter_eq]
  refine List.Pairwise.map _ ?_ List.pairwise_lt_range
  intro i j hij
  omega

theorem pairwise_pagesBefore (current : ℤ) : (pagesBefore current).Pairwise (· > ·) := by
  rw [pagesBefore_eq]
  refine List.Pairwise.map _ ?_ List.pairwise_lt_range
  intro i j hij
  omega

end Pages

theorem used_iff (h : Steady s l) : s.Used page ↔ s.IsValidPage page ∧ page ∉ l := by
  refine and_congr_right ?_
  intro hp
  obtain ⟨v, hv, hiff⟩ := h.listed.used page hp
  rw [hv, Option.some.injEq, ← hiff, not_not]

theorem Unchanged.used (h : Unchanged s t) (hs : Steady s l) (ht : Steady t l) :
    t.Used page ↔ s.Used page := by
  rw [used_iff hs, used_iff ht, IsValidPage, IsValidPage, h.header]

theorem Unchanged.trans (h : Unchanged s t) (h' : Unchanged t u) : Unchanged s u := by
  refine ⟨h'.fd.trans h.fd, h'.header.trans h.header,
    fun k b hb => h'.contents k b (h.contents k b hb), fun k => (h'.pins k).trans (h.pins k), ?_⟩
  intro page
  have := h'.room page
  rw [h.fd] at this
  exact this.trans (h.room page)

/-- What `getThisPage` hands out can be unpinned, and then all is as before. -/
theorem getThisPage_unpin (h : Steady s l) (hg : getThisPage page s = .ok ph t) :
    ph.page = page ∧ s.Used page ∧ CanHold s.bufferManager s.fd page ∧
      ∃ u, unpinPage page t = .ok () u ∧ Unchanged s u ∧ Steady u l := by
  obtain ⟨c, b, q, slot, rfl, rfl, hf, hl⟩ := getThisPage_ok h.served hg
  have hp := hf.valid
  rw [getThisPage_eq h.listed.isOpen hp] at hg
  obtain ⟨slot', v, hget, hg⟩ := bind_ok_iff.mp hg
  obtain ⟨-, hu⟩ := h.fetch_unpin hp hget
  rw [bind_of_ok (rfl : (get : FileOp FileHandle) v = .ok v v)] at hg
  split at hg
  swap
  · obtain ⟨_, _, _, hg⟩ := bind_ok_iff.mp hg
    exact absurd hg throw_ne_ok
  obtain ⟨-, rfl⟩ := pure_ok_iff.mp hg
  obtain ⟨r, hr, -⟩ := pool_ok.mp hget
  exact ⟨rfl, (used_iff h).mpr ⟨hp, hl⟩, canHold_of_getPage hr, hu⟩

section Search

/-- Room for every page in use. -/
def Roomy (s : FileHandle) : Prop :=
  ∀ page, s.Used page → CanHold s.bufferManager s.fd page

theorem Roomy.unchanged (hr : s.Roomy) (h : Unchanged s t) (hs : Steady s l) (ht : Steady t l) :
    t.Roomy := by
  intro page hp
  rw [h.fd]
  exact (h.room page).mpr (hr page ((h.used hs ht).mp hp))

/-- A search hands out the first page in use, or finds that there is none. -/
theorem firstOf_first {R : ℤ → ℤ → Prop} [Std.Asymm R] (h : Steady s l) (hr : s.Roomy)
    (hsort : pages.Pairwise R) :
    (∃ ph t, firstOf pages s = .ok ph t ∧ ph.page ∈ pages ∧ s.Used ph.page ∧
      (∀ q ∈ pages, R q ph.page → ¬ s.Used q) ∧
      ∃ u, unpinPage ph.page t = .ok () u ∧ Unchanged s u ∧ Steady u l) ∨
    (∃ t, firstOf pages s = .error .eof t) ∧ ∀ q ∈ pages, ¬ s.Used q := by
  induction pages generalizing s with
  | nil => exact Or.inr ⟨⟨s, rfl⟩, by simp⟩
  | cons page pages ih =>
    obtain ⟨hfirst, hrest⟩ := List.pairwise_cons.mp hsort
    cases hg : getThisPage page s with
    | ok ph t =>
      obtain ⟨rfl, hu, -, hun⟩ := getThisPage_unpin h hg
      left
      refine ⟨ph, t, by simp [firstOf, hg], by simp, hu, ?_, hun⟩
      intro q hq hlt
      rcases List.mem_cons.mp hq with rfl | hq
      · exact absurd hlt (Std.Asymm.asymm _ _ hlt)
      · exact absurd (hfirst q hq) (Std.Asymm.asymm _ _ hlt)
    | error e t =>
      obtain ⟨hun, ht⟩ := getThisPage_unchanged h hg
      -- with room for the page it is passed over only because it is free
      have hfree : ¬ s.Used page := by
        intro hu
        obtain ⟨hp, hl⟩ := (used_iff h).mp hu
        obtain ⟨slot, v, hv⟩ := getThisPage_returns h.served hp hl (hr page hu)
        rw [hv] at hg
        cases hg
      have hnext : firstOf (page :: pages) s = firstOf pages t := by simp [firstOf, hg]
      rw [hnext]
      simp only [← hun.used h ht]
      rw [← hun.used h ht] at hfree
      obtain ⟨ph, v, hv, hmem, hused, hbefore, w, hw, hw', hw''⟩ | ⟨hv, hnone⟩ :=
        ih ht (hr.unchanged hun h ht) hrest
      · left
        refine ⟨ph, v, hv, List.mem_cons_of_mem _ hmem, hused, ?_, w, hw, hun.trans hw', hw''⟩
        intro q hq hlt
        rcases List.mem_cons.mp hq with rfl | hq
        · exact hfree
        · exact hbefore q hq hlt
      · right
        refine ⟨hv, ?_⟩
        intro q hq
        rcases List.mem_cons.mp hq with rfl | hq
        · exact hfree
        · exact hnone q hq

theorem getNextPage_eq (ho : s.fileIsOpen = true) (h₀ : -1 ≤ current)
    (h₁ : current < s.header.pageNum) :
    getNextPage current s = firstOf (pagesAfter current s.header.pageNum) s := by
  have hc : checkCurrent (-1) current s = .ok () s := by
    unfold checkCurrent
    split
    · exact checkValidPage_of_valid ⟨by omega, h₁⟩
    · rfl
  rw [getNextPage, bind_of_ok (checkOpen_of_open ho), bind_of_ok hc]
  rfl

theorem getPrevPage_eq (ho : s.fileIsOpen = true) (h₀ : 0 ≤ current)
    (h₁ : current ≤ s.header.pageNum) :
    getPrevPage current s = firstOf (pagesBefore current) s := by
  have hc : checkCurrent s.header.pageNum current s = .ok () s := by
    unfold checkCurrent
    split
    · exact checkValidPage_of_valid ⟨h₀, by omega⟩
    · rfl
  rw [getPrevPage, bind_of_ok (checkOpen_of_open ho)]
  exact bind_of_ok hc

/-- With room for the pages in use, a search over all those beyond `current` misses none. -/
theorem firstOf_complete {R : ℤ → ℤ → Prop} [Std.Asymm R] (h : Steady s l) (hr : s.Roomy)
    (hsort : pages.Pairwise R) (hpages : ∀ q, s.Used q → (q ∈ pages ↔ R current q)) :
    (∀ ph t, firstOf pages s = .ok ph t →
      s.Used ph.page ∧ R current ph.page ∧ ∀ q, R current q → R q ph.page → ¬ s.Used q) ∧
    ∀ e t, firstOf pages s = .error e t → e = .eof ∧ ∀ q, R current q → ¬ s.Used q := by
  obtain ⟨ph, t, ht, hmem, hused, hbefore, -⟩ | ⟨⟨t, ht⟩, hnone⟩ := firstOf_first h hr hsort
  · rw [ht]
    refine ⟨?_, fun e t he => by cases he⟩
    rintro _ _ ⟨⟩
    refine ⟨hused, (hpages _ hused).mp hmem, ?_⟩
    intro q hq hlt hu
    exact hbefore q ((hpages q hu).mpr hq) hlt hu
  · rw [ht]
    refine ⟨fun ph t he => by (cases he), ?_⟩
    rintro _ _ ⟨⟩
    refine ⟨rfl, ?_⟩
    intro q hq hu
    exact hnone q ((hpages q hu).mpr hq) hu

theorem nextComplete_of_roomy (h : Steady s l) (hr : s.Roomy) : s.NextComplete := by
  intro current h₀ h₁
  rw [getNextPage_eq h.listed.isOpen h₀ h₁]
  refine firstOf_complete h hr (pairwise_pagesAfter current s.header.pageNum) ?_
  intro q hq
  exact mem_pagesAfter.trans (and_iff_left hq.1.2)

theorem prevComplete_of_roomy (h : Steady s l) (hr : s.Roomy) : s.PrevComplete := by
  intro current h₀ h₁
  rw [getPrevPage_eq h.listed.isOpen h₀ h₁]
  obtain ⟨hok, herr⟩ := firstOf_complete h hr (pairwise_pagesBefore current)
    fun q hq => mem_pagesBefore.trans (and_iff_right hq.1.1)
  refine ⟨?_, herr⟩
  intro ph t ht
  obtain ⟨hused, hlt, hbetween⟩ := hok ph t ht
  exact ⟨hused, hlt, fun q hgt hq => hbetween q hq hgt⟩

end Search

section Scan

theorem scanFrom_complete {n : ℕ} (current : ℤ) (h : Steady s l) (hr : s.Roomy)
    (h₀ : -1 ≤ current) (h₁ : current < s.header.pageNum)
    (hn : s.header.pageNum - current ≤ n) :
    ∃ pages t, scanFrom n (getNextPage current) s = .ok pages t ∧ pages.Pairwise (· < ·) ∧
      ∀ q, q ∈ pages ↔ s.Used q ∧ current < q := by
  induction n generalizing s current with
  | zero => omega
  | succ n ih =>
    have heq := getNextPage_eq h.listed.isOpen h₀ h₁
    obtain ⟨ph, t, ht, hmem, hused, hbefore, u, hu, hun, hsteady⟩ | ⟨⟨t, ht⟩, hnone⟩ :=
      firstOf_first h hr (pairwise_pagesAfter current s.header.pageNum)
    · have hlt := (mem_pagesAfter.mp hmem).1
      have hpage := hused.1
      obtain ⟨rest, v, hv, hsort, hrest⟩ := ih ph.page hsteady
        (hr.unchanged hun h hsteady) (by have := hpage.1; omega)
        (by rw [hun.header]; exact hpage.2) (by rw [hun.header]; omega)
      refine ⟨ph.page :: rest, v, ?_, ?_, ?_⟩
      · simp only [scanFrom, heq, ht]
        rw [bind_of_ok hu, bind_of_ok hv]
        rfl
      · exact List.pairwise_cons.mpr ⟨fun q hq => ((hrest q).mp hq).2, hsort⟩
      · intro q
        rw [List.mem_cons, hrest, hun.used h hsteady]
        constructor
        · rintro (rfl | ⟨hq, hgt⟩)
          · exact ⟨hused, hlt⟩
          · exact ⟨hq, hlt.trans hgt⟩
        · rintro ⟨hq, hgt⟩
          rcases lt_trichotomy q ph.page with hlt' | rfl | hgt'
          · exact absurd hq (hbefore q (mem_pagesAfter.mpr ⟨hgt, hq.1.2⟩) hlt')
          · exact Or.inl rfl
          · exact Or.inr ⟨hq, hgt'⟩
    · refine ⟨[], t, by simp [scanFrom, heq, ht], List.Pairwise.nil, ?_⟩
      intro q
      simp only [List.not_mem_nil, false_iff, not_and]
      intro hq hgt
      exact hnone q (mem_pagesAfter.mpr ⟨hgt, hq.1.2⟩) hq

theorem scanComplete_of_roomy (h : Steady s l) (hr : s.Roomy) : s.ScanComplete := by
  have h₀ := h.listed.count.1
  obtain ⟨pages, t, ht, hsort, hmem⟩ := scanFrom_complete (n := s.header.pageNum.toNat + 1)
    (-1) h hr le_rfl (by omega) (by omega)
  refine ⟨pages, t, ht, hsort, ?_⟩
  intro q
  rw [hmem]
  exact ⟨fun hq => hq.1, fun hq => ⟨hq, by have := hq.1.1; omega⟩⟩

end Scan

section Shortage

/-- The pool has room for what a search hands out. -/
theorem canHold_of_firstOf (h : Steady s l) (hf : firstOf pages s = .ok ph t) :
    CanHold s.bufferManager s.fd ph.page := by
  induction pages generalizing s with
  | nil => cases hf
  | cons page pages ih =>
    cases hg : getThisPage page s with
    | ok ph' v =>
      obtain ⟨hpage, -, hroom, -⟩ := getThisPage_unpin h hg
      obtain ⟨rfl, rfl⟩ : ph' = ph ∧ v = t := by simpa [firstOf, hg] using hf
      rwa [hpage]
    | error e v =>
      obtain ⟨hun, hv⟩ := getThisPage_unchanged h hg
      have hroom := ih hv (by simpa [firstOf, hg] using hf)
      rw [hun.fd] at hroom
      exact (hun.room _).mp hroom

/-- A page in use that the pool has no room for is passed over by the search that starts right
before it. -/
theorem roomy_of_nextComplete (h : Steady s l) (hc : s.NextComplete) : s.Roomy := by
  intro page hu
  obtain ⟨h₀, h₁⟩ := hu.1
  obtain ⟨hok, herr⟩ := hc (page - 1) (by omega) (by omega)
  cases hn : getNextPage (page - 1) s with
  | error e t => exact absurd hu ((herr e t hn).2 page (by omega))
  | ok ph t =>
    obtain ⟨hused, hlt, hbetween⟩ := hok ph t hn
    have hpage : ph.page = page := by
      by_contra hne
      exact hbetween page (by omega) (by omega) hu
    rw [getNextPage_eq h.listed.isOpen (by omega) (by omega)] at hn
    exact hpage ▸ canHold_of_firstOf h hn

end Shortage

/-- Over whole runs of a created and opened file: the searches pass over no page in use, and a scan
visits each of them once and in order, exactly if every page in use is in the pool, or a buffer is
free or unpinned. -/
theorem run_scan_complete {handle : FileHandle} {actions : List PageAction}
    (hp : FileRun.Created fd p) (hw : Writable p.cache) (ho : openFile fd p = some handle)
    (h : MTr (fun s a t => step s a = some t) handle actions s) :
    (s.NextComplete ∧ s.PrevComplete ∧ s.ScanComplete) ↔
      ∀ page, s.Used page → CanHold s.bufferManager s.fd page := by
  obtain ⟨l, hl⟩ := mTr_trInv steady_step h ⟨[], (served_created hp hw ho).steady⟩
  constructor
  · exact fun hc => roomy_of_nextComplete hl hc.1
  · exact fun hr =>
      ⟨nextComplete_of_roomy hl hr, prevComplete_of_roomy hl hr, scanComplete_of_roomy hl hr⟩

/-- Two pages in use, and the one buffer unpinned. -/
theorem run_scan_complete_two_pages : ∃ handle s,
    openFile 3 FileRun.createdPool = some handle ∧
    MTr (fun s a t => step s a = some t) handle
      [.call .allocatePage, .call (.unpinPage 0), .call .allocatePage, .call (.unpinPage 1)] s ∧
    s.Used 0 ∧ s.Used 1 ∧ s.NextComplete ∧ s.PrevComplete ∧ s.ScanComplete := by
  have h : ((openFile 3 FileRun.createdPool).bind fun handle => exec step handle
      [.call .allocatePage, .call (.unpinPage 0), .call .allocatePage, .call (.unpinPage 1)]).any
        (fun s => s.Used 0 ∧ s.Used 1 ∧ s.bufferManager.victim ≠ none) = true := by
    decide +kernel
  obtain ⟨handle, s, ho, hs, ht⟩ := exists_run h
  obtain ⟨h₀, h₁, hv⟩ := of_decide_eq_true ht
  have hc := (run_scan_complete (FileRun.created_new 1 _ rfl) (writable_new 1 _ _) ho hs).mpr
    fun page _ => Or.inr (Or.inr hv)
  exact ⟨handle, s, ho, hs, h₀, h₁, hc⟩

/-- The one buffer holds page 1, with a pin: the search from the start passes over page 0. -/
theorem next_page_skips_unfetched : ∃ handle s,
    openFile 3 FileRun.createdPool = some handle ∧
    MTr (fun s a t => step s a = some t) handle
      [.call .allocatePage, .call (.unpinPage 0), .call .allocatePage] s ∧
    s.Used 0 ∧ (∃ ph t, getNextPage (-1) s = .ok ph t ∧ ph.page = 1) ∧ ¬ s.NextComplete := by
  have h : ((openFile 3 FileRun.createdPool).bind fun handle => exec step handle
      [.call .allocatePage, .call (.unpinPage 0), .call .allocatePage]).any
        (fun s => s.Used 0 ∧ 0 < s.header.pageNum ∧
          ((getNextPage (-1) s).value.map PageHandle.page) = some 1) = true := by
    decide +kernel
  obtain ⟨handle, s, ho, hs, ht⟩ := exists_run h
  obtain ⟨h₀, hnum, hv⟩ := of_decide_eq_true ht
  obtain ⟨ph, hph, hpage⟩ := Option.map_eq_some_iff.mp hv
  obtain ⟨t, hn⟩ := value_eq_some_iff.mp hph
  refine ⟨handle, s, ho, hs, h₀, ⟨ph, t, hn, hpage⟩, ?_⟩
  intro hc
  obtain ⟨-, -, hbetween⟩ := (hc (-1) le_rfl (by omega)).1 ph t hn
  exact hbetween 0 (by omega) (by omega) h₀

end FileHandle

end AlphaDb.Io
