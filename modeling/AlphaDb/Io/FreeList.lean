import AlphaDb.Io.FilePages
import AlphaDb.Lib.Chain

/-! The free-page list of a file: the chain that starts in the header and runs through the links
of the pages is exactly the list of the free pages, whatever calls have been made. -/
namespace AlphaDb.Io

open EStateM BufferManager Cache

namespace FileHandle

variable {s t : FileHandle} {l : List ℤ} {page : ℤ} {slot : ℕ} {e : Error} {u : Unit}

/-- The link stored in a page of the file. -/
def stored (s : FileHandle) (page : ℤ) : Option ℤ := storedLink s.bufferManager s.fd page

/-- The free pages are `l`, in the order of the chain. -/
structure Listed (s : FileHandle) (l : List ℤ) : Prop where
  isOpen : s.fileIsOpen = true
  holds : Holds Settled s.fd s.header.pageNum s.bufferManager
  count : 0 ≤ s.header.pageNum ∧ s.header.pageNum < 2 ^ 31
  chain : Follows s.stored pageListEnd s.header.firstFree l
  nodup : l.Nodup
  valid : ∀ p ∈ l, s.IsValidPage p
  used : ∀ p, s.IsValidPage p → ∃ v, s.stored p = some v ∧ (v ≠ pageUsed ↔ p ∈ l)

/-- A step that leaves the header and every link alone. -/
def Quiet (s t : FileHandle) : Prop :=
  t.fileIsOpen = s.fileIsOpen ∧ t.fd = s.fd ∧ t.header = s.header ∧
    Holds Settled s.fd s.header.pageNum t.bufferManager ∧
    Keeps nextFree s.bufferManager.cache t.bufferManager.cache

/-- A step that keeps the header and the links of the file keeps the list. -/
theorem Listed.agree (h : Listed s l) (hopen : t.fileIsOpen = s.fileIsOpen)
    (hheader : t.header = s.header)
    (hholds : Holds Settled t.fd t.header.pageNum t.bufferManager)
    (hstored : ∀ p v, s.stored p = some v → t.stored p = some v) : Listed t l := by
  have hvalid : ∀ p, t.IsValidPage p ↔ s.IsValidPage p := by
    intro p
    rw [IsValidPage, IsValidPage, hheader]
  refine ⟨hopen.trans h.isOpen, hholds, ?_, ?_, h.nodup, ?_, ?_⟩
  · rw [hheader]
    exact h.count
  · rw [hheader]
    apply h.chain.frame
    intro p hp
    obtain ⟨v, hv, -⟩ := h.used p (h.valid p hp)
    rw [hstored p v hv, hv]
  · exact fun p hp => (hvalid p).mpr (h.valid p hp)
  · intro p hp
    obtain ⟨v, hv, hiff⟩ := h.used p ((hvalid p).mp hp)
    exact ⟨v, hstored p v hv, hiff⟩

theorem Listed.quiet (h : Listed s l) (hq : Quiet s t) : Listed t l := by
  obtain ⟨hopen, hfd, hheader, hholds, hkeep⟩ := hq
  rw [← hfd, ← hheader] at hholds
  apply h.agree hopen hheader hholds
  intro p v hv
  rw [stored, hfd]
  exact storedLink_of_keeps hkeep hv

theorem quiet_refl (h : Listed s l) : Quiet s s :=
  ⟨rfl, rfl, rfl, h.holds, Keeps.refl _⟩

theorem Quiet.trans {r : FileHandle} (h : Quiet r s) (h' : Quiet s t) : Quiet r t := by
  obtain ⟨ho, hfd, hh, -, hk⟩ := h
  obtain ⟨ho', hfd', hh', hp', hk'⟩ := h'
  rw [hfd, hh] at hp'
  exact ⟨ho'.trans ho, hfd'.trans hfd, hh'.trans hh, hp', hk.trans hk'⟩

/-- The link of one page changes and the list follows it. -/
theorem Listed.relink {l' : List ℤ} {w : ℤ} (h : Listed s l) (hopen : t.fileIsOpen = true)
    (hholds : Holds Settled t.fd t.header.pageNum t.bufferManager)
    (hcount : s.header.pageNum ≤ t.header.pageNum ∧ t.header.pageNum < 2 ^ 31)
    (hchain : Follows t.stored pageListEnd t.header.firstFree l') (hnodup : l'.Nodup)
    (hself : t.stored page = some w) (hw : w ≠ pageUsed ↔ page ∈ l') (hvalid : t.IsValidPage page)
    (hl : ∀ p, p ≠ page → (p ∈ l' ↔ p ∈ l))
    (hkept : ∀ p v, p ≠ page → s.stored p = some v → t.stored p = some v)
    (hold : ∀ p, p ≠ page → t.IsValidPage p → s.IsValidPage p) : Listed t l' := by
  have h0 := h.count.1
  refine ⟨hopen, hholds, ⟨by omega, hcount.2⟩, hchain, hnodup, ?_, ?_⟩
  · intro p hp
    by_cases he : p = page
    · subst he
      exact hvalid
    · obtain ⟨hp0, hp1⟩ := h.valid p ((hl p he).mp hp)
      exact ⟨hp0, by omega⟩
  · intro p hp
    by_cases he : p = page
    · subst he
      exact ⟨w, hself, hw⟩
    · obtain ⟨v, hv, hiff⟩ := h.used p (hold p he hp)
      exact ⟨v, hkept p v he hv, hiff.trans (hl p he).symm⟩

/-- A part of the list without the changed page is still linked. -/
theorem Listed.follows {l' : List ℤ} {b : ℤ} (h : Listed s l)
    (hb : Follows s.stored pageListEnd b l') (hl : ∀ p ∈ l', p ∈ l ∧ p ≠ page)
    (hkept : ∀ p v, p ≠ page → s.stored p = some v → t.stored p = some v) :
    Follows t.stored pageListEnd b l' := by
  apply hb.frame
  intro p hp
  obtain ⟨hp, hne⟩ := hl p hp
  obtain ⟨v, hv, -⟩ := h.used p (h.valid p hp)
  rw [hv, hkept p v hne hv]

section Inversion

theorem pool_ok {α : Type} {x : Op 4096 α} {a : α} : pool x s = .ok a t ↔
    ∃ q, x s.bufferManager = .ok a q ∧ t = { s with bufferManager := q } := by
  unfold pool
  cases x s.bufferManager <;> simp [eq_comm]

theorem pool_error {α : Type} {x : Op 4096 α} : pool x s = .error e t ↔
    ∃ q, x s.bufferManager = .error e q ∧ t = { s with bufferManager := q } := by
  unfold pool
  cases x s.bufferManager <;> simp [eq_comm]

theorem checkOpen_of_open (h : s.fileIsOpen = true) : checkOpen s = .ok () s := by
  have hg : (get : FileOp FileHandle) s = .ok s s := rfl
  rw [checkOpen, bind_of_ok hg, if_pos h]
  rfl

theorem checkValidPage_of_valid (h : s.IsValidPage page) : checkValidPage page s = .ok () s := by
  have hg : (get : FileOp FileHandle) s = .ok s s := rfl
  rw [checkValidPage, bind_of_ok hg, if_pos h]
  rfl

theorem checkValidPage_of_not (h : ¬ s.IsValidPage page) :
    checkValidPage page s = .error .invalidPage s := by
  have hg : (get : FileOp FileHandle) s = .ok s s := rfl
  rw [checkValidPage, bind_of_ok hg, if_neg h]
  rfl

/-- A call that checks the handle and the page and then calls the pool. -/
theorem checked_eq {α : Type} (x : ℤ → FileOp α) (ho : s.fileIsOpen = true)
    (hp : s.IsValidPage page) :
    (do checkOpen; checkValidPage page; x (← get).fd : FileOp α) s = x s.fd s := by
  rw [bind_of_ok (checkOpen_of_open ho), bind_of_ok (checkValidPage_of_valid hp)]
  rfl

/-- On a page that does not exist the checks throw. -/
theorem checked_invalid {α : Type} (x : ℤ → FileOp α) (ho : s.fileIsOpen = true)
    (hp : ¬ s.IsValidPage page) :
    (do checkOpen; checkValidPage page; x (← get).fd : FileOp α) s = .error .invalidPage s := by
  rw [bind_of_ok (checkOpen_of_open ho)]
  exact bind_error_iff.mpr (Or.inl (checkValidPage_of_not hp))

end Inversion

section Quiet

theorem after_bind_throw {α β : Type} (x : FileOp α) (e : Error) :
    after (x >>= fun _ => (throw e : FileOp β)) s = after x s := by
  cases hx : x s with
  | ok a t =>
    rw [after_bind_ok hx]
    simp only [after, hx]
    rfl
  | error e' t =>
    rw [after_bind_error hx]
    simp [after, hx]

/-- A call of the pool that keeps the links, or throws and changes nothing. -/
theorem pool_quiet {α : Type} {x : Op 4096 α} (h : Listed s l)
    (hok : ∀ a q, x s.bufferManager = .ok a q →
      Holds Settled s.fd s.header.pageNum q ∧ Keeps nextFree s.bufferManager.cache q.cache)
    (herror : ∀ e q, x s.bufferManager = .error e q → q = s.bufferManager) :
    Quiet s (after (pool x) s) := by
  cases hx : x s.bufferManager with
  | ok a q =>
    have hp : pool x s = .ok a { s with bufferManager := q } := pool_ok.mpr ⟨q, hx, rfl⟩
    simp only [after, hp]
    exact ⟨rfl, rfl, rfl, hok a q hx⟩
  | error e q =>
    obtain rfl := herror e q hx
    have hp : pool x s = .error e s := pool_error.mpr ⟨_, hx, rfl⟩
    simp only [after, hp]
    exact quiet_refl h

/-- A call that checks its page first is quiet if its call of the pool is. -/
theorem checked_quiet {α : Type} (x : ℤ → FileOp α) (h : Listed s l)
    (hx : s.IsValidPage page → Quiet s (after (x s.fd) s)) :
    Quiet s (after (do checkOpen; checkValidPage page; x (← get).fd : FileOp α) s) := by
  by_cases hp : s.IsValidPage page
  · have heq := checked_eq x h.isOpen hp
    simp only [after] at hx ⊢
    rw [heq]
    exact hx hp
  · simp only [after, checked_invalid x h.isOpen hp]
    exact quiet_refl h

theorem markDirty_quiet (h : Listed s l) : Quiet s (after (markDirty page) s) := by
  apply checked_quiet (fun fd => pool (BufferManager.markDirty fd page)) h
  intro _
  apply pool_quiet h
  · exact fun _ q hq => h.holds.markDirty hq
  · exact fun _ q hq => (markDirty_error hq).1

theorem unpinPage_quiet (page : ℤ) (h : Listed s l) : Quiet s (after (unpinPage page) s) := by
  apply checked_quiet (fun fd => pool (BufferManager.unpinPage fd page)) h
  intro _
  apply pool_quiet h
  · exact fun _ q hq => h.holds.unpinPage hq
  · exact fun _ q hq => (unpinPage_error hq).1

/-- Fetching a page that exists, for any use. -/
theorem getPage_quiet (mp : Bool) (h : Listed s l) (hp : s.IsValidPage page) :
    Quiet s (after (pool (BufferManager.getPage s.fd page mp)) s) := by
  obtain ⟨v, hv, -⟩ := h.used page hp
  apply pool_quiet h
  · intro slot q hq
    obtain ⟨hh, hk, -⟩ := h.holds.getPage hp hq
    exact ⟨hh, hk⟩
  · exact fun _ q hq => h.holds.getPage_error hv hq

theorem getThisPage_quiet (page : ℤ) (h : Listed s l) : Quiet s (after (getThisPage page) s) := by
  apply checked_quiet (fun fd => do
    let slot ← pool (BufferManager.getPage fd page true)
    if nextFree ((← get).data slot) = pageUsed then
      return (⟨page, slot⟩ : PageHandle)
    else
      unpinPage page
      throw .invalidPage) h
  intro hp
  have hq := getPage_quiet true h hp
  cases hg : pool (BufferManager.getPage s.fd page true) s with
  | error e t =>
    rw [after_bind_error hg]
    simpa only [after, hg] using hq
  | ok slot t =>
    simp only [after, hg] at hq
    rw [after_bind_ok hg, after_bind_ok (rfl : (get : FileOp FileHandle) t = .ok t t)]
    split
    · exact hq
    · rw [after_bind_throw]
      exact hq.trans (unpinPage_quiet page (h.quiet hq))

/-- A search over pages, whatever it catches on the way. -/
theorem firstOf_quiet (pages : List ℤ) (h : Listed s l) : Quiet s (after (firstOf pages) s) := by
  induction pages generalizing s with
  | nil => exact quiet_refl h
  | cons p pages ih =>
    have hq := getThisPage_quiet p h
    cases hg : getThisPage p s with
    | ok handle t =>
      have hf : firstOf (p :: pages) s = .ok handle t := by simp [firstOf, hg]
      simpa only [after, hf, hg] using hq
    | error e t =>
      have hf : firstOf (p :: pages) s = firstOf pages t := by simp [firstOf, hg]
      simp only [after, hg] at hq
      have := ih (h.quiet hq)
      simp only [after, hf] at this ⊢
      exact hq.trans this

theorem checkCurrent_unchanged (s : FileHandle) (mark current : ℤ) :
    checkCurrent mark current s = .ok () s ∨ ∃ e, checkCurrent mark current s = .error e s := by
  unfold checkCurrent
  split
  · by_cases hp : s.IsValidPage current
    · exact Or.inl (checkValidPage_of_valid hp)
    · exact Or.inr ⟨_, checkValidPage_of_not hp⟩
  · exact Or.inl rfl

theorem getNextPage_quiet {current : ℤ} (h : Listed s l) :
    Quiet s (after (getNextPage current) s) := by
  rw [getNextPage, after_bind_ok (checkOpen_of_open h.isOpen)]
  obtain hc | ⟨e, hc⟩ := checkCurrent_unchanged s (-1) current
  · rw [after_bind_ok hc, after_bind_ok (rfl : (get : FileOp FileHandle) s = .ok s s)]
    exact firstOf_quiet _ h
  · rw [after_bind_error hc]
    exact quiet_refl h

theorem getPrevPage_quiet {current : ℤ} (h : Listed s l) :
    Quiet s (after (getPrevPage current) s) := by
  rw [getPrevPage, after_bind_ok (checkOpen_of_open h.isOpen),
    after_bind_ok (rfl : (get : FileOp FileHandle) s = .ok s s)]
  obtain hc | ⟨e, hc⟩ := checkCurrent_unchanged s s.header.pageNum current
  · rw [after_bind_ok hc]
    exact firstOf_quiet _ h
  · rw [after_bind_error hc]
    exact quiet_refl h

end Quiet

section Allocate

/-- Writing a page through its pointer and marking it dirty. -/
theorem writePage_listed {b : Block 4096} (ho : s.fileIsOpen = true) (hp : s.IsValidPage page)
    (h : Holds (fun k => k = (s.fd, page)) s.fd s.header.pageNum s.bufferManager)
    (hf : s.bufferManager.hashTable.find s.fd page = some slot) :
    ∃ q, markDirty page (s.setData slot b) = .ok () { s with bufferManager := q } ∧
      Holds Settled s.fd s.header.pageNum q ∧ q.hashTable.find s.fd page = some slot ∧
      (q.bufferPool slot).pin = (s.bufferManager.bufferPool slot).pin ∧
      storedLink q s.fd page = some (nextFree b) ∧
      ∀ p, p ≠ page → storedLink q s.fd p = s.stored p := by
  obtain ⟨q, hm, hq⟩ := h.write hf b
  refine ⟨q, ?_, hq⟩
  have heq := checked_eq (fun fd => pool (BufferManager.markDirty fd page))
    (s := s.setData slot b) ho hp
  rw [markDirty, heq]
  exact pool_ok.mpr ⟨q, hm, rfl⟩

/-- The page taken: the head of the chain, or the next new page. -/
theorem takePage_ok {handle : PageHandle} (h : Listed s l) (ht : takePage s = .ok handle t) :
    t.fileIsOpen = true ∧ t.fd = s.fd ∧ t.IsValidPage handle.page ∧
      t.bufferManager.hashTable.find t.fd handle.page = some handle.slot ∧
      Holds (fun k => k = (t.fd, handle.page)) t.fd t.header.pageNum t.bufferManager ∧
      (∀ p v, p ≠ handle.page → s.stored p = some v → t.stored p = some v) ∧
      ((∃ b rest, l = handle.page :: rest ∧ Follows s.stored pageListEnd b rest ∧
          t.header = ⟨b, s.header.pageNum⟩) ∨
        (l = [] ∧ handle.page = s.header.pageNum ∧ s.header.pageNum + 1 < 2 ^ 31 ∧
          t.header = ⟨s.header.firstFree, s.header.pageNum + 1⟩)) := by
  replace ht := get_bind_ok_iff.mp ht
  by_cases hfirst : s.header.firstFree ≠ pageListEnd
  · rw [if_pos hfirst] at ht
    obtain ⟨slot, v, hget, ht⟩ := bind_ok_iff.mp ht
    obtain ⟨_, w, hm, ht⟩ := bind_ok_iff.mp ht
    obtain ⟨rfl, rfl⟩ := pure_ok_iff.mp ht
    obtain ⟨q, hq, rfl⟩ := pool_ok.mp hget
    obtain rfl := modify_ok_iff.mp hm
    obtain ⟨b, rest, hl, hb, hrest⟩ := h.chain.pop hfirst
    have hvalid : s.IsValidPage s.header.firstFree := h.valid _ (by simp [hl])
    obtain ⟨hh, hk, -⟩ := h.holds.getPage hvalid hq
    have hfind := getPage_find hq
    have hlink : nextFree (q.bufferPool slot).data = b := by
      have h1 := storedLink_of_entry (entry_of_find hfind)
      have h2 := storedLink_of_keeps hk hb
      exact Option.some.inj (h1.symm.trans h2)
    refine ⟨h.isOpen, rfl, hvalid, hfind, hh.mono, ?_, Or.inl ⟨b, rest, hl, hrest, ?_⟩⟩
    · exact fun p v _ hv => storedLink_of_keeps hk hv
    · simp only [data, hlink]
  · rw [if_neg hfirst] at ht
    obtain ⟨r, v, hget, ht⟩ := bind_ok_iff.mp ht
    obtain ⟨q, hq, rfl⟩ := pool_ok.mp hget
    obtain ⟨slot, rfl, hfind, hh, hstored⟩ := h.holds.allocatePage h.count.1 hq
    obtain ⟨n, v, hinc, ht⟩ := bind_ok_iff.mp ht
    obtain ⟨_, w, hm, ht⟩ := bind_ok_iff.mp ht
    obtain ⟨rfl, rfl⟩ := pure_ok_iff.mp ht
    obtain rfl := modify_ok_iff.mp hm
    have hlt : s.header.pageNum + 1 < 2 ^ 31 := by
      by_contra hge
      rw [increment, if_neg hge] at hinc
      exact absurd hinc throw_ne_ok
    rw [increment, if_pos hlt] at hinc
    obtain ⟨rfl, rfl⟩ := pure_ok_iff.mp hinc
    have hnil : l = [] := h.chain.eq_nil_iff.mpr (not_not.mp hfirst)
    refine ⟨h.isOpen, rfl, ?_, hfind, hh, hstored, Or.inr ⟨hnil, rfl, hlt, rfl⟩⟩
    exact ⟨h.count.1, Int.lt_succ _⟩

theorem takePage_error (h : Listed s l) (ht : takePage s = .error e t) :
    e = .overflow ∨ t = s := by
  replace ht := get_bind_error_iff.mp ht
  by_cases hfirst : s.header.firstFree ≠ pageListEnd
  · right
    rw [if_pos hfirst] at ht
    obtain hget | ⟨_, _, _, ht⟩ := bind_error_iff.mp ht
    · obtain ⟨q, hq, rfl⟩ := pool_error.mp hget
      obtain ⟨b, rest, hl, hb, -⟩ := h.chain.pop hfirst
      rw [h.holds.getPage_error hb hq]
    · obtain hm | ⟨_, _, _, ht⟩ := bind_error_iff.mp ht
      · exact absurd hm modify_ne_error
      · exact absurd ht pure_ne_error
  · rw [if_neg hfirst] at ht
    obtain hget | ⟨r, _, hget, ht⟩ := bind_error_iff.mp ht
    · obtain ⟨q, hq, rfl⟩ := pool_error.mp hget
      right
      rw [(allocatePage_error hq).1]
    · obtain ⟨q, hq, rfl⟩ := pool_ok.mp hget
      obtain ⟨slot, rfl, -⟩ := h.holds.allocatePage h.count.1 hq
      obtain hinc | ⟨_, _, _, ht⟩ := bind_error_iff.mp ht
      · left
        unfold increment at hinc
        split at hinc
        · exact absurd hinc pure_ne_error
        · exact (throw_error_iff.mp hinc).1.symm
      · obtain hm | ⟨_, _, _, ht⟩ := bind_error_iff.mp ht
        · exact absurd hm modify_ne_error
        · exact absurd ht pure_ne_error

theorem nextFree_setNextFree {b : Block 4096} {v : ℤ} (hv : Block.IsInt32 v) :
    nextFree (setNextFree b v) = v := Block.getInt32_putInt32 (by decide) hv

/-- Which page `allocatePage` hands out, and the chain that is left. -/
theorem allocatePage_listed {handle : PageHandle} (h : Listed s l)
    (ha : allocatePage s = .ok handle t) :
    (∃ rest, l = handle.page :: rest ∧ t.header.pageNum = s.header.pageNum ∧ Listed t rest) ∨
      (l = [] ∧ handle.page = s.header.pageNum ∧
        t.header.pageNum = s.header.pageNum + 1 ∧ Listed t []) := by
  rw [allocatePage, bind_of_ok (checkOpen_of_open h.isOpen)] at ha
  obtain ⟨handle', v, htake, ha⟩ := bind_ok_iff.mp ha
  obtain ⟨_, w, hm, ha⟩ := bind_ok_iff.mp ha
  obtain rfl := modify_ok_iff.mp hm
  obtain ⟨_, w, hdirty, ha⟩ := bind_ok_iff.mp ha
  obtain ⟨rfl, rfl⟩ := pure_ok_iff.mp ha
  obtain ⟨hopen, hfd, hvalid, hfind, hholds, hstored, hcases⟩ := takePage_ok h htake
  obtain ⟨q, hq, hh, -, -, hself, hother⟩ :=
    writePage_listed (s := { v with headerChanged := true }) hopen hvalid hholds hfind
      (b := setNextFree (fun _ => 0) pageUsed)
  obtain rfl : { v with headerChanged := true, bufferManager := q } = w := by
    have := hq.symm.trans hdirty
    injection this
  rw [nextFree_setNextFree (by decide)] at hself
  let t : FileHandle := { v with headerChanged := true, bufferManager := q }
  have hkept : ∀ p v', p ≠ handle'.page → s.stored p = some v' → t.stored p = some v' := by
    intro p v' hne hv
    exact (hother p hne).trans (hstored p v' hne hv)
  obtain ⟨b, rest, rfl, hrest, hheader⟩ | ⟨rfl, hpage, hlt, hheader⟩ := hcases
  · left
    obtain ⟨hnot, hnodup⟩ := List.nodup_cons.mp h.nodup
    have hnum : t.header.pageNum = s.header.pageNum := by simp [t, hheader]
    refine ⟨rest, rfl, hnum, ?_⟩
    refine h.relink hopen hh ⟨hnum.ge, hnum.symm ▸ h.count.2⟩ ?_ hnodup hself ?_ hvalid ?_ hkept ?_
    · have : t.header.firstFree = b := by simp [t, hheader]
      rw [this]
      refine h.follows hrest ?_ hkept
      intro p hp
      exact ⟨List.mem_cons_of_mem _ hp, fun he => hnot (he ▸ hp)⟩
    · simpa using hnot
    · intro p hne
      simp [hne]
    · intro p _ hp
      rwa [IsValidPage, hnum] at hp
  · right
    have hnum : t.header.pageNum = s.header.pageNum + 1 := by simp [t, hheader]
    have hcount : s.header.pageNum ≤ t.header.pageNum ∧ t.header.pageNum < 2 ^ 31 := by omega
    refine ⟨rfl, hpage, hnum, ?_⟩
    refine h.relink hopen hh hcount ?_ List.nodup_nil hself (by simp) hvalid (by simp) hkept ?_
    · have : t.header.firstFree = s.header.firstFree := by simp [t, hheader]
      rw [this]
      exact h.follows h.chain (by simp) hkept
    · intro p hne hp
      rw [IsValidPage, hnum] at hp
      exact ⟨hp.1, by omega⟩

/-- A call of `allocatePage` that throws has changed nothing. -/
theorem allocatePage_unchanged (h : Listed s l) (ha : allocatePage s = .error e t) :
    e = .overflow ∨ t = s := by
  rw [allocatePage, bind_of_ok (checkOpen_of_open h.isOpen)] at ha
  obtain htake | ⟨handle, v, htake, ha⟩ := bind_error_iff.mp ha
  · exact takePage_error h htake
  · obtain hm | ⟨_, w, hm, ha⟩ := bind_error_iff.mp ha
    · exact absurd hm modify_ne_error
    obtain rfl := modify_ok_iff.mp hm
    obtain ⟨hopen, hfd, hvalid, hfind, hholds, -⟩ := takePage_ok h htake
    obtain ⟨q, hq, -⟩ :=
      writePage_listed (s := { v with headerChanged := true }) hopen hvalid hholds hfind
        (b := setNextFree (fun _ => 0) pageUsed)
    obtain hdirty | ⟨_, _, _, ha⟩ := bind_error_iff.mp ha
    · have := hq.symm.trans hdirty
      simp at this
    · exact absurd ha pure_ne_error

end Allocate

section Dispose

theorem unpinPage_eq (ho : s.fileIsOpen = true) (hp : s.IsValidPage page) :
    unpinPage page s = pool (BufferManager.unpinPage s.fd page) s :=
  checked_eq (fun fd => pool (BufferManager.unpinPage fd page)) ho hp

/-- What follows the checks of `disposePage`. -/
theorem disposePage_eq (ho : s.fileIsOpen = true) (hp : s.IsValidPage page) :
    disposePage page s = (do
      let slot ← pool (BufferManager.getPage s.fd page false)
      let s ← get
      if nextFree (s.data slot) ≠ pageUsed then
        unpinPage page
        throw .pageAlreadyFree
      else
        set ((s.setData slot (setNextFree (s.data slot) s.header.firstFree)).setHeader
          { s.header with firstFree := page })
        markDirty page
        unpinPage page : FileOp Unit) s := by
  rw [disposePage, bind_of_ok (checkOpen_of_open ho), bind_of_ok (checkValidPage_of_valid hp)]
  rfl

theorem Listed.firstFree_int32 (h : Listed s l) : Block.IsInt32 s.header.firstFree := by
  by_cases he : s.header.firstFree = pageListEnd
  · rw [he]
    decide
  · obtain ⟨b, rest, hl, -⟩ := h.chain.pop he
    obtain ⟨h0, h1⟩ := h.valid s.header.firstFree (by simp [hl])
    have := h.count
    unfold Block.IsInt32
    omega

/-- A page that was fetched is in its slot, pinned, and its link says whether it is free. -/
theorem fetchPage_ok {mp : Bool} (h : Listed s l) (hp : s.IsValidPage page)
    (hg : pool (BufferManager.getPage s.fd page mp) s = .ok slot t) :
    Quiet s t ∧ t.bufferManager.hashTable.find t.fd page = some slot ∧
      0 < (t.bufferManager.bufferPool slot).pin ∧
      (nextFree (t.data slot) ≠ pageUsed ↔ page ∈ l) := by
  have hquiet := getPage_quiet mp h hp
  simp only [after, hg] at hquiet
  obtain ⟨q, hq, rfl⟩ := pool_ok.mp hg
  have hfind := getPage_find hq
  have hlink := storedLink_of_entry (entry_of_find hfind)
  obtain ⟨v, hv, hiff⟩ := (h.quiet hquiet).used page hp
  obtain rfl := Option.some.inj (hlink.symm.trans hv)
  exact ⟨hquiet, hfind, (h.holds.getPage hp hq).2.2, hiff⟩

/-- A page in use is linked in front of the chain. -/
theorem linkPage_listed (h : Listed s l) (hp : s.IsValidPage page) (hl : page ∉ l)
    (hfind : s.bufferManager.hashTable.find s.fd page = some slot)
    (hpin : 0 < (s.bufferManager.bufferPool slot).pin) :
    ∃ t, (do
        set ((s.setData slot (setNextFree (s.data slot) s.header.firstFree)).setHeader
          { s.header with firstFree := page })
        markDirty page
        unpinPage page : FileOp Unit) s = .ok () t ∧
      t.header.pageNum = s.header.pageNum ∧ Listed t (page :: l) := by
  let v := s.setHeader { s.header with firstFree := page }
  have hv : Holds (fun k => k = (v.fd, page)) v.fd v.header.pageNum v.bufferManager :=
    h.holds.mono
  obtain ⟨q, hq, hh, hfind', hpin', hself, hother⟩ :=
    writePage_listed (s := v) h.isOpen hp hv hfind
      (b := setNextFree (s.data slot) s.header.firstFree)
  rw [nextFree_setNextFree h.firstFree_int32] at hself
  let w : FileHandle := { v with bufferManager := q }
  have hlisted : Listed w (page :: l) := by
    have hpage : page ≠ pageListEnd := by
      have := hp.1
      unfold pageListEnd
      omega
    have hlink : s.header.firstFree ≠ pageUsed := by
      by_cases he : s.header.firstFree = pageListEnd
      · rw [he]
        decide
      · obtain ⟨b, rest, hrest, -⟩ := h.chain.pop he
        obtain ⟨h0, -⟩ := h.valid s.header.firstFree (by simp [hrest])
        unfold pageUsed
        omega
    have hkept : ∀ p v', p ≠ page → s.stored p = some v' → w.stored p = some v' :=
      fun p v' hne hv' => (hother p hne).trans hv'
    refine h.relink h.isOpen hh ⟨le_rfl, h.count.2⟩ ?_ (List.nodup_cons.mpr ⟨hl, h.nodup⟩) hself
      (by simpa using hlink) hp ?_ hkept fun p _ hp => hp
    · refine ⟨rfl, hpage, _, hself, h.follows h.chain ?_ hkept⟩
      exact fun p hp => ⟨hp, fun he => hl (he ▸ hp)⟩
    · intro p hne
      simp [hne]
  have hpin'' : (q.bufferPool slot).pin ≠ 0 := by
    have : (q.bufferPool slot).pin = (s.bufferManager.bufferPool slot).pin := hpin'
    omega
  obtain ⟨r, hr⟩ := unpinPage_of_find hfind' hpin''
  have hunpin : unpinPage page w = .ok () { w with bufferManager := r } :=
    (unpinPage_eq (s := w) h.isOpen hp).trans (pool_ok.mpr ⟨r, hr, rfl⟩)
  have hquiet := unpinPage_quiet page hlisted
  simp only [after, hunpin] at hquiet
  refine ⟨{ w with bufferManager := r }, ?_, rfl, hlisted.quiet hquiet⟩
  exact bind_ok_iff.mpr ⟨⟨⟩, _, set_ok_iff.mpr rfl, bind_ok_iff.mpr ⟨(), w, hq, hunpin⟩⟩

/-- A page that is in use becomes the head of the chain; in all other cases `disposePage` throws
and the chain stays. -/
theorem disposePage_listed (page : ℤ) (h : Listed s l) :
    (∃ t, disposePage page s = .ok () t ∧ t.header.pageNum = s.header.pageNum ∧
      s.IsValidPage page ∧ page ∉ l ∧ Listed t (page :: l)) ∨
    ∃ e t, disposePage page s = .error e t ∧ Quiet s t := by
  by_cases hp : s.IsValidPage page
  swap
  · right
    refine ⟨.invalidPage, s, ?_, quiet_refl h⟩
    rw [disposePage, bind_of_ok (checkOpen_of_open h.isOpen)]
    exact bind_error_iff.mpr (Or.inl (checkValidPage_of_not hp))
  rw [disposePage_eq h.isOpen hp]
  cases hg : pool (BufferManager.getPage s.fd page false) s with
  | error e t =>
    right
    have hquiet := getPage_quiet false h hp
    simp only [after, hg] at hquiet
    exact ⟨e, t, bind_error_iff.mpr (Or.inl hg), hquiet⟩
  | ok slot t =>
    obtain ⟨hquiet, hfind, hpin, hiff⟩ := fetchPage_ok h hp hg
    have hlt := h.quiet hquiet
    rw [bind_of_ok hg, bind_of_ok (rfl : (get : FileOp FileHandle) t = .ok t t)]
    by_cases hused : nextFree (t.data slot) ≠ pageUsed
    · right
      have hthrow := hquiet.trans (unpinPage_quiet page hlt)
      rw [if_pos hused]
      cases hu : unpinPage page t with
      | ok _ w =>
        simp only [after, hu] at hthrow
        exact ⟨_, w, by rw [bind_of_ok hu]; rfl, hthrow⟩
      | error e w =>
        simp only [after, hu] at hthrow
        exact ⟨e, w, bind_error_iff.mpr (Or.inl hu), hthrow⟩
    · left
      have hpt : t.IsValidPage page := by
        rw [IsValidPage, hquiet.2.2.1]
        exact hp
      have hl : page ∉ l := fun hm => hused (hiff.mpr hm)
      rw [if_neg hused]
      obtain ⟨w, hw, hnum, hlw⟩ := linkPage_listed hlt hpt hl hfind hpin
      exact ⟨w, hw, by rw [hnum, hquiet.2.2.1], hp, hl, hlw⟩

end Dispose

/-- A client's write behind the link of any slot. -/
theorem setData_quiet (h : Listed s l) (i : Fin 4096) (hi : 4 ≤ i.val) (x : UInt8) :
    Quiet s (s.setData slot (Function.update (s.data slot) i x)) :=
  ⟨rfl, rfl, rfl, h.holds.poke slot i hi x⟩

end FileHandle

end AlphaDb.Io
