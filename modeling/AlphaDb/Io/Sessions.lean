import AlphaDb.Io.Reopening

/-! A file over many sessions: opened, used, forced, closed and opened again, by one process or by
the next. Its pages keep what clients put into them. -/
namespace AlphaDb.Io

open EStateM Trace BufferManager Cache

namespace FileHandle

variable {s t v : FileHandle} {l : List ℤ} {page : ℤ} {slot : ℕ} {u : Unit} {e : Error}
  {q : BufferManager 4096} {c : Cache 4096} {ph : PageHandle}

/-- A call of the pool that makes room and changes no contents. -/
theorem Steady.calm (h : Steady s l) (hev : Evict s.bufferManager.cache c) (hq : q.disk = c.disk)
    (hcont : ∀ k b, s.bufferManager.cache.contents k = some b → q.cache.contents k = some b) :
    Calm s { s with bufferManager := q } := by
  refine ⟨rfl, rfl, rfl, ?_, fun page => hcont (s.fd, page)⟩
  intro x hx
  rw [show q.disk = c.disk from hq]
  exact hev.header h.keyed h.behind hx

theorem calm_fetch {mp : Bool} (h : Steady s l) (hp : s.IsValidPage page)
    (hg : pool (BufferManager.getPage s.fd page mp) s = .ok slot v) : Calm s v := by
  obtain ⟨q, hq, rfl⟩ := pool_ok.mp hg
  obtain ⟨c, b, hev, -, -, hc⟩ := getPage_hold (by decide) h.serves.owned hq
  exact h.calm hev (congrArg Cache.disk hc) (h.serves.fetch hp.1 hq).2

theorem calm_unpin (h : Steady s l) (hu : unpinPage page s = .ok u t) : Calm s t := by
  obtain ⟨-, q, hq, rfl⟩ :=
    checked_ok (fun fd => BufferManager.unpinPage fd page) h.listed.isOpen hu
  obtain ⟨b, -, -, hc⟩ := unpinPage_hold h.serves.owned hq
  exact h.calm (.keep _) (congrArg Cache.disk hc) (h.serves.unpin hq).2

theorem markDirty_pool (ho : s.fileIsOpen = true) (hm : markDirty page s = .ok u t) :
    ∃ q, BufferManager.markDirty s.fd page s.bufferManager = .ok u q ∧
      t = { s with bufferManager := q } :=
  (checked_ok (fun fd => BufferManager.markDirty fd page) ho hm).2

theorem calm_markDirty (h : Steady s l) (hm : markDirty page s = .ok u t) : Calm s t := by
  have hspares := (h.served.markDirty hm).2
  obtain ⟨q, hq, rfl⟩ := markDirty_pool h.listed.isOpen hm
  obtain ⟨en, -, hc⟩ := markDirty_cache h.serves.owned hq
  refine ⟨rfl, rfl, rfl, ?_, hspares.contents⟩
  intro x hx
  rw [show q.disk = s.bufferManager.disk from congrArg Cache.disk hc]
  exact hx

theorem calm_getThisPage (h : Steady s l) (hg : getThisPage page s = .ok ph t) :
    Calm s t := by
  have hspares := (h.served.getThisPage hg).2.1
  obtain ⟨c, b, q, slot, -, rfl, hf, -⟩ := getThisPage_ok h.served hg
  refine ⟨rfl, rfl, rfl, ?_, hspares.contents⟩
  intro x hx
  rw [show q.disk = c.disk from congrArg Cache.disk hf.cache]
  exact hf.evict.header h.keyed h.behind hx

/-- A page that was fetched in vain is unpinned, and all is calm. -/
theorem calm_fetch_unpin {mp : Bool} (h : Steady s l) (hp : s.IsValidPage page)
    (hg : pool (BufferManager.getPage s.fd page mp) s = .ok slot v) :
    ∃ t, unpinPage page v = .ok () t ∧ Calm s t ∧ Steady t l := by
  obtain ⟨hv, t, hu, -, ht⟩ := h.fetch_unpin hp hg
  exact ⟨t, hu, (calm_fetch h hp hg).trans (calm_unpin hv hu), ht⟩

theorem calm_getThisPage_error (h : Steady s l) (hg : getThisPage page s = .error e t) :
    Calm s t := by
  by_cases hp : s.IsValidPage page
  swap
  · rw [getThisPage_invalid h.listed.isOpen hp] at hg
    injection hg with _ hg
    exact hg ▸ calm_refl s
  rw [getThisPage_eq h.listed.isOpen hp] at hg
  obtain hget | ⟨slot, v, hget, hg⟩ := bind_error_iff.mp hg
  · obtain rfl := h.fetch_error hp hget
    exact calm_refl _
  obtain ⟨w, hu, hcalm, -⟩ := calm_fetch_unpin h hp hget
  rw [bind_of_ok (rfl : (get : FileOp FileHandle) v = .ok v v)] at hg
  split at hg
  · exact absurd hg pure_ne_error
  · rw [bind_of_ok hu] at hg
    obtain ⟨-, rfl⟩ := throw_error_iff.mp hg
    exact hcalm

theorem calm_disposePage_error (h : Steady s l) (hd : disposePage page s = .error e t) :
    Calm s t := by
  by_cases hp : s.IsValidPage page
  swap
  · rw [disposePage_invalid h.listed.isOpen hp] at hd
    injection hd with _ hd
    exact hd ▸ calm_refl s
  rw [disposePage_eq h.listed.isOpen hp] at hd
  obtain hget | ⟨slot, v, hget, hd⟩ := bind_error_iff.mp hd
  · obtain rfl := h.fetch_error hp hget
    exact calm_refl _
  obtain ⟨w, hu, hcalm, -⟩ := calm_fetch_unpin h hp hget
  obtain ⟨hv, -⟩ := h.fetch_unpin hp hget
  obtain ⟨hquiet, hfind, hpin, hiff⟩ := fetchPage_ok h.listed hp hget
  rw [bind_of_ok (rfl : (get : FileOp FileHandle) v = .ok v v)] at hd
  split at hd
  · rw [bind_of_ok hu] at hd
    obtain ⟨-, rfl⟩ := throw_error_iff.mp hd
    exact hcalm
  · next hused =>
    have hpv : v.IsValidPage page := by
      rw [IsValidPage, hquiet.2.2.1]
      exact hp
    obtain ⟨x, hx, -⟩ := linkPage_listed hv.listed hpv (fun hm => hused (hiff.mpr hm)) hfind hpin
    rw [hx] at hd
    cases hd

/-- A page written through its pointer and marked dirty, in the cache. -/
theorem write_cache {p : BufferManager 4096} {fd : ℤ} {b : Block 4096} (ho : Owned p)
    (hf : p.hashTable.find fd page = some slot)
    (hm : BufferManager.markDirty fd page
      (p.setEntry slot { p.bufferPool slot with data := b }) = .ok u q) :
    Owned q ∧ ∃ en, en.data = b ∧ q.cache = p.cache.set (fd, page) en := by
  have hset := owned_iff.mp ho
  have how : Owned (p.setEntry slot { p.bufferPool slot with data := b }) :=
    owned_iff.mpr (hset.setEntry rfl rfl)
  obtain ⟨en, hen, hc⟩ := markDirty_cache how hm
  rw [cache_setEntry hset.named hf] at hen hc
  rw [set_entry_self] at hen
  obtain rfl := Option.some.inj hen
  exact ⟨markDirty_owned how hm, _, rfl, by rw [hc, set_set]⟩

theorem allocatePage_changed (h : Steady s l) (ha : allocatePage s = .ok ph t) :
    t.headerChanged = true := by
  rw [allocatePage, bind_of_ok (checkOpen_of_open h.listed.isOpen)] at ha
  obtain ⟨ph', v, htake, ha⟩ := bind_ok_iff.mp ha
  obtain ⟨hopen, -⟩ := takePage_ok h.listed htake
  obtain ⟨_, w, hm, ha⟩ := bind_ok_iff.mp ha
  obtain rfl := modify_ok_iff.mp hm
  obtain ⟨_, w, hdirty, ha⟩ := bind_ok_iff.mp ha
  obtain ⟨rfl, rfl⟩ := pure_ok_iff.mp ha
  obtain ⟨q, -, rfl⟩ := markDirty_pool (by exact hopen) hdirty
  rfl

/-- Disposing of a page touches no other page. -/
theorem disposePage_frame (h : Steady s l) (hd : disposePage page s = .ok u t) :
    s.IsValidPage page ∧ page ∉ l ∧ t.headerChanged = true ∧ t.fd = s.fd ∧
      t.header.pageNum = s.header.pageNum ∧
      ∀ p b, p ≠ page → s.contents p = some b → t.contents p = some b := by
  obtain ⟨t', ht', -, hp, hpl, -⟩ | ⟨e, t', ht', -⟩ := disposePage_listed page h.listed
  swap
  · rw [ht'] at hd
    cases hd
  rw [disposePage_eq h.listed.isOpen hp] at hd
  obtain ⟨slot, v, hget, hd⟩ := bind_ok_iff.mp hd
  obtain ⟨hv, -⟩ := h.fetch_unpin hp hget
  have hcalm := calm_fetch h hp hget
  obtain ⟨-, hfind, -, hiff⟩ := fetchPage_ok h.listed hp hget
  rw [bind_of_ok (rfl : (get : FileOp FileHandle) v = .ok v v),
    if_neg fun hne => hpl (hiff.mp hne)] at hd
  obtain ⟨_, w, hset, hd⟩ := bind_ok_iff.mp hd
  obtain rfl := set_ok_iff.mp hset
  obtain ⟨_, w, hm, hu⟩ := bind_ok_iff.mp hd
  have hopen : v.fileIsOpen = true := hv.listed.isOpen
  obtain ⟨q, hq, rfl⟩ := markDirty_pool (by exact hopen) hm
  obtain ⟨-, r, hr, rfl⟩ := checked_ok (fun fd => BufferManager.unpinPage fd page)
    (s := { v with
      header := { v.header with firstFree := page }
      headerChanged := true
      bufferManager := q }) hopen hu
  refine ⟨hp, hpl, rfl, hcalm.fd, by rw [← hcalm.header], ?_⟩
  intro p b hne hb
  have hk : (v.fd, p) ≠ (v.fd, page) := by simpa using hne
  obtain ⟨ho, en, -, hcq⟩ := write_cache hv.serves.owned hfind hq
  obtain ⟨en', -, -, hcr⟩ := unpinPage_cache ho hr
  have hb := hcalm.contents p b hb
  rw [contents] at hb ⊢
  rwa [hcr, contents_set_of_ne hk, hcq, contents_set_of_ne hk]

/-- A client's write to a byte of a page, which it marks dirty. -/
theorem write_frame {i : Fin 4096} {x : UInt8} (h : Steady s l)
    (hf : s.bufferManager.hashTable.find s.fd page = some slot)
    (hm : markDirty page (s.setData slot (Function.update (s.data slot) i x)) = .ok u t) :
    t.fd = s.fd ∧ t.header = s.header ∧ (Saved s → Saved t) ∧
      (∀ b, s.contents page = some b → t.contents page = some (Function.update b i x)) ∧
      ∀ p b, p ≠ page → s.contents p = some b → t.contents p = some b := by
  obtain ⟨q, hq, rfl⟩ := markDirty_pool (by exact h.listed.isOpen) hm
  obtain ⟨-, en, hdata, hc⟩ := write_cache h.serves.owned hf hq
  refine ⟨rfl, rfl, ?_, ?_, ?_⟩
  · intro hs hchanged
    have hdisk : q.disk = s.bufferManager.disk := congrArg Cache.disk hc
    dsimp only
    rw [hdisk]
    exact hs hchanged
  · intro b hb
    rw [contents, contents_of_entry (entry_of_find hf)] at hb
    obtain rfl := Option.some.inj hb
    change q.cache.contents (s.fd, page) = _
    rw [hc, contents_of_entry set_entry_self, hdata]
    rfl
  · intro p b hne hb
    have hk : (s.fd, p) ≠ (s.fd, page) := by simpa using hne
    change q.cache.contents (s.fd, p) = _
    rw [hc, contents_set_of_ne hk]
    exact hb

/-- A call of a step has returned, or has thrown for another reason than its I/O. -/
theorem step_call {c : PageCall} (hs : s.step (.call c) = some t) :
    c.perform s = .ok () t ∨ ∃ e, c.perform s = .error e t ∧ e ≠ .overflow := by
  simp only [FileHandle.step] at hs
  split at hs
  · next hc =>
    obtain rfl := Option.some.inj hs
    exact Or.inl hc
  · next e v hc =>
    split at hs
    · cases hs
    · next he =>
      obtain rfl := Option.some.inj hs
      exact Or.inr ⟨e, hc, fun hov => he (Or.inr hov)⟩

end FileHandle

/-- An open handle, and what clients have put into the pages that they have. -/
structure FileSession where
  handle : FileHandle
  store : ℤ → Option (Block 4092)

/-- A call of the handle or a client's write; a forced page; the file closed and opened again by
the same process, or by a new one with a pool of its own. The descriptor is up to the system. -/
inductive SessionStep
  | action (a : PageAction)
  | forcePage (page : ℤ)
  | reopen (fd : ℤ)
  | restart (fd : ℤ) (poolSize : ℕ) (raw : ℕ → BufferEntry 4096)

namespace FileSession

open FileHandle

variable {s t : FileSession} {l : List ℤ} {fd : ℤ} {p : BufferManager 4096}

def init (handle : FileHandle) : FileSession := ⟨handle, fun _ => none⟩

/-- The pages that clients have after a call, and what is in them. -/
def record (s : FileSession) : PageAction → ℤ → Option (Block 4092)
  | .call .allocatePage =>
    match FileHandle.allocatePage s.handle with
    | .ok handle _ => Function.update s.store handle.page (some fun _ => 0)
    | .error _ _ => s.store
  | .call (.disposePage page) =>
    match FileHandle.disposePage page s.handle with
    | .ok _ _ => Function.update s.store page none
    | .error _ _ => s.store
  | .call _ => s.store
  | .write page i x =>
    Function.update s.store page
      ((s.store page).map fun d j => if j.val + 4 = i.val then x else d j)

/-- After the file was closed: `next` opens it. A file that cannot be closed stays open. -/
def afterClose (s : FileSession)
    (next : ByteFile → BufferManager 4096 → Option FileHandle) : Option FileSession :=
  match closeFile s.handle with
  | .ok f t => (next f t.bufferManager).map fun handle => { s with handle := handle }
  | .error e t => if e.isIo then none else some { s with handle := t }

def step (s : FileSession) : SessionStep → Option FileSession
  | .action a => (s.handle.step a).map fun t => ⟨t, s.record a⟩
  | .forcePage page =>
    if 0 ≤ page then
      match FileHandle.forcePage page s.handle with
      | .ok _ t => some { s with handle := t }
      | .error e t => if e.isIo then none else some { s with handle := t }
    else none
  | .reopen fd => s.afterClose fun f p =>
    if (p.disk fd).isNone then
      openFile fd { p with disk := Function.update p.disk fd (some f) }
    else none
  | .restart fd poolSize raw => s.afterClose fun f _ =>
    openFile fd (.new poolSize raw (Function.update (fun _ => none) fd (some f)))

/-- When the file is closed, no free buffer carries its descriptor from a session before. -/
def Rules (s : FileSession) : SessionStep → Prop
  | .reopen _ | .restart .. => s.handle.NoStale
  | _ => True

instance : ∀ (s : FileSession) (a : SessionStep), Decidable (s.Rules a)
  | s, .reopen _ => inferInstanceAs (Decidable s.handle.NoStale)
  | s, .restart .. => inferInstanceAs (Decidable s.handle.NoStale)
  | _, .action _ => isTrue trivial
  | _, .forcePage _ => isTrue trivial

/-- The pages that clients have are those in use, with what clients put there. -/
structure Persisted (s : FileSession) (l : List ℤ) : Prop where
  steady : Steady s.handle l
  saved : Saved s.handle
  stored : ∀ page, s.store page ≠ none ↔ InUse s.handle l page
  contents : ∀ page d, s.store page = some d →
    ∃ b, s.handle.contents page = some b ∧ pageData b = d

theorem Persisted.carry {handle : FileHandle} (h : Persisted s l) (hs : Steady handle l)
    (hsaved : Saved handle) (hheader : handle.header = s.handle.header)
    (hcont : ∀ page b, 0 ≤ page → s.handle.contents page = some b →
      handle.contents page = some b) : Persisted { s with handle := handle } l := by
  refine ⟨hs, hsaved, ?_, ?_⟩
  · intro page
    rw [inUse_iff hheader]
    exact h.stored page
  · intro page d hd
    have hd : s.store page = some d := hd
    have huse := (h.stored page).mp (by simp [hd])
    obtain ⟨b, hb, he⟩ := h.contents page d hd
    exact ⟨b, hcont page b huse.1.1 hb, he⟩

theorem Persisted.kept {handle : FileHandle} (h : Persisted s l)
    (hk : Steady handle l ∧ Saved handle ∧ Kept s.handle handle) :
    Persisted { s with handle := handle } l :=
  h.carry hk.1 hk.2.1 hk.2.2.header hk.2.2.contents

theorem Persisted.calm {handle : FileHandle} (h : Persisted s l) (hs : Steady handle l)
    (hc : Calm s.handle handle) : Persisted { s with handle := handle } l :=
  h.kept ⟨hs, hc.isSaved h.saved, hc.kept⟩

theorem Persisted.allocatePage {ph : PageHandle} {handle : FileHandle} (h : Persisted s l)
    (ha : FileHandle.allocatePage s.handle = .ok ph handle) :
    ∃ l', Persisted
      ⟨handle, Function.update s.store ph.page (some fun _ => 0)⟩ l' := by
  obtain ⟨l', hs, -, -, hself, -, huse, hother⟩ := h.steady.served.allocatePage ha
  have hchanged := allocatePage_changed h.steady ha
  refine ⟨l', hs.steady, fun hc => absurd (hchanged.symm.trans hc) (by decide), ?_, ?_⟩
  · intro page
    rw [huse]
    by_cases hp : page = ph.page
    · simp [hp]
    · simpa [hp] using h.stored page
  · intro page d hd
    by_cases hp : page = ph.page
    · subst hp
      simp only [Function.update_self, Option.some.injEq] at hd
      exact ⟨_, hself, pageData_new.trans hd⟩
    · simp only [Function.update_of_ne hp] at hd
      obtain ⟨b, hb, he⟩ := h.contents page d hd
      exact ⟨b, (hother page hp).2 b hb, he⟩

theorem Persisted.disposePage {page : ℤ} {u : Unit} {handle : FileHandle} (h : Persisted s l)
    (hd : FileHandle.disposePage page s.handle = .ok u handle) :
    Persisted ⟨handle, Function.update s.store page none⟩ (page :: l) := by
  obtain ⟨hp, hl, hchanged, -, hnum, hother⟩ := disposePage_frame h.steady hd
  refine ⟨h.steady.disposePage hd, fun hc => absurd (hchanged.symm.trans hc) (by decide), ?_, ?_⟩
  · intro p
    rw [InUse, IsValidPage, hnum]
    by_cases he : p = page
    · simp [he]
    · simpa [he, InUse, IsValidPage] using h.stored p
  · intro p d hd
    by_cases he : p = page
    · subst he
      simp at hd
    · simp only [Function.update_of_ne he] at hd
      obtain ⟨b, hb, hdata⟩ := h.contents p d hd
      exact ⟨b, hother p b he hb, hdata⟩

theorem Persisted.write {page : ℤ} {i : Fin 4096} {x : UInt8} {handle : FileHandle}
    (h : Persisted s l) (hs : s.handle.step (.write page i x) = some handle) :
    Persisted ⟨handle, s.record (.write page i x)⟩ l := by
  simp only [FileHandle.step] at hs
  split at hs
  swap
  · cases hs
  next hi =>
  split at hs
  · cases hs
  next slot hf =>
  split at hs
  swap
  · cases hs
  next hm =>
  obtain rfl := Option.some.inj hs
  obtain ⟨-, hheader, hsaved, hself, hother⟩ := write_frame h.steady hf hm
  refine ⟨h.steady.write hi hf hm, hsaved h.saved, ?_, ?_⟩
  · intro p
    rw [inUse_iff hheader]
    by_cases he : p = page
    · subst he
      simpa [record] using h.stored p
    · simpa [record, he] using h.stored p
  · intro p d hd
    by_cases he : p = page
    · subst he
      simp only [record, Function.update_self, Option.map_eq_some_iff] at hd
      obtain ⟨d₀, hd₀, rfl⟩ := hd
      obtain ⟨b, hb, rfl⟩ := h.contents p d₀ hd₀
      refine ⟨_, hself b hb, ?_⟩
      funext j
      simp only [pageData, Function.update_apply, Fin.ext_iff]
    · simp only [record, Function.update_of_ne he] at hd
      obtain ⟨b, hb, hdata⟩ := h.contents p d hd
      exact ⟨b, hother p b he hb, hdata⟩

theorem Persisted.call {c : PageCall} {handle : FileHandle} (h : Persisted s l)
    (hs : s.handle.step (.call c) = some handle) :
    ∃ l', Persisted ⟨handle, s.record (.call c)⟩ l' := by
  obtain hc | ⟨e, hc, he⟩ := step_call hs
  · cases c with
    | allocatePage =>
      obtain ⟨ph, v, ha, hr⟩ := bind_ok_iff.mp hc
      obtain ⟨-, rfl⟩ := pure_ok_iff.mp hr
      simp only [record, ha]
      exact h.allocatePage ha
    | disposePage page =>
      have hd : FileHandle.disposePage page s.handle = .ok () handle := hc
      simp only [record, hd]
      exact ⟨_, h.disposePage hd⟩
    | getThisPage page =>
      obtain ⟨ph, v, hg, hr⟩ := bind_ok_iff.mp hc
      obtain ⟨-, rfl⟩ := pure_ok_iff.mp hr
      exact ⟨l, h.calm (h.steady.served.getThisPage hg).1.steady (calm_getThisPage h.steady hg)⟩
    | markDirty page =>
      exact ⟨l, h.calm (h.steady.served.markDirty hc).1.steady (calm_markDirty h.steady hc)⟩
    | unpinPage page => exact ⟨l, h.calm (h.steady.unpinPage hc) (calm_unpin h.steady hc)⟩
  · have hsteady := (perform_error h.steady hc he).2
    cases c with
    | allocatePage =>
      obtain ha | ⟨_, _, _, hr⟩ := bind_error_iff.mp hc
      · simp only [record, ha]
        obtain he' | rfl := allocatePage_unchanged h.steady.listed ha
        · exact absurd he' he
        · exact ⟨l, h⟩
      · exact absurd hr pure_ne_error
    | disposePage page =>
      have hd : FileHandle.disposePage page s.handle = .error e handle := hc
      simp only [record, hd]
      exact ⟨l, h.calm hsteady (calm_disposePage_error h.steady hd)⟩
    | getThisPage page =>
      obtain hg | ⟨_, _, _, hr⟩ := bind_error_iff.mp hc
      · exact ⟨l, h.calm hsteady (calm_getThisPage_error h.steady hg)⟩
      · exact absurd hr pure_ne_error
    | markDirty page =>
      obtain rfl := markDirty_unchanged h.steady.listed.isOpen hc
      exact ⟨l, h⟩
    | unpinPage page =>
      obtain rfl := unpinPage_unchanged h.steady.listed.isOpen hc
      exact ⟨l, h⟩

theorem ready_new (poolSize : ℕ) (raw : ℕ → BufferEntry 4096) (disk : Disk) :
    Ready fd (new poolSize raw disk) := by
  refine ⟨owned_new poolSize raw disk, ?_, writable_new poolSize raw disk, ?_⟩
  · intro k en hk
    simp [new, cache] at hk
  · intro page
    simp [new, cache]

/-- A descriptor that is not in use is given to a file: the pool has nothing under it. -/
theorem ready_open {fd' : ℤ} (h : Ready fd p) (hfd : p.disk fd' = none) (f : ByteFile) :
    Ready fd' { p with disk := Function.update p.disk fd' (some f) } := by
  refine ready_update h.owned h.coherent h.writable ?_ (some f)
  intro page
  cases hen : p.cache.entry (fd', page) with
  | none => rfl
  | some en => simpa [hfd] using (h.writable _ en hen).1

/-- A file that was closed is found again through whatever pool it is opened with. -/
theorem Persisted.afterClose {next : ByteFile → BufferManager 4096 → Option FileHandle}
    (h : Persisted s l) (hn : NoStale s.handle) (hs : s.afterClose next = some t)
    (hnext : ∀ f p, Ready s.handle.fd p → p.disk s.handle.fd = none → ∀ handle,
      next f p = some handle → ∃ fd q, openFile fd q = some handle ∧ Ready fd q ∧
        q.disk fd = some f) : Persisted t l := by
  unfold FileSession.afterClose at hs
  split at hs
  · next f v hc =>
    obtain ⟨hleft, hready, hnone⟩ := closeFile_ok h.steady h.saved hn hc
    obtain ⟨handle, hopen, rfl⟩ := Option.map_eq_some_iff.mp hs
    obtain ⟨fd, q, hq, hready', hfile⟩ := hnext f v.bufferManager hready hnone handle hopen
    obtain ⟨handle', hq', hsteady, hsaved, hheader, hcont⟩ :=
      openFile_left h.steady hleft hready' hfile
    obtain rfl := Option.some.inj (hq'.symm.trans hq)
    exact h.carry hsteady hsaved hheader hcont
  · next e v hc =>
    split at hs
    · cases hs
    · obtain rfl := Option.some.inj hs
      exact h.kept (closeFile_error h.steady h.saved hn hc)

theorem persisted_step : TrInv (Guarded Rules step) fun s => ∃ l, Persisted s l := by
  rintro s a t ⟨hrule, hs⟩ ⟨l, h⟩
  cases a with
  | action a =>
    obtain ⟨handle, hstep, rfl⟩ := Option.map_eq_some_iff.mp hs
    cases a with
    | call c => exact h.call hstep
    | write page i x => exact ⟨l, h.write hstep⟩
  | forcePage page =>
    obtain ⟨hpage, hs⟩ := Option.ite_none_right_eq_some.mp hs
    split at hs
    · next hf =>
      obtain rfl := Option.some.inj hs
      exact ⟨l, h.kept (forcePage_ok h.steady h.saved hpage hf)⟩
    · next hf => simp [forcePage_error h.steady h.saved hf] at hs
  | reopen fd =>
    simp only [step] at hs
    refine ⟨l, h.afterClose hrule hs ?_⟩
    intro f p hready _ handle hopen
    obtain ⟨hfree, hopen⟩ := Option.ite_none_right_eq_some.mp hopen
    exact ⟨fd, _, hopen, ready_open hready (Option.isNone_iff_eq_none.mp hfree) f, by simp⟩
  | restart fd poolSize raw =>
    simp only [step] at hs
    refine ⟨l, h.afterClose hrule hs ?_⟩
    intro f p _ _ handle hopen
    exact ⟨fd, _, hopen, ready_new poolSize raw _, by simp [new]⟩

theorem persisted_init {handle : FileHandle} (h : FileRun.Created fd p) (hw : Writable p.cache)
    (ho : openFile fd p = some handle) : Persisted (init handle) [] := by
  refine ⟨(served_created h hw ho).steady, saved_openFile ho, ?_, ?_⟩
  · intro page
    have hpage := (FileRun.tracked_init h ho).allocated page
    simpa [FileRun.init, init, InUse] using hpage
  · intro page d hd
    simp [init] at hd

/-- The pages of a created file over all its sessions: a page that is handed out has the bytes that
clients have put there, however often the file was closed, by whatever pool, and opened again; a
page that clients have is handed out if the pool can hold it; and a new page is clear, and was not
one of theirs. -/
theorem run_persists {handle : FileHandle} {steps : List SessionStep}
    (hp : FileRun.Created fd p) (hw : Writable p.cache) (ho : openFile fd p = some handle)
    (h : MTr (Guarded Rules step) (init handle) steps s) :
    (∀ page ph t, getThisPage page s.handle = .ok ph t →
      s.store page = some (pageData (t.data ph.slot))) ∧
    (∀ page, s.store page ≠ none → CanHold s.handle.bufferManager s.handle.fd page →
      ∃ slot t, getThisPage page s.handle = .ok ⟨page, slot⟩ t) ∧
    ∀ ph t, FileHandle.allocatePage s.handle = .ok ph t →
      s.store ph.page = none ∧ (t.contents ph.page).map pageData = some fun _ => 0 := by
  obtain ⟨l, hl⟩ := mTr_trInv persisted_step h ⟨[], persisted_init hp hw ho⟩
  have hserved := hl.steady.served
  refine ⟨?_, ?_, ?_⟩
  · intro page ph t hg
    obtain ⟨c, b, q, slot, rfl, rfl, hf, hpl⟩ := getThisPage_ok hserved hg
    obtain ⟨d, hd⟩ := Option.ne_none_iff_exists'.mp ((hl.stored page).mpr ⟨hf.valid, hpl⟩)
    obtain ⟨b', hb', rfl⟩ := hl.contents page d hd
    obtain rfl := Option.some.inj ((hf.contents_eq hserved).symm.trans hb')
    rw [hd]
    simp only [data, hf.entry]
  · intro page hpage hroom
    obtain ⟨hvalid, hpl⟩ := (hl.stored page).mp hpage
    exact getThisPage_returns hserved hvalid hpl hroom
  · intro ph t ha
    obtain ⟨l', -, -, hnot, hself, -⟩ := hserved.allocatePage ha
    refine ⟨not_not.mp fun hne => hnot ((hl.stored _).mp hne), ?_⟩
    rw [hself, Option.map_some, pageData_new]

/-- A page is written; the file is closed, opened and read, and then opened by a new process. -/
theorem run_persists_restart : ∃ handle s, openFile 3 FileRun.createdPool = some handle ∧
    MTr (Guarded Rules step) (init handle)
      [.action (.call .allocatePage), .action (.write 0 9 7), .action (.call (.unpinPage 0)),
        .reopen 3, .action (.call (.getThisPage 0)), .action (.call (.unpinPage 0)),
        .restart 5 2 fun _ => ⟨false, 0, 0, fun _ => 0, 0⟩] s ∧
    ∃ ph t, getThisPage 0 s.handle = .ok ph t ∧ pageData (t.data ph.slot) 5 = 7 := by
  have h : ((openFile 3 FileRun.createdPool).bind fun handle =>
      execGuarded Rules step (init handle)
        [.action (.call .allocatePage), .action (.write 0 9 7), .action (.call (.unpinPage 0)),
          .reopen 3, .action (.call (.getThisPage 0)), .action (.call (.unpinPage 0)),
          .restart 5 2 fun _ => ⟨false, 0, 0, fun _ => 0, 0⟩]).any (fun s =>
            (s.store 0).any (fun d => d 5 = 7) ∧ (getThisPage 0 s.handle).returned) = true := by
    decide +kernel
  obtain ⟨handle, ho⟩ : ∃ handle, openFile 3 FileRun.createdPool = some handle := by
    cases ho : openFile 3 FileRun.createdPool with
    | none => simp [ho] at h
    | some handle => exact ⟨handle, rfl⟩
  rw [ho, Option.bind_some] at h
  obtain ⟨s, hs, hp⟩ := exists_mTr_of_execGuarded h
  obtain ⟨hstore, hret⟩ := of_decide_eq_true hp
  obtain ⟨ph, t, ht⟩ := returned_iff.mp hret
  obtain ⟨hread, -, -⟩ :=
    run_persists (FileRun.created_new 1 _ rfl) (writable_new 1 _ _) ho hs
  refine ⟨handle, s, ho, hs, ph, t, ht, ?_⟩
  rw [hread 0 ph t ht] at hstore
  simpa using hstore

end FileSession

end AlphaDb.Io
