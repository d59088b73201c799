import AlphaDb.Io.HandleRuns
import AlphaDb.Table.TableHandle

/-! Runs of an open table among other clients of the buffer pool, against a book of its records. -/
namespace AlphaDb.Table

open AlphaDb.Io EStateM Trace BufferManager Cache FileHandle

/-- An open table. The book has the records that were inserted and not deleted since, by page and
slot; `held` counts the pins that other clients of the file have. -/
structure TableRun where
  handle : FileHandle
  book : ℤ → UInt16 → Option (List UInt8)
  held : ℤ → ℕ

/-- A client of another file. It marks dirty what it writes. -/
inductive OtherCall
  | getPage (page : ℤ)
  | allocatePage (page : ℤ) (data : Block 4096)
  | write (page : ℤ) (data : Block 4096)
  | unpinPage (page : ℤ)

/-- Calls of the table, of other clients of its file, and of clients of other files. -/
inductive TableCall
  | insert (data : List UInt8)
  | delete (id : Rid)
  | update (id : Rid) (data : List UInt8)
  | get (id : Rid)
  | pinPage (page : ℤ)
  | markDirty (page : ℤ)
  | unpinPage (page : ℤ)
  | other (fd : ℤ) (call : OtherCall)

def writeDirty (fd page : ℤ) (slot : ℕ) (data : Block 4096) : Op 4096 Unit := do
  modify fun s => s.setEntry slot { s.bufferPool slot with data := data }
  BufferManager.markDirty fd page

def OtherCall.perform (fd : ℤ) : OtherCall → Op 4096 Unit
  | .getPage page => do
    let _ ← BufferManager.getPage fd page true
    return ()
  | .allocatePage page data => do
    match ← BufferManager.allocatePage fd page with
    | none => throw .nullPointer
    | some slot => writeDirty fd page slot data
  | .write page data => do
    match (← get).hashTable.find fd page with
    | none => throw .pageNotInBuf
    | some slot => writeDirty fd page slot data
  | .unpinPage page => BufferManager.unpinPage fd page

/-- A page is allocated in an open file only. -/
def OtherCall.Possible (p : BufferManager 4096) (fd : ℤ) : OtherCall → Prop
  | .allocatePage page _ => (p.disk fd).isSome = true ∧ 0 ≤ page
  | .getPage _ | .write _ _ | .unpinPage _ => True

instance (p : BufferManager 4096) (fd : ℤ) (call : OtherCall) : Decidable (call.Possible p fd) :=
  match call with
  | .allocatePage page _ =>
    inferInstanceAs (Decidable ((p.disk fd).isSome = true ∧ 0 ≤ page))
  | .getPage _ => isTrue trivial
  | .write _ _ => isTrue trivial
  | .unpinPage _ => isTrue trivial

section Other

variable {P : ℤ → Prop} {s : FileHandle} {l : List ℤ} {fd page : ℤ} {slot : ℕ}
  {p q : BufferManager 4096} {data : Block 4096} {u : Unit} {e : Error} {call : OtherCall}

theorem writeDirty_cache (ho : Owned p) (hf : p.hashTable.find fd page = some slot)
    (hw : writeDirty fd page slot data p = .ok u q) :
    Owned q ∧ ∃ en, q.cache = p.cache.set (fd, page) en ∧ en.dirty = true := by
  obtain ⟨_, v, hm, hd⟩ := bind_ok_iff.mp hw
  obtain rfl := modify_ok_iff.mp hm
  have hov : Owned (p.setEntry slot { p.bufferPool slot with data := data }) :=
    owned_iff.mpr ((owned_iff.mp ho).setEntry rfl rfl)
  obtain ⟨en, -, hc⟩ := markDirty_cache hov hd
  refine ⟨markDirty_owned hov hd, { en with dirty := true }, ?_, rfl⟩
  rw [hc, cache_setEntry (owned_iff.mp ho).named hf, set_set]

theorem writeDirty_ne_error (hf : p.hashTable.find fd page = some slot) :
    writeDirty fd page slot data p ≠ .error e q := by
  intro hw
  obtain hm | ⟨_, v, hm, hd⟩ := bind_error_iff.mp hw
  · exact absurd hm modify_ne_error
  · obtain rfl := modify_ok_iff.mp hm
    have := markDirty_error hd
    exact absurd (hf.symm.trans this.2.2) (by simp)

/-- An entry of another file with another pin count is still on disk if it is clean. -/
theorem served_pins {en : BufferEntry 4096} {pin : ℤ} (h : Served P s l) (hfd : fd ≠ s.fd)
    (ho : Owned q) (hen : s.bufferManager.cache.entry (fd, page) = some en)
    (hq : q.cache = s.bufferManager.cache.set (fd, page) { en with pin := pin }) :
    Served P { s with bufferManager := q } l ∧ Spares s { s with bufferManager := q } := by
  obtain ⟨hfile, hplace⟩ := h.serves.writable _ _ hen
  refine h.other hfd ho (.keep _) hq hfile hplace ?_
  intro hd
  obtain ⟨b, hb, he⟩ := h.serves.coherent _ en hen hd fun hk => hfd hk.1
  exact (show b = en.data from he) ▸ hb

/-- No client of another file changes a page of this one. -/
theorem perform_ok (h : Served P s l) (hfd : fd ≠ s.fd)
    (hposs : call.Possible s.bufferManager fd)
    (hc : call.perform fd s.bufferManager = .ok u q) :
    Served P { s with bufferManager := q } l ∧ Spares s { s with bufferManager := q } := by
  have ho := h.serves.owned
  cases call with
  | getPage page =>
    obtain ⟨slot, v, hg, hv⟩ := bind_ok_iff.mp hc
    obtain ⟨-, rfl⟩ := pure_ok_iff.mp hv
    have hoq := getPage_owned ho hg
    obtain ⟨en, hen, hq, -⟩ | ⟨-, c, b, hev, hb, hq, -⟩ := getPage_cache (by decide) ho hg
    · exact served_pins h hfd hoq hen hq
    · obtain ⟨f, hf, hplace, -⟩ := page_eq_some.mp hb
      exact h.other hfd hoq hev hq (by simp [hf]) hplace fun _ => hb
  | allocatePage page data =>
    obtain ⟨r, v, ha, hw⟩ := bind_ok_iff.mp hc
    obtain ⟨rfl, -, -⟩ | ⟨-, c, b, slot, rfl, hev, hv, -⟩ := allocatePage_cache ho ha
    · exact absurd hw throw_ne_ok
    · obtain ⟨hoq, en, hq, hd⟩ := writeDirty_cache (allocatePage_owned ho ha)
        (allocatePage_find ha) hw
      rw [hv, set_set] at hq
      have hplace : 0 ≤ pageOffset 4096 page := by
        have := hposs.2
        unfold pageOffset
        omega
      exact h.other hfd hoq hev hq (hev.isSome_disk hposs.1) hplace
        fun hclean => absurd (hd.symm.trans hclean) (by decide)
  | write page data =>
    have hw := get_bind_ok_iff.mp hc
    cases hf : s.bufferManager.hashTable.find fd page with
    | none =>
      simp only [hf] at hw
      exact absurd hw throw_ne_ok
    | some slot =>
      simp only [hf] at hw
      obtain ⟨hoq, en, hq, hd⟩ := writeDirty_cache ho hf hw
      obtain ⟨hfile, hplace⟩ := h.serves.writable _ _ (entry_of_find hf)
      exact h.other hfd hoq (.keep _) hq hfile hplace
        fun hclean => absurd (hd.symm.trans hclean) (by decide)
  | unpinPage page =>
    obtain ⟨en, hen, -, hq⟩ := unpinPage_cache ho hc
    exact served_pins h hfd (unpinPage_owned ho hc) hen hq

theorem perform_error (h : Served P s l) (he : e.isIo = false)
    (hc : call.perform fd s.bufferManager = .error e q) : q = s.bufferManager := by
  cases call with
  | getPage page =>
    obtain hg | ⟨_, _, _, hv⟩ := bind_error_iff.mp hc
    · obtain hio | ⟨rfl, -⟩ := getPage_error hg
      · exact absurd (hio.symm.trans he) (by decide)
      · rfl
    · exact absurd hv pure_ne_error
  | allocatePage page data =>
    obtain ha | ⟨r, v, ha, hw⟩ := bind_error_iff.mp hc
    · exact (allocatePage_error ha).1
    · obtain ⟨rfl, rfl, -⟩ | ⟨-, _, _, slot, rfl, -⟩ := allocatePage_cache h.serves.owned ha
      · exact (throw_error_iff.mp hw).2.symm
      · exact absurd hw (writeDirty_ne_error (allocatePage_find ha))
  | write page data =>
    have hw := get_bind_error_iff.mp hc
    cases hf : s.bufferManager.hashTable.find fd page with
    | none =>
      simp only [hf] at hw
      exact (throw_error_iff.mp hw).2.symm
    | some slot =>
      simp only [hf] at hw
      exact absurd hw (writeDirty_ne_error hf)
  | unpinPage page => exact (unpinPage_error hc).1

end Other

namespace TableRun

/-- The book with another entry under a record id. -/
def enter (s : TableRun) (id : Rid) (a : Option (List UInt8)) : ℤ → UInt16 → Option (List UInt8) :=
  Function.update s.book id.page (Function.update (s.book id.page) (slotPtr id.slot) a)

variable (F : RecordFormat) (firstFree : ℤ)

/-- The book of a table that was just opened is what its pages hold. -/
def init (handle : FileHandle) (l : List ℤ) : TableRun where
  handle := handle
  book page slot :=
    if handle.IsValidPage page ∧ page ∉ l then
      (handle.contents page).bind fun b => F.get (pageData b) slot
    else none
  held _ := 0

/-- A record that no page has room for gets the slot -1 and is not stored. Running out of page
numbers is undefined. -/
def insert (s : TableRun) (data : List UInt8) : Option TableRun :=
  match insertRecord F firstFree data s.handle with
  | .ok id t =>
    some { s with handle := t, book := if id.slot = -1 then s.book else s.enter id (some data) }
  | .error e t => if e = .overflow then none else some { s with handle := t }

/-- The run after the call, and whether a record was deleted. -/
def delete (s : TableRun) (id : Rid) : TableRun × Bool :=
  match deleteRecord F id s.handle with
  | .ok found t => ({ s with handle := t, book := s.enter id none }, found)
  | .error _ t => ({ s with handle := t }, false)

/-- One call, whether it returns or throws. Other clients unpin only what they have pinned. -/
def step (s : TableRun) : TableCall → Option TableRun
  | .insert data => s.insert F firstFree data
  | .delete id => some (s.delete F id).1
  | .update id data =>
    let (t, found) := s.delete F id
    if found then t.insert F firstFree data else some t
  | .get id => some { s with handle := after (getRecord F id) s.handle }
  | .pinPage page =>
    match getThisPage page s.handle with
    | .ok _ t =>
      some { s with handle := t, held := Function.update s.held page (s.held page + 1) }
    | .error _ t => some { s with handle := t }
  | .markDirty page => some { s with handle := after (FileHandle.markDirty page) s.handle }
  | .unpinPage page =>
    if s.held page = 0 then none
    else
      match FileHandle.unpinPage page s.handle with
      | .ok _ t =>
        some { s with handle := t, held := Function.update s.held page (s.held page - 1) }
      | .error _ t => some { s with handle := t }
  | .other fd call =>
    if fd ≠ s.handle.fd ∧ call.Possible s.handle.bufferManager fd then
      outcome (call.perform fd s.handle.bufferManager)
        (fun _ q => { s with handle := { s.handle with bufferManager := q } })
        fun q => { s with handle := { s.handle with bufferManager := q } }
    else none

/-- The page has a pin that no other client will give back. -/
def Stays (s : TableRun) (page : ℤ) : Prop := (s.held page : ℤ) < s.handle.pins page

instance (s : TableRun) (page : ℤ) : Decidable (s.Stays page) := inferInstanceAs (Decidable (_ < _))

/-- A record is deleted only from a page that is dirty already, or stays in the pool. -/
def Saves (s : TableRun) : TableCall → Prop
  | .delete id | .update id _ =>
    s.book id.page (slotPtr id.slot) = none ∨ s.handle.dirtyAt id.page = true ∨ s.Stays id.page
  | .insert _ | .get _ | .pinPage _ | .markDirty _ | .unpinPage _ | .other _ _ => True

instance (s : TableRun) (call : TableCall) : Decidable (s.Saves call) :=
  match call with
  | .delete id => inferInstanceAs (Decidable (s.book id.page (slotPtr id.slot) = none ∨
      s.handle.dirtyAt id.page = true ∨ s.Stays id.page))
  | .update id _ => inferInstanceAs (Decidable (s.book id.page (slotPtr id.slot) = none ∨
      s.handle.dirtyAt id.page = true ∨ s.Stays id.page))
  | .insert _ => isTrue trivial
  | .get _ => isTrue trivial
  | .pinPage _ => isTrue trivial
  | .markDirty _ => isTrue trivial
  | .unpinPage _ => isTrue trivial
  | .other _ _ => isTrue trivial

variable {F : RecordFormat} {firstFree : ℤ} {s s' : TableRun} {l l' : List ℤ} {t : FileHandle}
  {page : ℤ} {id : Rid}

/-- The pages of the table hold what the book says, and a page with changes that would not be
written back stays in the pool. -/
structure Accurate (F : RecordFormat) (s : TableRun) (l : List ℤ) : Prop where
  served : Served s.Stays s.handle l
  held : ∀ p, (s.held p : ℤ) ≤ s.handle.pins p
  records : ∀ p, InUse s.handle l p →
    ∃ b, s.handle.contents p = some b ∧ F.get (pageData b) = s.book p
  unused : ∀ p, ¬ InUse s.handle l p → s.book p = fun _ => none

theorem accurate_init {handle : FileHandle} (h : Served (fun _ => False) handle l) :
    Accurate F (init F handle l) l := by
  refine ⟨?_, h.pins_nonneg, ?_, ?_⟩
  · refine h.mono (fun _ hp => hp.elim) ?_
    intro p hp
    exact (Int.natCast_nonneg 0).trans_lt hp
  · intro p hp
    obtain ⟨v, hv, -⟩ := h.listed.used p hp.1
    obtain ⟨b, hb, -⟩ := stored_eq_some.mp hv
    refine ⟨b, hb, ?_⟩
    have hp' : handle.IsValidPage p ∧ p ∉ l := hp
    funext slot
    simp only [init]
    rw [if_pos hp', hb, Option.bind_some]
  · intro p hp
    have hp' : ¬ (handle.IsValidPage p ∧ p ∉ l) := hp
    funext slot
    simp only [init]
    rw [if_neg hp']

theorem Stays.pos {held : ℤ → ℕ} {book : ℤ → UInt16 → Option (List UInt8)}
    (h : Stays ⟨t, book, held⟩ page) : 0 < t.pins page :=
  (Int.natCast_nonneg _).trans_lt h

/-- Pages that stay keep staying while pins only grow. -/
theorem stays_mono {held : ℤ → ℕ} {book : ℤ → UInt16 → Option (List UInt8)}
    (hheld : ∀ p, (held p : ℤ) - s.held p ≤ t.pins p - s.handle.pins p) (h : s.Stays page) :
    Stays ⟨t, book, held⟩ page := by
  have := hheld page
  unfold Stays at h ⊢
  dsimp only
  omega

theorem Accurate.grow (hF : F.Lawful) (h : Accurate F s l) (ht : Served s.Stays t l')
    (hg : Grows s.handle l t l') : Accurate F { s with handle := t } l' := by
  refine ⟨?_, fun p => (h.held p).trans (hg.pins p), ?_, ?_⟩
  · refine ht.mono (fun p hp => stays_mono (fun p => ?_) hp) fun p hp => Stays.pos hp
    have := hg.pins p
    omega
  · intro p hp
    by_cases hold : InUse s.handle l p
    · obtain ⟨b, hb, hget⟩ := h.records p hold
      exact ⟨b, (hg.kept p hold).2 b hb, hget⟩
    · have hnew := (hg.fresh p hp).resolve_left hold
      refine ⟨_, hnew, ?_⟩
      rw [pageData_new, hF.get_clear]
      exact (h.unused p hold).symm
  · intro p hp
    exact h.unused p fun hold => hp (hg.kept p hold).1

/-- The records of one page change, and the book follows. -/
theorem Accurate.change {P : ℤ → Prop} {b : Block 4096} {book : ℤ → UInt16 → Option (List UInt8)}
    (h : Accurate F s l) (hp : InUse s.handle l page) (ht : Served P t l)
    (hP : ∀ p, P p → (s.held p : ℤ) < t.pins p)
    (hheader : t.header = s.handle.header)
    (hb : t.contents page = some b)
    (hother : ∀ p, s.handle.pins p ≤ t.pins p ∧
      ∀ b, p ≠ page → s.handle.contents p = some b → t.contents p = some b)
    (hself : book page = F.get (pageData b)) (hbook : ∀ p, p ≠ page → book p = s.book p) :
    Accurate F { s with handle := t, book := book } l := by
  have huse : ∀ p, InUse t l p ↔ InUse s.handle l p := inUse_iff hheader
  refine ⟨?_, fun p => (h.held p).trans (hother p).1, ?_, ?_⟩
  · exact ht.mono hP fun p hp => Stays.pos hp
  · intro p hp'
    by_cases he : p = page
    · subst he
      exact ⟨b, hb, hself.symm⟩
    · obtain ⟨b', hb', hget⟩ := h.records p ((huse p).mp hp')
      exact ⟨b', (hother p).2 b' he hb', hget.trans (hbook p he).symm⟩
  · intro p hp'
    have hne : p ≠ page := by
      rintro rfl
      exact hp' ((huse p).mpr hp)
    exact (hbook p hne).trans (h.unused p fun hold => hp' ((huse p).mpr hold))

theorem Accurate.insert {data : List UInt8} (hF : F.Lawful) (h : Accurate F s l)
    (hs : s.insert F firstFree data = some s') : ∃ l', Accurate F s' l' := by
  unfold TableRun.insert at hs
  split at hs
  · next id t hi =>
    obtain rfl := Option.some.inj hs
    obtain ⟨v, l', b, ho, hb, hslot, hcont, hserved, -, hheader, hother⟩ :=
      insertRecord_ok h.served hi
    have hv := h.grow hF ho.served ho.grows
    have hget : s.book id.page = F.get (pageData b) := by
      obtain ⟨b', hb', hget⟩ := hv.records id.page ho.inUse
      rw [← Option.some.inj (hb.symm.trans hb')] at hget
      exact hget.symm
    refine ⟨l', hv.change ho.inUse hserved ?_ hheader hcont hother ?_ ?_⟩
    · rintro p (hp | rfl)
      · have := ho.grows.pins p
        exact lt_of_lt_of_le hp (this.trans (hother p).1)
      · have := h.held id.page
        have := ho.pinned
        have := (hother id.page).1
        dsimp only
        omega
    · rw [pageData_setPageData]
      split
      · next hno => rw [hget, hF.get_refused _ _ (hslot.symm.trans hno)]
      · next hyes =>
        rw [hslot] at hyes
        rw [hF.get_put _ _ hyes, enter, Function.update_self, hget, hslot]
    · intro p hne
      split
      · rfl
      · exact Function.update_of_ne hne _ _
  · next e t hi =>
    split at hs
    · cases hs
    · next hover =>
      obtain rfl := Option.some.inj hs
      obtain hx | ⟨hserved, hspares⟩ := insertRecord_error h.served hi
      · exact absurd hx hover
      · exact ⟨l, h.grow hF hserved (grows_of_spares hspares)⟩

/-- A deletion finds the record that the book has. -/
theorem Accurate.delete (hF : F.Lawful) (h : Accurate F s l)
    (hsave : s.book id.page (slotPtr id.slot) = none ∨ s.handle.dirtyAt id.page = true ∨
      s.Stays id.page) : Accurate F (s.delete F id).1 l := by
  unfold TableRun.delete
  split
  · next found t hd =>
    have hget : ∀ b, InUse s.handle l id.page → s.handle.contents id.page = some b →
        F.get (pageData b) = s.book id.page := by
      intro b hp hb
      obtain ⟨b', hb', hget⟩ := h.records id.page hp
      exact Option.some.inj (hb.symm.trans hb') ▸ hget
    obtain ⟨b, hp, hb, -, hcont, hserved, -, hheader, hother⟩ :=
      withPage_ok h.served hd (by
        intro b hp hb
        rcases hsave with hnone | hkeep
        · left
          rw [← hget b hp hb] at hnone
          exact hF.remove_missing _ _ hnone
        · exact Or.inr hkeep)
    refine h.change hp hserved ?_ hheader hcont hother ?_ ?_
    · intro p hp'
      exact lt_of_lt_of_le hp' (hother p).1
    · rw [pageData_setPageData, hF.get_remove, enter, Function.update_self, hget b hp hb]
    · intro p hne
      exact Function.update_of_ne hne _ _
  · next e t hd =>
    obtain ⟨hserved, hspares⟩ := withPage_error h.served hd
    exact h.grow hF hserved (grows_of_spares hspares)

theorem Accurate.spares (hF : F.Lawful) (h : Accurate F s l)
    (ht : Served s.Stays t l ∧ Spares s.handle t) : Accurate F { s with handle := t } l :=
  h.grow hF ht.1 (grows_of_spares ht.2)

/-- Other clients of the file take and give back pins. -/
theorem Accurate.repin {held : ℤ → ℕ} (h : Accurate F s l) (ht : Served s.Stays t l)
    (hheader : t.header = s.handle.header)
    (hcont : ∀ p b, s.handle.contents p = some b → t.contents p = some b)
    (hpins : ∀ p, (held p : ℤ) - s.held p ≤ t.pins p - s.handle.pins p) :
    Accurate F { s with handle := t, held := held } l := by
  have huse : ∀ p, InUse t l p ↔ InUse s.handle l p := inUse_iff hheader
  refine ⟨?_, ?_, ?_, fun p hp => h.unused p fun hp' => hp ((huse p).mpr hp')⟩
  · exact ht.mono (fun p hp => stays_mono hpins hp) fun p hp => Stays.pos hp
  · intro p
    have := hpins p
    have := h.held p
    dsimp only
    omega
  · intro p hp
    obtain ⟨b, hb, hget⟩ := h.records p ((huse p).mp hp)
    exact ⟨b, hcont p b hb, hget⟩

theorem Accurate.pinPage (hF : F.Lawful) (h : Accurate F s l)
    (hs : step F firstFree s (.pinPage page) = some s') : Accurate F s' l := by
  simp only [step] at hs
  split at hs
  · next ph t hg =>
    obtain rfl := Option.some.inj hs
    obtain ⟨hserved, hspares, hpin⟩ := h.served.getThisPage hg
    refine h.repin hserved hspares.header hspares.contents ?_
    intro p
    by_cases he : p = page
    · subst he
      rw [Function.update_self]
      push_cast
      omega
    · rw [Function.update_of_ne he]
      have := hspares.pins p
      omega
  · next e t hg =>
    obtain rfl := Option.some.inj hs
    exact h.spares hF (getThisPage_error h.served hg)

theorem Accurate.unpinPage (h : Accurate F s l)
    (hs : step F firstFree s (.unpinPage page) = some s') : Accurate F s' l := by
  simp only [step] at hs
  split at hs
  · cases hs
  next hheld =>
  split at hs
  · next u t hu =>
    obtain rfl := Option.some.inj hs
    have hkeep : s.Stays page → 1 < s.handle.pins page := by
      intro hstay
      have := Nat.pos_of_ne_zero hheld
      unfold Stays at hstay
      omega
    obtain ⟨hserved, -, hheader, hcont, hpin, hother⟩ := h.served.unpinPage hu hkeep
    refine h.repin hserved hheader hcont ?_
    intro p
    by_cases he : p = page
    · subst he
      rw [Function.update_self]
      omega
    · rw [Function.update_of_ne he]
      have := hother p he
      omega
  · next e t hu =>
    obtain rfl := Option.some.inj hs
    rw [unpinPage_unchanged h.served.listed.isOpen hu]
    exact h

/-- Every call keeps the book accurate, a deletion under its condition. -/
theorem accurate_step (hF : F.Lawful) :
    TrInv (Guarded Saves (step F firstFree)) fun s => ∃ l, Accurate F s l := by
  rintro s call s' ⟨hsave, hs⟩ ⟨l, h⟩
  cases call with
  | insert data => exact h.insert hF hs
  | delete id =>
    obtain rfl := Option.some.inj hs
    exact ⟨l, h.delete hF hsave⟩
  | update id data =>
    have hd := h.delete hF hsave
    simp only [step] at hs
    split at hs
    · exact hd.insert hF hs
    · obtain rfl := Option.some.inj hs
      exact ⟨l, hd⟩
  | get id =>
    obtain rfl := Option.some.inj hs
    exact ⟨l, h.spares hF (getRecord_spares F id h.served)⟩
  | pinPage page => exact ⟨l, h.pinPage hF hs⟩
  | markDirty page =>
    obtain rfl := Option.some.inj hs
    refine ⟨l, h.spares hF ?_⟩
    cases hm : FileHandle.markDirty page s.handle with
    | ok u t => simpa only [after, hm] using h.served.markDirty hm
    | error e t =>
      simp only [after, hm]
      rw [markDirty_unchanged h.served.listed.isOpen hm]
      exact ⟨h.served, spares_refl _⟩
  | unpinPage page => exact ⟨l, h.unpinPage hs⟩
  | other fd call =>
    simp only [step] at hs
    split at hs
    · next hc =>
      obtain ⟨u, q, hp, rfl⟩ | ⟨e, q, hp, he, rfl⟩ := outcome_eq_some hs
      · exact ⟨l, h.spares hF (perform_ok h.served hc.1 hc.2 hp)⟩
      · rw [perform_error h.served he hp]
        exact ⟨l, h⟩
    · cases hs

/-- `update_record` is a deletion and, if it found the record, an insertion. -/
theorem step_update_handle {data : List UInt8}
    (hs : step F firstFree s (.update id data) = some s') :
    s'.handle = after (updateRecord F firstFree id data) s.handle := by
  simp only [step, TableRun.delete] at hs
  cases hd : deleteRecord F id s.handle with
  | error e t =>
    simp only [hd, Bool.false_eq_true, if_false] at hs
    obtain rfl := Option.some.inj hs
    rw [updateRecord, after_bind_error hd]
  | ok found t =>
    rw [updateRecord, after_bind_ok hd]
    cases found with
    | false =>
      simp only [hd, Bool.false_eq_true, if_false] at hs
      obtain rfl := Option.some.inj hs
      rfl
    | true =>
      simp only [hd, if_true, TableRun.insert] at hs ⊢
      cases hi : insertRecord F firstFree data t with
      | ok id' v =>
        simp only [hi] at hs
        obtain rfl := Option.some.inj hs
        rw [after_bind_ok hi]
        rfl
      | error e v =>
        simp only [hi] at hs
        rw [after_bind_error hi]
        split at hs
        · cases hs
        · obtain rfl := Option.some.inj hs
          rfl

theorem Accurate.getRecord {a : Option (List UInt8)} (h : Accurate F s l)
    (hg : getRecord F id s.handle = .ok a t) : a = s.book id.page (slotPtr id.slot) := by
  obtain ⟨b, hp, hb, rfl, -⟩ := getRecord_ok h.served hg
  obtain ⟨b', hb', hget⟩ := h.records id.page hp
  rw [← hget, Option.some.inj (hb.symm.trans hb')]

theorem Accurate.getRecord_returns {data : List UInt8} (h : Accurate F s l)
    (ha : s.book id.page (slotPtr id.slot) = some data)
    (hroom : CanHold s.handle.bufferManager s.handle.fd id.page) :
    ∃ t, Table.getRecord F id s.handle = .ok (some data) t := by
  have hp : InUse s.handle l id.page := by
    by_contra hno
    rw [h.unused id.page hno] at ha
    cases ha
  obtain ⟨a, t, hg⟩ := withPage_returns (f := fun d => (d, F.get d (slotPtr id.slot)))
    h.served hp hroom
  have := h.getRecord hg
  rw [ha] at this
  exact ⟨t, this ▸ hg⟩

/-- Records over whole runs of an open table with other clients of the pool, when records are
deleted only from pages that are dirty or stay in the pool: a call of `getRecord` that returns gives
the record that was inserted under the id and not deleted since, and for such a record it returns
whenever the pool can hold the page. -/
theorem run_keeps_records {handle : FileHandle} {calls : List TableCall} (hF : F.Lawful)
    (h₀ : Served (fun _ => False) handle l)
    (h : MTr (Guarded Saves (step F firstFree)) (init F handle l) calls s) :
    (∀ id a t, getRecord F id s.handle = .ok a t → a = s.book id.page (slotPtr id.slot)) ∧
    ∀ id data, s.book id.page (slotPtr id.slot) = some data →
      CanHold s.handle.bufferManager s.handle.fd id.page →
      ∃ t, getRecord F id s.handle = .ok (some data) t := by
  obtain ⟨l', ha⟩ := mTr_trInv (accurate_step hF) h ⟨l, accurate_init h₀⟩
  exact ⟨fun id a t hg => ha.getRecord hg,
    fun id data hid hroom => ha.getRecord_returns hid hroom⟩

end TableRun

/-- Pages with room for one record of one byte, in slot 0; byte 4 counts the records. -/
def oneRecord : RecordFormat where
  nextFree d := d.getInt32 0
  space d := if d 4 = 0 then 2 else 0
  get d slot := if slot = 0 ∧ d 4 ≠ 0 then some [d 5] else none
  put d data :=
    match data with
    | [x] => if d 4 = 0 then (Function.update (Function.update d 4 1) 5 x, 0) else (d, -1)
    | _ => (d, -1)
  remove d slot := if slot = 0 ∧ d 4 ≠ 0 then (Function.update d 4 0, true) else (d, false)

theorem lawful_oneRecord : oneRecord.Lawful := by
  refine ⟨?_, ?_, ?_, ?_, ?_, ?_⟩
  · funext slot
    simp [oneRecord]
  · intro d data hput
    rcases data with _ | ⟨x, _ | ⟨y, rest⟩⟩
    · exact absurd rfl hput
    · by_cases hd : d 4 = 0
      · have hzero : slotPtr 0 = 0 := by decide
        funext slot
        by_cases hslot : slot = 0 <;> simp [oneRecord, hd, hzero, hslot]
      · simp [oneRecord, hd] at hput
    · exact absurd rfl hput
  · intro d data hput
    rcases data with _ | ⟨x, _ | ⟨y, rest⟩⟩
    · rfl
    · by_cases hd : d 4 = 0
      · simp [oneRecord, hd] at hput
      · simp [oneRecord, hd]
    · rfl
  · intro d i
    funext slot
    by_cases hd : d 4 = 0
    · by_cases hi : i = slot <;> simp [oneRecord, hd, Function.update_apply]
    · by_cases hi : i = 0
      · subst hi
        by_cases hslot : slot = 0 <;> simp [oneRecord, hd, hslot]
      · by_cases hslot : slot = i
        · subst hslot
          simp [oneRecord, hi]
        · simp [oneRecord, hi, hslot]
  · intro d i
    by_cases hd : i = 0 ∧ d 4 ≠ 0 <;> simp [oneRecord, hd]
  · intro d i hnone
    by_cases hd : i = 0 ∧ d 4 ≠ 0
    · simp [oneRecord, hd] at hnone
    · simp [oneRecord, hd]

/-- A table file of two pages, with the records 5 and 6 on them. -/
def twoRecords : ByteFile where
  size := 3 * 4096
  byte i :=
    (List.lookup i
      [(0, 255), (1, 255), (2, 255), (3, 255), (4, 2),
        (4096, 254), (4097, 255), (4098, 255), (4099, 255), (4104, 1), (4105, 5),
        (8192, 254), (8193, 255), (8194, 255), (8195, 255), (8200, 1), (8201, 6)]).getD 0

/-- The file behind a pool of one buffer. -/
def twoRecordsPool : BufferManager 4096 :=
  new 1 (fun _ => ⟨false, 0, 0, fun _ => 0, 0⟩) fun _ => some twoRecords

def twoRecordsHandle : FileHandle := ⟨3, ⟨-1, 2⟩, true, false, twoRecordsPool⟩

/-- A file of two pages in use, behind a pool of one buffer. -/
theorem served_twoPages {f : ByteFile} {p : BufferManager 4096} {s : FileHandle}
    (hpool : p = new 1 (fun _ => ⟨false, 0, 0, fun _ => 0, 0⟩) fun _ => some f)
    (hs : s = ⟨3, ⟨-1, 2⟩, true, false, p⟩) (hsize : f.available 0 8 = 8)
    (hfirst : (f.readInto 0 (fun _ => 0 : Block 8)).getInt32 0 = -1)
    (hcount : (f.readInto 0 (fun _ => 0 : Block 8)).getInt32 4 = 2)
    (hlinks : s.stored 0 = some (-2) ∧ s.stored 1 = some (-2)) :
    openFile 3 p = some s ∧ Served (fun _ => False) s [] := by
  subst hpool hs
  have hopen : openFile 3 (new 1 (fun _ => ⟨false, 0, 0, fun _ => 0, 0⟩) fun _ => some f) =
      some ⟨3, ⟨-1, 2⟩, true, false,
        new 1 (fun _ => ⟨false, 0, 0, fun _ => 0, 0⟩) fun _ => some f⟩ := by
    simp only [openFile, new, hsize, if_true, hfirst, hcount]
  have hempty : ∀ k, (new 1 (fun _ => ⟨false, 0, 0, fun _ => 0, 0⟩) fun _ => some f :
      BufferManager 4096).cache.entry k = none := by
    intro k
    simp [new, cache]
  refine ⟨hopen, served_opened (owned_new 1 _ _) ?_ ?_ hopen ?_⟩
  · exact fun k en hk => absurd ((hempty k).symm.trans hk) (by simp)
  · exact fun k en hk => absurd ((hempty k).symm.trans hk) (by simp)
  have hpages : (0 : ℤ) ≤ 2 ∧ (2 : ℤ) < 2 ^ 31 := by decide
  refine ⟨rfl, ⟨owned_new 1 _ _, ?_, ?_⟩, hpages, rfl, List.nodup_nil, by simp, ?_⟩
  · exact fun k en hk => absurd ((hempty k).symm.trans hk) (by simp)
  · exact fun page en hk => absurd ((hempty (3, page)).symm.trans hk) (by simp)
  · intro page hp
    obtain rfl | rfl : page = 0 ∨ page = 1 := by
      have h0 : 0 ≤ page := hp.1
      have h1 : page < 2 := hp.2
      omega
    · exact ⟨-2, hlinks.1, by decide⟩
    · exact ⟨-2, hlinks.2, by decide⟩

theorem served_twoRecords : openFile 3 twoRecordsPool = some twoRecordsHandle ∧
    Served (fun _ => False) twoRecordsHandle [] :=
  served_twoPages rfl rfl (by decide +kernel) (by decide +kernel) (by decide +kernel)
    (by decide +kernel)

namespace TableRun

/-- A record is deleted from a page that another client has marked dirty, the page is evicted and
read again, and another record is put there. -/
theorem run_keeps_records_one_buffer : oneRecord.Lawful ∧ ∃ s,
    MTr (Guarded Saves (step oneRecord 1)) (init oneRecord twoRecordsHandle [])
      [.pinPage 1, .markDirty 1, .delete ⟨1, 0⟩, .unpinPage 1, .get ⟨0, 0⟩, .insert [9]] s ∧
    ∃ t, getRecord oneRecord ⟨1, 0⟩ s.handle = .ok (some [9]) t := by
  have h : (execGuarded Saves (step oneRecord 1) (init oneRecord twoRecordsHandle [])
      [.pinPage 1, .markDirty 1, .delete ⟨1, 0⟩, .unpinPage 1, .get ⟨0, 0⟩,
        .insert [9]]).any (fun s => s.book 1 (slotPtr 0) = some [9] ∧
          CanHold s.handle.bufferManager s.handle.fd 1) = true := by
    decide +kernel
  obtain ⟨s, hs, hp⟩ := exists_mTr_of_execGuarded h
  obtain ⟨hbook, hroom⟩ := of_decide_eq_true hp
  obtain ⟨-, hreturns⟩ := run_keeps_records lawful_oneRecord served_twoRecords.2 hs
  exact ⟨lawful_oneRecord, s, hs, hreturns ⟨1, 0⟩ [9] hbook hroom⟩

/-- A record is deleted from a page that is clean, and after the page was evicted it is back. A
page that was inserted into stays in the pool, and then another record cannot be read. -/
theorem deleted_record_returns : oneRecord.Lawful ∧
    Served (fun _ => False) twoRecordsHandle [] ∧
    (∃ s, MTr (fun s call s' => step oneRecord 1 s call = some s')
        (init oneRecord twoRecordsHandle []) [.delete ⟨1, 0⟩, .get ⟨0, 0⟩] s ∧
      s.book 1 (slotPtr 0) = none ∧
      ∃ t, getRecord oneRecord ⟨1, 0⟩ s.handle = .ok (some [6]) t) ∧
    ∃ s, MTr (fun s call s' => step oneRecord 1 s call = some s')
        (init oneRecord twoRecordsHandle []) [.insert [9]] s ∧
      s.book 0 (slotPtr 0) = some [5] ∧
      ∃ t, getRecord oneRecord ⟨0, 0⟩ s.handle = .error .noBuf t := by
  have h : (exec (step oneRecord 1) (init oneRecord twoRecordsHandle [])
      [.delete ⟨1, 0⟩, .get ⟨0, 0⟩]).any (fun s => s.book 1 (slotPtr 0) = none ∧
        (getRecord oneRecord ⟨1, 0⟩ s.handle).value = some (some [6])) = true := by
    decide +kernel
  have h' : (exec (step oneRecord 1) (init oneRecord twoRecordsHandle [])
      [.insert [9]]).any (fun s => s.book 0 (slotPtr 0) = some [5] ∧
        (getRecord oneRecord ⟨0, 0⟩ s.handle).thrown = some .noBuf) = true := by
    decide +kernel
  obtain ⟨s, hs, hp⟩ := exists_mTr_of_exec h
  obtain ⟨hbook, hvalue⟩ := of_decide_eq_true hp
  obtain ⟨s', hs', hp'⟩ := exists_mTr_of_exec h'
  obtain ⟨hbook', hthrown⟩ := of_decide_eq_true hp'
  exact ⟨lawful_oneRecord, served_twoRecords.2, ⟨s, hs, hbook, value_eq_some_iff.mp hvalue⟩,
    s', hs', hbook', thrown_eq_some_iff.mp hthrown⟩

end TableRun

end AlphaDb.Table
