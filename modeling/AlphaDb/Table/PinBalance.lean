import AlphaDb.Io.PinCount
import AlphaDb.Table.TableRuns

/-! The pins that the calls of a table leave behind (`table/table_handle`). -/
namespace AlphaDb.Table

open AlphaDb.Io EStateM BufferManager Cache FileHandle

/-- The calls that work on records. -/
inductive RecordCall
  | get (id : Rid)
  | insert (data : List UInt8)
  | delete (id : Rid)
  | update (id : Rid) (data : List UInt8)

def RecordCall.perform (F : RecordFormat) (firstFree : ℤ) : RecordCall → FileOp Unit
  | .get id => do
    let _ ← getRecord F id
    return ()
  | .insert data => do
    let _ ← insertRecord F firstFree data
    return ()
  | .delete id => do
    let _ ← deleteRecord F id
    return ()
  | .update id data => do
    let _ ← updateRecord F firstFree id data
    return ()

/-- Whether the call returns or throws, every page of the file has the pins it had. -/
def KeepsPins (F : RecordFormat) (firstFree : ℤ) (c : RecordCall) (s : FileHandle) : Prop :=
  ∀ page, (after (c.perform F firstFree) s).bufferManager.cache.pins (s.fd, page) =
    s.bufferManager.cache.pins (s.fd, page)

/-- An insertion gets the first page that it asks for: the head of the chain, or where there is
none a page to allocate. -/
def ObtainsPage (firstFree : ℤ) (s : FileHandle) : Prop :=
  if 0 < firstFree then ∃ ph t, getThisPage firstFree s = .ok ph t else HasBuffer s

/-- An insertion that gets a page, or an update whose deletion finds the record and whose insertion
gets a page. -/
def LeavesPin (F : RecordFormat) (firstFree : ℤ) (s : FileHandle) : RecordCall → Prop
  | .get _ => False
  | .insert _ => ObtainsPage firstFree s
  | .delete _ => False
  | .update id _ => ∃ t, deleteRecord F id s = .ok true t ∧ ObtainsPage firstFree t

variable {F : RecordFormat} {s t : FileHandle} {page firstFree need e : ℤ} {seeks : ℕ}
  {c : RecordCall} {k : PageId} {a : List UInt8} {id : Rid}

section WithPage

variable {α : Type} {f : Block 4092 → Block 4092 × α} {r : α}

/-- A page that is fetched, used and unpinned: no pin stays. -/
theorem withPage_adds (page : ℤ) (h : Pooled s) :
    (∃ x t, withPage page f s = .error x t ∧
      ∀ k, t.bufferManager.cache.pins k = s.bufferManager.cache.pins k) ∨
    ∃ r t, withPage page f s = .ok r t ∧ Adds s t 0 := by
  cases hg : getThisPage page s with
  | error x t =>
    exact Or.inl ⟨x, t, withPage_of_error hg, fun k => getThisPage_error_pins h hg⟩
  | ok ph v =>
    obtain ⟨hpage, hvalid, hheader, hfind, hadds⟩ := getThisPage_adds h hg
    obtain ⟨p, slot⟩ := ph
    obtain rfl : p = page := hpage
    let d := f (pageData (v.data slot))
    let w := v.setData slot (setPageData (v.data slot) d.1)
    rw [← hadds.fd] at hfind
    have hpins : ∀ k, w.bufferManager.cache.pins k = v.bufferManager.cache.pins k := fun k =>
      write_pins hadds.owned hfind
    have hw : Adds s w (onePin s.fd p) :=
      ⟨hadds.isOpen, hadds.fd, owned_iff.mpr ((owned_iff.mp hadds.owned).setEntry rfl rfl),
        fun k => (hpins k).trans (hadds.pins k)⟩
    have hpooled : Pooled w := hw.pooled h (onePin_nonneg _ _)
    have hpos : 0 < w.pins p := by
      have hnonneg := h.pins_nonneg p
      have hone := hw.pins (s.fd, p)
      rw [onePin, if_pos rfl] at hone
      rw [FileHandle.pins, hw.fd, hone]
      exact Int.lt_add_one_of_le hnonneg
    have hvalid' : w.IsValidPage p := by
      have : w.header = s.header := hheader
      rwa [IsValidPage, this]
    obtain ⟨t, hu, -, hback⟩ := unpinPage_adds hpooled hvalid' hfind hpos
    right
    refine ⟨d.2, t, ?_, ?_⟩
    · rw [withPage, bind_of_ok hg, bind_of_ok (get_ok_iff.mpr ⟨rfl, rfl⟩),
        bind_of_ok ((set_ok_iff (v := ⟨⟩)).mpr rfl), bind_of_ok hu]
      rfl
    · refine ⟨hback.isOpen.trans hw.isOpen, hback.fd.trans hw.fd, hback.owned, fun k => ?_⟩
      rw [(hw.trans hback).pins k, hw.fd]
      simp

theorem withPage_pins (page : ℤ) (h : Pooled s) (k : PageId) :
    (after (withPage page f) s).bufferManager.cache.pins k = s.bufferManager.cache.pins k := by
  obtain ⟨x, t, hw, hpins⟩ | ⟨r, t, hw, hadds⟩ := withPage_adds (f := f) page h
  · simp only [after, hw, hpins k]
  · simp only [after, hw, hadds.pins k, Pi.zero_apply, add_zero]

end WithPage

section Insert

/-- The pins of a page, after a call that may have thrown. -/
theorem after_bind_pins_le {α β : Type} {x : FileOp α} {f : α → FileOp β}
    (hf : ∀ a t, x s = .ok a t →
      t.bufferManager.cache.pins k ≤ (after (f a) t).bufferManager.cache.pins k) :
    (after x s).bufferManager.cache.pins k ≤ (after (x >>= f) s).bufferManager.cache.pins k := by
  refine after_bind (R := fun u : FileHandle => (after x s).bufferManager.cache.pins k ≤
    u.bufferManager.cache.pins k) (fun e t hx => ?_) (fun a t hx => ?_)
  · simp only [after, hx, le_refl]
  · simpa only [after, hx] using hf a t hx

theorem after_return {α β : Type} (x : FileOp α) (b : β) :
    after (do let _ ← x; return b : FileOp β) s = after x s := by
  cases hx : x s with
  | ok a t =>
    rw [after_bind_ok hx]
    simp only [after, hx]
    rfl
  | error e t =>
    rw [after_bind_error hx]
    simp only [after, hx]

/-- One more page of the chain is pinned. -/
theorem getThisPage_pooled {ph : PageHandle} (h : Pooled s) (hg : getThisPage page s = .ok ph t) :
    Pooled t ∧ ∀ k, t.bufferManager.cache.pins k =
      s.bufferManager.cache.pins k + onePin s.fd page k := by
  obtain ⟨-, -, -, -, hadds⟩ := getThisPage_adds h hg
  exact ⟨hadds.pooled h (onePin_nonneg _ _), hadds.pins⟩

theorem newPage_pins_le (h : Pooled s) (k : PageId) : s.bufferManager.cache.pins k ≤
    (after (do let ph ← allocatePage; return ph.page : FileOp ℤ) s).bufferManager.cache.pins k :=
  (allocatePage_pins_le h k).trans (after_bind_pins_le fun _ _ _ => le_rfl)

theorem newPage_pooled (h : Pooled s)
    (ha : (do let ph ← allocatePage; return ph.page : FileOp ℤ) s = .ok page t) : Pooled t := by
  obtain ⟨ph, v, hp, hv⟩ := bind_ok_iff.mp ha
  obtain ⟨-, rfl⟩ := pure_ok_iff.mp hv
  exact allocatePage_pooled h hp

/-- The loop along the chain gives no pin back, however long it runs and however it ends. -/
theorem seekFree_pins_le (h : Pooled s) (k : PageId) : s.bufferManager.cache.pins k ≤
    (after (seekFree F need seeks e) s).bufferManager.cache.pins k := by
  induction seeks generalizing s e with
  | zero => exact newPage_pins_le h k
  | succ seeks ih =>
    by_cases he : 0 < e
    · simp only [after, seekFree_pos F need seeks he]
      refine le_trans ?_ (after_bind_pins_le ?_)
      · cases hg : getThisPage e s with
        | error x t => simp only [after, hg, getThisPage_error_pins h hg, le_refl]
        | ok ph t =>
          have hpins := (getThisPage_pooled h hg).2 k
          have hone := onePin_nonneg s.fd e k
          simp only [after, hg, hpins]
          omega
      · intro ph t hg
        rw [after_bind_ok (rfl : (get : FileOp FileHandle) t = .ok t t)]
        split
        · exact le_rfl
        · exact ih (getThisPage_pooled h hg).1
    · rw [seekFree, if_neg he]
      exact newPage_pins_le h k

theorem seekFree_pooled (h : Pooled s) (hs : seekFree F need seeks e s = .ok page t) :
    Pooled t := by
  induction seeks generalizing s e with
  | zero => exact newPage_pooled h hs
  | succ seeks ih =>
    by_cases he : 0 < e
    · rw [seekFree_pos F need seeks he] at hs
      obtain ⟨ph, v, hg, hs⟩ := bind_ok_iff.mp hs
      replace hs := get_bind_ok_iff.mp hs
      have hpooled := (getThisPage_pooled h hg).1
      split at hs
      · obtain ⟨-, rfl⟩ := pure_ok_iff.mp hs
        exact hpooled
      · exact ih hpooled hs
    · rw [seekFree, if_neg he] at hs
      exact newPage_pooled h hs

theorem insertRecord_pins_le (h : Pooled s) (k : PageId) :
    (after (getNextFree F firstFree a.length) s).bufferManager.cache.pins k ≤
      (after (insertRecord F firstFree a) s).bufferManager.cache.pins k := by
  refine after_bind_pins_le fun page t hn => ?_
  have hpins := withPage_pins (f := fun d => F.put d a) page (seekFree_pooled h hn) k
  exact hpins.ge.trans (after_bind_pins_le fun _ _ _ => le_rfl)

/-- The first page that an insertion gets keeps the pin. -/
theorem insertRecord_leaves (h : Pooled s) (ho : ObtainsPage firstFree s) :
    ∃ page, s.bufferManager.cache.pins (s.fd, page) <
      (after (insertRecord F firstFree a) s).bufferManager.cache.pins (s.fd, page) := by
  suffices hnext : ∃ page, s.bufferManager.cache.pins (s.fd, page) <
      (after (getNextFree F firstFree a.length) s).bufferManager.cache.pins (s.fd, page) by
    obtain ⟨page, hpage⟩ := hnext
    exact ⟨page, hpage.trans_le (insertRecord_pins_le h _)⟩
  have hone : ∀ page, onePin s.fd page (s.fd, page) = 1 := fun page => if_pos rfl
  unfold ObtainsPage at ho
  split at ho
  · next hpos =>
    obtain ⟨ph, t, hg⟩ := ho
    obtain ⟨hpooled, hpins⟩ := getThisPage_pooled h hg
    refine ⟨firstFree, ?_⟩
    have hfirst : s.bufferManager.cache.pins (s.fd, firstFree) <
        (after (getThisPage firstFree) s).bufferManager.cache.pins (s.fd, firstFree) := by
      simp only [after, hg, hpins, hone]
      omega
    simp only [getNextFree, after, seekFree_pos F _ 2 hpos] at hfirst ⊢
    refine hfirst.trans_le (after_bind_pins_le fun ph' t' hg' => ?_)
    rw [after_bind_ok (rfl : (get : FileOp FileHandle) t' = .ok t' t')]
    split
    · exact le_rfl
    · exact seekFree_pins_le (getThisPage_pooled h hg').1 _
  · next hpos =>
    rw [getNextFree, seekFree, if_neg hpos]
    obtain ⟨page, hpage⟩ := allocatePage_of_buffer h ho
    refine ⟨page, lt_of_lt_of_le ?_ (after_bind_pins_le fun _ _ _ => le_rfl)⟩
    obtain ⟨slot, t, ha, hadds⟩ | ⟨x, t, ha, hpins⟩ := hpage
    · simp only [after, ha, hadds.pins, hone]
      omega
    · simp only [after, ha, hpins, hone]
      omega

/-- An insertion that gets no page throws, and takes no pin. -/
theorem insertRecord_keeps (h : Pooled s) (ho : ¬ ObtainsPage firstFree s) (k : PageId) :
    (after (insertRecord F firstFree a) s).bufferManager.cache.pins k =
      s.bufferManager.cache.pins k := by
  suffices hnext : ∃ x t, getNextFree F firstFree a.length s = .error x t ∧
      t.bufferManager.cache.pins k = s.bufferManager.cache.pins k by
    obtain ⟨x, t, hn, hpins⟩ := hnext
    rw [insertRecord, after_bind_error hn, hpins]
  unfold ObtainsPage at ho
  split at ho
  · next hpos =>
    rw [getNextFree, seekFree_pos F _ 2 hpos]
    cases hg : getThisPage firstFree s with
    | ok ph t => exact absurd ⟨ph, t, hg⟩ ho
    | error x t =>
      exact ⟨x, t, bind_error_iff.mpr (Or.inl hg), getThisPage_error_pins h hg⟩
  · next hpos =>
    obtain ⟨x, t, ha, hpins⟩ := allocatePage_of_no_buffer h ho
    rw [getNextFree, seekFree, if_neg hpos]
    exact ⟨x, t, bind_error_iff.mpr (Or.inl ha), hpins k⟩

end Insert

theorem keepsPins_insert_iff (firstFree : ℤ) (h : Pooled s) (a : List UInt8) :
    KeepsPins F firstFree (.insert a) s ↔ ¬ ObtainsPage firstFree s := by
  simp only [KeepsPins, RecordCall.perform, after_return]
  constructor
  · intro hkeep ho
    obtain ⟨page, hlt⟩ := insertRecord_leaves (F := F) (a := a) h ho
    exact hlt.ne' (hkeep page)
  · exact fun ho page => insertRecord_keeps h ho _

/-- A call leaves every pin as it was exactly when it is no insertion that gets a page, and no
update that finds its record and then gets one. -/
theorem record_call_keeps_pins_iff (F : RecordFormat) (firstFree : ℤ) (c : RecordCall)
    (h : Pooled s) : KeepsPins F firstFree c s ↔ ¬ LeavesPin F firstFree s c := by
  cases c with
  | get id =>
    simp only [KeepsPins, RecordCall.perform, after_return, LeavesPin, not_false_eq_true, iff_true]
    exact fun page => withPage_pins id.page h _
  | insert a => exact keepsPins_insert_iff firstFree h a
  | delete id =>
    simp only [KeepsPins, RecordCall.perform, after_return, LeavesPin, not_false_eq_true, iff_true]
    exact fun page => withPage_pins id.page h _
  | update id a =>
    simp only [KeepsPins, RecordCall.perform, after_return, LeavesPin]
    obtain ⟨x, t, hd, hpins⟩ | ⟨found, t, hd, hadds⟩ :=
      withPage_adds (f := fun d => F.remove d (slotPtr id.slot)) id.page h
    · have hdelete : deleteRecord F id s = .error x t := hd
      rw [updateRecord, after_bind_error hdelete]
      refine iff_of_true (fun page => hpins _) ?_
      rintro ⟨v, hv, -⟩
      rw [hdelete] at hv
      cases hv
    · have hdelete : deleteRecord F id s = .ok found t := hd
      have hpins : ∀ k, t.bufferManager.cache.pins k = s.bufferManager.cache.pins k := fun k => by
        rw [hadds.pins k, Pi.zero_apply, add_zero]
      rw [updateRecord, after_bind_ok hdelete]
      cases found with
      | false =>
        refine iff_of_true (fun page => hpins _) ?_
        rintro ⟨v, hv, -⟩
        rw [hdelete] at hv
        cases hv
      | true =>
        have hpooled : Pooled t := hadds.pooled h fun _ => le_rfl
        have hinsert := keepsPins_insert_iff (F := F) firstFree hpooled a
        simp only [KeepsPins, RecordCall.perform, after_return, hpins, hadds.fd] at hinsert
        simp only [if_true, hdelete, Result.ok.injEq, true_and, exists_eq_left']
        rw [← hinsert]
        rw [after_return]

/-- A deletion on a table of two pages. -/
theorem record_call_keeps_pins_delete :
    KeepsPins oneRecord (-1) (.delete ⟨1, 0⟩) twoRecordsHandle :=
  (record_call_keeps_pins_iff oneRecord (-1) (.delete ⟨1, 0⟩)
    served_twoRecords.2.listed.pooled).mpr id

/-- An insertion into this table without a free page, whatever the layout within a page: the page
that is allocated keeps a pin. -/
theorem insert_keeps_no_pins : Served (fun _ => False) twoRecordsHandle [] ∧
    ∀ F : RecordFormat, ¬ KeepsPins F (-1) (.insert [9]) twoRecordsHandle := by
  refine ⟨served_twoRecords.2, fun F hkeep => ?_⟩
  have hbuffer : HasBuffer twoRecordsHandle := by
    have hfirst : ¬ twoRecordsHandle.header.firstFree ≠ pageListEnd := by decide
    rw [HasBuffer, if_neg hfirst]
    exact ⟨0, _, rfl⟩
  have hobtains : ObtainsPage (-1) twoRecordsHandle := by
    rw [ObtainsPage, if_neg (by decide)]
    exact hbuffer
  exact (keepsPins_insert_iff _ served_twoRecords.2.listed.pooled [9]).mp hkeep hobtains

end AlphaDb.Table
