import AlphaDb.Table.PageChoice

/-! Whether an update keeps the record that it replaces when it fails (`table/table_handle`), over
any layout of records within one page. -/
namespace AlphaDb.Table

open AlphaDb.Io EStateM BufferManager Cache FileHandle

/-- The records that can be read: those on the pages in use. -/
def records (F : RecordFormat) (s : FileHandle) (page : ℤ) : UInt16 → Option (List UInt8) :=
  if s.IsValidPage page then
    match s.contents page with
    | some b => if nextFree b = pageUsed then F.get (pageData b) else fun _ => none
    | none => fun _ => none
  else fun _ => none

/-- The records with another entry under a record id. -/
def enterRecord (r : ℤ → UInt16 → Option (List UInt8)) (id : Rid) (a : Option (List UInt8)) :
    ℤ → UInt16 → Option (List UInt8) :=
  Function.update r id.page (Function.update (r id.page) (slotPtr id.slot) a)

/-- `put` gives a slot that has no record. -/
def RecordFormat.PutsFresh (F : RecordFormat) : Prop :=
  ∀ d a, (F.put d a).2 ≠ -1 → F.get d (slotPtr (F.put d a).2) = none

/-- An update that returns false or throws has changed no record, and one that gets to its end has
put the new record at a free place and removed the old one. Running out of page numbers is
undefined. -/
def UpdatesAtomically (F : RecordFormat) (firstFree : ℤ) (id : Rid) (data : List UInt8)
    (s : FileHandle) : Prop :=
  match updateRecord F firstFree id data s with
  | .ok (some false) t => records F t = records F s
  | .ok _ t => ∃ id', enterRecord (records F s) id none id'.page (slotPtr id'.slot) = none ∧
      records F t = enterRecord (enterRecord (records F s) id none) id' (some data)
  | .error e t => e ≠ .overflow ∧ records F t = records F s

/-- The deletion finds the record: it is there, and the pool can hold its page. -/
def Finds (F : RecordFormat) (id : Rid) (s : FileHandle) : Prop :=
  records F s id.page (slotPtr id.slot) ≠ none ∧ CanHold s.bufferManager s.fd id.page

/-- Behind the deletion the insertion gets a page that has room. -/
def Stores (F : RecordFormat) (firstFree : ℤ) (id : Rid) (data : List UInt8) (s : FileHandle) :
    Prop :=
  ∃ t id' u, deleteRecord F id s = .ok true t ∧ insertRecord F firstFree data t = .ok id' u ∧
    id'.slot ≠ -1

/-- The deletion is not lost when the page leaves the pool: the page is dirty or pinned. -/
def SavesPage (s : FileHandle) (page : ℤ) : Prop := s.dirtyAt page = true ∨ 0 < s.pins page

variable {F : RecordFormat} {P P' : ℤ → Prop} {s t u : FileHandle} {l l' : List ℤ} {id : Rid}
  {page firstFree : ℤ} {data : List UInt8} {b : Block 4096} {e : Error}

section Records

theorem records_of_inUse (h : Served P s l) (hp : InUse s l page)
    (hb : s.contents page = some b) : records F s page = F.get (pageData b) := by
  obtain ⟨v, hv, hiff⟩ := h.listed.used page hp.1
  obtain ⟨b', hb', hlink⟩ := stored_eq_some.mp hv
  obtain rfl := Option.some.inj (hb.symm.trans hb')
  have hused : nextFree b = pageUsed := by
    rw [hlink]
    exact not_not.mp fun hne => hp.2 (hiff.mp hne)
  simp only [records, if_pos hp.1, hb, if_pos hused]

theorem records_of_not_inUse (h : Served P s l) (hp : ¬ InUse s l page) :
    records F s page = fun _ => none := by
  by_cases hvalid : s.IsValidPage page
  · obtain ⟨v, hv, hiff⟩ := h.listed.used page hvalid
    obtain ⟨b, hb, hlink⟩ := stored_eq_some.mp hv
    have hfree : ¬ nextFree b = pageUsed := by
      rw [hlink]
      exact hiff.mpr (not_not.mp fun hl => hp ⟨hvalid, hl⟩)
    simp only [records, if_pos hvalid, hb, if_neg hfree]
  · simp only [records, if_neg hvalid]

theorem inUse_contents (h : Served P s l) (hp : InUse s l page) :
    ∃ b, s.contents page = some b := by
  obtain ⟨v, hv, -⟩ := h.listed.used page hp.1
  obtain ⟨b, hb, -⟩ := stored_eq_some.mp hv
  exact ⟨b, hb⟩

/-- Clear pages that come into use bring no records. -/
theorem records_of_grows (hF : F.Lawful) (h : Served P s l) (ht : Served P' t l')
    (hg : Grows s l t l') : records F t = records F s := by
  funext p
  by_cases hp : InUse s l p
  · obtain ⟨b, hb⟩ := inUse_contents h hp
    obtain ⟨hpt, hkeep⟩ := hg.kept p hp
    rw [records_of_inUse h hp hb, records_of_inUse ht hpt (hkeep b hb)]
  · rw [records_of_not_inUse h hp]
    by_cases hpt : InUse t l' p
    · have hnew := (hg.fresh p hpt).resolve_left hp
      rw [records_of_inUse ht hpt hnew, pageData_new, hF.get_clear]
    · exact records_of_not_inUse ht hpt

theorem records_of_spares (hF : F.Lawful) (h : Served P s l) (ht : Served P' t l)
    (hs : Spares s t) : records F t = records F s :=
  records_of_grows hF h ht (grows_of_spares hs)

/-- The records of one page change. -/
theorem records_of_change (h : Served P s l) (ht : Served P' t l) (hheader : t.header = s.header)
    (hp : InUse s l page) (hb : t.contents page = some b)
    (hother : ∀ p b, p ≠ page → s.contents p = some b → t.contents p = some b) :
    records F t = Function.update (records F s) page (F.get (pageData b)) := by
  have huse : ∀ p, InUse t l p ↔ InUse s l p := inUse_iff hheader
  funext p
  by_cases he : p = page
  · subst he
    rw [Function.update_self, records_of_inUse ht ((huse p).mpr hp) hb]
  · rw [Function.update_of_ne he]
    by_cases hps : InUse s l p
    · obtain ⟨b', hb'⟩ := inUse_contents h hps
      rw [records_of_inUse h hps hb', records_of_inUse ht ((huse p).mpr hps) (hother p b' he hb')]
    · rw [records_of_not_inUse h hps, records_of_not_inUse ht fun hpt => hps ((huse p).mp hpt)]

end Records

section Delete

variable {found : Bool} {ph : PageHandle}

theorem canHold_of_getThisPage (h : Served P s l) (hg : getThisPage page s = .ok ph t) :
    CanHold s.bufferManager s.fd page := by
  by_cases hp : s.IsValidPage page
  · rw [getThisPage_eq h.listed.isOpen hp] at hg
    obtain ⟨slot, v, hget, -⟩ := bind_ok_iff.mp hg
    obtain ⟨q, hq, -⟩ := pool_ok.mp hget
    exact canHold_of_getPage hq
  · rw [getThisPage_invalid h.listed.isOpen hp] at hg
    cases hg

/-- Fetching a page counts no pages. -/
theorem getThisPage_ne_overflow (h : Served P s l) :
    getThisPage page s ≠ .error .overflow t := by
  intro hg
  by_cases hp : s.IsValidPage page
  swap
  · rw [getThisPage_invalid h.listed.isOpen hp] at hg
    cases hg
  rw [getThisPage_eq h.listed.isOpen hp] at hg
  obtain hget | ⟨slot, v, hget, hg⟩ := bind_error_iff.mp hg
  · obtain ⟨q, hq, -⟩ := pool_error.mp hget
    obtain hio | ⟨-, ⟨he, -⟩ | ⟨he, -⟩⟩ := getPage_error hq
    · cases hio
    · cases he
    · cases he
  obtain ⟨c, b, q, rfl, hf, -⟩ := getPage_fetched h hp hget
  replace hg := get_bind_error_iff.mp hg
  split at hg
  · exact absurd hg pure_ne_error
  obtain hu | ⟨_, w, hu, hg⟩ := bind_error_iff.mp hg
  · have hpositive : (q.bufferPool slot).pin ≠ 0 := by
      have hpin := h.pins_nonneg page
      have hle : s.pins page ≤ c.pins (s.fd, page) := hf.evict.pins_le (s.fd, page)
      rw [hf.entry]
      dsimp only
      omega
    obtain ⟨r, hr⟩ := unpinPage_of_find (p := q) hf.find hpositive
    rw [unpinPage_eq (s := { s with bufferManager := q }) h.listed.isOpen hp,
      pool_ok.mpr ⟨r, hr, rfl⟩] at hu
    cases hu
  · obtain ⟨he, -⟩ := throw_error_iff.mp hg
    cases he

/-- A deletion that returns says whether the record was there, and removes it. -/
theorem deleteRecord_records (hF : F.Lawful) (h : Served P s l)
    (hd : deleteRecord F id s = .ok found t) (hsave : found = true → SavesPage s id.page) :
    found = (records F s id.page (slotPtr id.slot)).isSome ∧ (∃ P', Served P' t l) ∧
      records F t = enterRecord (records F s) id none := by
  have hpending : Served (fun p => P p ∨ p = id.page ∧ 0 < s.pins id.page) s l := by
    refine h.mono (fun p hp => Or.inl hp) ?_
    rintro p (hp | ⟨rfl, hp⟩)
    · exact pendingPinned_iff.mp h.serves.pinned (s.fd, p) ⟨rfl, hp⟩
    · exact hp
  have hkeep : ∀ b, InUse s l id.page → s.contents id.page = some b →
      (F.remove (pageData b) (slotPtr id.slot)).1 = pageData b ∨ s.dirtyAt id.page = true ∨
        (P id.page ∨ id.page = id.page ∧ 0 < s.pins id.page) := by
    intro b _ hb
    cases found with
    | false =>
      left
      obtain ⟨b', -, hb', hfound⟩ := withPage_value h hd
      obtain rfl := Option.some.inj (hb.symm.trans hb')
      rw [hF.remove_found] at hfound
      exact hF.remove_missing _ _ (by simpa using hfound.symm)
    | true =>
      rcases hsave rfl with hdirty | hpin
      · exact Or.inr (Or.inl hdirty)
      · exact Or.inr (Or.inr (Or.inr ⟨rfl, hpin⟩))
  obtain ⟨b, hp, hb, hr, hcont, hserved, -, hheader, hother⟩ := withPage_ok hpending hd hkeep
  have hrecords := records_of_inUse (F := F) h hp hb
  refine ⟨?_, ⟨_, hserved⟩, ?_⟩
  · rw [hr, hrecords, hF.remove_found]
  · rw [records_of_change h hserved hheader hp hcont fun p b' hne => (hother p).2 b' hne,
      pageData_setPageData, hF.get_remove, enterRecord, hrecords]

/-- The deletion returns true exactly where it finds the record. -/
theorem deleteRecord_true_iff (hF : F.Lawful) (h : Served P s l) :
    (∃ t, deleteRecord F id s = .ok true t) ↔ Finds F id s := by
  have hfound : ∀ {found t}, deleteRecord F id s = .ok found t →
      found = (records F s id.page (slotPtr id.slot)).isSome := by
    intro found t hd
    obtain ⟨b, hp, hb, rfl⟩ := withPage_value h hd
    rw [records_of_inUse h hp hb, hF.remove_found]
  constructor
  · rintro ⟨t, hd⟩
    obtain ⟨ph, v, hg, -⟩ := bind_ok_iff.mp hd
    exact ⟨Option.isSome_iff_ne_none.mp (hfound hd).symm, canHold_of_getThisPage h hg⟩
  · rintro ⟨hne, hroom⟩
    have hp : InUse s l id.page := by
      by_contra hno
      exact hne (congrFun (records_of_not_inUse h hno) _)
    obtain ⟨found, t, hd⟩ := withPage_returns (f := fun d => F.remove d (slotPtr id.slot))
      h hp hroom
    obtain rfl : found = true := (hfound hd).trans (Option.isSome_iff_ne_none.mpr hne)
    exact ⟨t, hd⟩

end Delete

section Insert

variable {id' : Rid}

/-- An insertion that returns has put the record at a free place, or none at all. -/
theorem insertRecord_records (hF : F.Lawful) (hfresh : F.PutsFresh) (h : Served P t l)
    (hi : insertRecord F firstFree data t = .ok id' u) :
    (id'.slot = -1 → records F u = records F t) ∧
      (id'.slot ≠ -1 → records F t id'.page (slotPtr id'.slot) = none ∧
        records F u = enterRecord (records F t) id' (some data)) := by
  obtain ⟨v, l', b, ho, hb, hslot, hcont, hserved, -, hheader, hother⟩ := insertRecord_ok h hi
  have hgrows : records F v = records F t := records_of_grows hF h ho.served ho.grows
  have hpage : records F t id'.page = F.get (pageData b) := by
    rw [← hgrows]
    exact records_of_inUse ho.served ho.inUse hb
  have hchange : records F u = Function.update (records F t) id'.page
      (F.get (F.put (pageData b) data).1) := by
    rw [records_of_change ho.served hserved hheader ho.inUse hcont
      fun p b' hne => (hother p).2 b' hne, pageData_setPageData, hgrows]
  constructor
  · intro hrefused
    rw [hchange, hF.get_refused _ _ (hslot ▸ hrefused), ← hpage, Function.update_eq_self]
  · intro hput
    rw [hslot] at hput
    refine ⟨?_, ?_⟩
    · rw [hpage, hslot]
      exact hfresh _ _ hput
    · rw [hchange, hF.get_put _ _ hput, enterRecord, hpage, hslot]

end Insert

section Update

theorem enterRecord_self (r : ℤ → UInt16 → Option (List UInt8)) (id : Rid)
    (a : Option (List UInt8)) : enterRecord r id a id.page (slotPtr id.slot) = a := by
  simp [enterRecord]

theorem enterRecord_of_none {r : ℤ → UInt16 → Option (List UInt8)}
    (h : r id.page (slotPtr id.slot) = none) : enterRecord r id none = r := by
  rw [enterRecord, ← h, Function.update_eq_self, Function.update_eq_self]

/-- Without the record nothing happens, and a deletion that throws has removed none. -/
theorem updatesAtomically_of_not_finds (hF : F.Lawful) (h : Served P s l) (hn : ¬ Finds F id s) :
    UpdatesAtomically F firstFree id data s := by
  unfold UpdatesAtomically
  cases hd : deleteRecord F id s with
  | error x t =>
    have hupdate : updateRecord F firstFree id data s = .error x t :=
      bind_error_iff.mpr (Or.inl hd)
    rw [hupdate]
    obtain ⟨hserved, hspares⟩ := withPage_error h hd
    refine ⟨?_, records_of_spares hF h hserved hspares⟩
    rintro rfl
    cases hg : getThisPage id.page s with
    | error y v =>
      have hw := withPage_of_error (f := fun d => F.remove d (slotPtr id.slot)) hg
      obtain ⟨rfl, -⟩ := Result.error.inj (hw.symm.trans hd)
      exact getThisPage_ne_overflow h hg
    | ok ph v =>
      obtain ⟨c, b, q, slot, rfl, rfl, hf, -⟩ := getThisPage_ok h hg
      obtain ⟨q', hq', -⟩ := withPage_of_fetched
        (f := fun d => F.remove d (slotPtr id.slot)) h hg hf
      cases hq'.symm.trans hd
  | ok found t =>
    cases found with
    | true => exact absurd ((deleteRecord_true_iff hF h).mp ⟨t, hd⟩) hn
    | false =>
      have hupdate : updateRecord F firstFree id data s = .ok (some false) t := by
        rw [updateRecord, bind_of_ok hd]
        rfl
      obtain ⟨hnone, -, hrecords⟩ := deleteRecord_records hF h hd (by simp)
      simp only [hupdate, hrecords]
      exact enterRecord_of_none (by simpa using hnone.symm)

/-- Once the record is removed, only an insertion that stores the new one makes up for it. -/
theorem updatesAtomically_iff_stores (hF : F.Lawful) (hfresh : F.PutsFresh) (h : Served P s l)
    (hf : Finds F id s) (hsave : SavesPage s id.page) :
    UpdatesAtomically F firstFree id data s ↔ Stores F firstFree id data s := by
  obtain ⟨t, hd⟩ := (deleteRecord_true_iff hF h).mpr hf
  obtain ⟨-, ⟨P', hserved⟩, hrecords⟩ := deleteRecord_records hF h hd fun _ => hsave
  have hremoved : records F t id.page (slotPtr id.slot) = none := by
    rw [hrecords, enterRecord_self]
  have hstores : Stores F firstFree id data s ↔ ∃ id' u,
      insertRecord F firstFree data t = .ok id' u ∧ id'.slot ≠ -1 := by
    constructor
    · rintro ⟨t', id', u, hd', hi, hslot⟩
      obtain ⟨-, rfl⟩ := Result.ok.inj (hd.symm.trans hd')
      exact ⟨id', u, hi, hslot⟩
    · rintro ⟨id', u, hi, hslot⟩
      exact ⟨t, id', u, hd, hi, hslot⟩
  rw [hstores, UpdatesAtomically, updateRecord, bind_of_ok hd]
  cases hi : insertRecord F firstFree data t with
  | error x u =>
    have hinsert : (do let _ ← insertRecord F firstFree data; return none :
        FileOp (Option Bool)) t = .error x u := bind_error_iff.mpr (Or.inl hi)
    simp only [if_true, hinsert]
    refine iff_of_false ?_ ?_
    · rintro ⟨hne, hsame⟩
      obtain hx | ⟨hserved', hspares⟩ := insertRecord_error hserved hi
      · exact hne hx
      · rw [records_of_spares hF hserved hserved' hspares] at hsame
        exact hf.1 (by rw [← hsame, hremoved])
    · rintro ⟨id', u', hi', -⟩
      cases hi'
  | ok id' u =>
    have hinsert : (do let _ ← insertRecord F firstFree data; return none :
        FileOp (Option Bool)) t = .ok none u := by
      rw [bind_of_ok hi]
      rfl
    simp only [if_true, hinsert]
    obtain ⟨hrefused, hput⟩ := insertRecord_records hF hfresh hserved hi
    constructor
    · rintro ⟨id'', hfree, hstored⟩
      refine ⟨id', u, rfl, fun hslot => ?_⟩
      -- nothing was stored, but the new record should be there
      rw [hrefused hslot, hrecords] at hstored
      rw [hstored, enterRecord_self] at hfree
      cases hfree
    · rintro ⟨id'', u', hi', hslot⟩
      cases hi'
      obtain ⟨hfree, hstored⟩ := hput hslot
      exact ⟨id', by rwa [← hrecords], by rw [hstored, hrecords]⟩

end Update

theorem putsFresh_oneRecord : oneRecord.PutsFresh := by
  intro d a hput
  rcases a with _ | ⟨x, _ | ⟨y, rest⟩⟩
  · exact absurd rfl hput
  · by_cases hd : d 4 = 0
    · simp [oneRecord, hd]
    · simp [oneRecord, hd] at hput
  · exact absurd rfl hput

/-- A record that was there and is gone after the update has thrown. -/
theorem not_updatesAtomically_of_thrown
    (ht : (updateRecord F firstFree id data s).thrown = some e)
    (hbefore : (records F s id.page (slotPtr id.slot)).isSome = true)
    (hafter : records F (after (updateRecord F firstFree id data) s) id.page (slotPtr id.slot) =
      none) : ¬ UpdatesAtomically F firstFree id data s := by
  obtain ⟨t, hu⟩ := thrown_eq_some_iff.mp ht
  unfold UpdatesAtomically
  simp only [hu]
  rintro ⟨-, hsame⟩
  simp only [after, hu, hsame] at hafter
  rw [hafter] at hbefore
  cases hbefore

end AlphaDb.Table
