import AlphaDb.Table.TableRuns

/-! The page that an insertion chooses, and whether the record can be put there
(`table/table_handle`, `table/table_format`). -/
namespace AlphaDb.Table

open AlphaDb.Io EStateM BufferManager Cache FileHandle

namespace TableFormat

variable {cmp : List UInt8 → List UInt8 → ℤ} {d : Block 4092} {t : List UInt8}

/-- What `put` does behind the test of the free space. -/
def place (cmp : List UInt8 → List UInt8 → ℤ) (d : Block 4092) (t : List UInt8) :
    Option (Block 4092 × ℤ) := do
  let i ← find cmp d t
  let d ← if i = count d then putLast d t else putBefore d t i
  pure (addHdr d 1 2 (-t.length), i)

/-- A result with a slot. -/
def HasSlot (r : Option (Block 4092 × ℤ)) : Prop := ∃ d i, r = some (d, i) ∧ i ≠ -1

theorem hasSlot_iff {r : Option (Block 4092 × ℤ)} :
    HasSlot r ↔ (r.any fun x => x.2 ≠ -1) = true := by
  cases r <;> simp [HasSlot, Prod.ext_iff]

/-- A record that fits an empty page is put exactly where its bytes and its slot fit, and the work
behind the test finds a slot. -/
theorem put_hasSlot_iff (hfits : 2 + (t.length : ℤ) ≤ indexPageSize) :
    HasSlot (put cmp d t) ↔ 2 + (t.length : ℤ) ≤ freeSpace d ∧ HasSlot (place cmp d t) := by
  have hneed : (BitVec.ofNat 32 (2 + t.length)).toInt = 2 + t.length := by
    unfold indexPageSize at hfits
    rw [BitVec.toInt_ofNat', Int.bmod_def]
    split <;> omega
  have hput : put cmp d t =
      if 2 + (t.length : ℤ) > freeSpace d then some (d, -1) else place cmp d t := by
    rw [put, hneed]
    rfl
  rw [hput]
  split
  · next hlarge =>
    refine iff_of_false ?_ fun h => absurd h.1 (not_le.mpr hlarge)
    rintro ⟨_, _, heq, hne⟩
    cases heq
    exact hne rfl
  · next hroom => exact (and_iff_right (not_lt.mp hroom)).symm

theorem freeSpace_zero : freeSpace (fun _ => 0) = 0 := by decide

end TableFormat

open TableFormat

/-- The calls of `table_format` on a page. Where the source leaves the page, the page stays and the
record is refused. -/
def pageFormat (cmp : List UInt8 → List UInt8 → ℤ) : RecordFormat where
  nextFree d := d.getInt32 0
  space := freeSpace
  get d slot := (TableFormat.get d slot.toNat).join
  put d t := (TableFormat.put cmp d t).getD (d, -1)
  remove d slot := (TableFormat.remove d slot.toNat).getD (d, false)

/-- The first page along the chain with more free space than is needed, so many pages at most. -/
def firstFit (F : RecordFormat) (contents : ℤ → Option (Block 4096)) (need : ℤ) :
    ℕ → ℤ → Option (ℤ × Block 4096)
  | 0, _ => none
  | seeks + 1, e =>
    if 0 < e then do
      let b ← contents e
      if F.space (pageData b) > need then some (e, b)
      else firstFit F contents need seeks (F.nextFree (pageData b))
    else none

variable {F : RecordFormat} {P : ℤ → Prop} {s s₀ u : FileHandle} {l : List ℤ}
  {need e page firstFree : ℤ} {seeks : ℕ} {cmp : List UInt8 → List UInt8 → ℤ} {t : List UInt8}

/-- The page that is returned is the first that fits, as it was, or a new one, which is clear. -/
theorem seekFree_chooses (h₀ : Served P s₀ l) (h : Served P s l) (hs : Spares s₀ s)
    (hn : seekFree F need seeks e s = .ok page u) :
    (∃ b, firstFit F s₀.contents need seeks e = some (page, b) ∧ u.contents page = some b) ∨
      (firstFit F s₀.contents need seeks e = none ∧
        u.contents page = some (setNextFree (fun _ => 0) pageUsed)) := by
  induction seeks generalizing s e with
  | zero =>
    obtain ⟨ph, v, ha, hv⟩ := bind_ok_iff.mp hn
    obtain ⟨rfl, rfl⟩ := pure_ok_iff.mp hv
    obtain ⟨l', -, -, -, hnew, -⟩ := h.allocatePage ha
    exact Or.inr ⟨rfl, hnew⟩
  | succ seeks ih =>
    by_cases he : 0 < e
    swap
    · rw [seekFree, if_neg he] at hn
      obtain ⟨ph, v, ha, hv⟩ := bind_ok_iff.mp hn
      obtain ⟨rfl, rfl⟩ := pure_ok_iff.mp hv
      obtain ⟨l', -, -, -, hnew, -⟩ := h.allocatePage ha
      exact Or.inr ⟨by rw [firstFit, if_neg he], hnew⟩
    rw [seekFree_pos F need seeks he] at hn
    obtain ⟨ph, v, hg, hn⟩ := bind_ok_iff.mp hn
    obtain ⟨c, b, q, slot, rfl, rfl, hf, hl⟩ := getThisPage_ok h hg
    obtain ⟨hserved, hspares, -⟩ := hf.served h
    replace hn := get_bind_ok_iff.mp hn
    -- the page has the bytes that it had before the walk
    have hb : s₀.contents e = some b := by
      have hvalid : s₀.IsValidPage e := by
        have := hf.valid
        rwa [IsValidPage, hs.header] at this
      obtain ⟨v, hv, -⟩ := h₀.listed.used e hvalid
      obtain ⟨b₀, hb₀, -⟩ := stored_eq_some.mp hv
      rw [hb₀, ← hs.contents e b₀ hb₀, hf.contents_eq h]
    simp only [data, hf.entry] at hn
    rw [firstFit, if_pos he, hb, Option.bind_eq_bind, Option.bind_some]
    split at hn
    · next hspace =>
      obtain ⟨rfl, rfl⟩ := pure_ok_iff.mp hn
      rw [if_pos hspace]
      exact Or.inl ⟨b, rfl, hspares.contents _ b (hf.contents_eq h)⟩
    · next hspace =>
      rw [if_neg hspace]
      exact ih hserved (hs.trans hspares) hn

theorem firstFit_space {b : Block 4096} {contents : ℤ → Option (Block 4096)}
    (h : firstFit F contents need seeks e = some (page, b)) : need < F.space (pageData b) := by
  induction seeks generalizing e with
  | zero => cases h
  | succ seeks ih =>
    rw [firstFit] at h
    split at h
    swap
    · cases h
    obtain ⟨b', -, h⟩ := Option.bind_eq_some_iff.mp h
    split at h
    · next hspace =>
      cases h
      exact hspace
    · exact ih h

/-- On the page that is returned the record is put, and an insertion gives a slot. -/
def FindsRoom (cmp : List UInt8 → List UInt8 → ℤ) (firstFree : ℤ) (t : List UInt8)
    (s : FileHandle) : Prop :=
  (∀ page u, getNextFree (pageFormat cmp) firstFree t.length s = .ok page u →
    ∃ b, u.contents page = some b ∧ HasSlot (TableFormat.put cmp (pageData b) t)) ∧
  ∀ id u, insertRecord (pageFormat cmp) firstFree t s = .ok id u → id.slot ≠ -1

/-- One of the pages that are looked at has more free space than the record has bytes, and the
first of these has two bytes more, and a slot for the record behind the test. -/
def RoomAhead (cmp : List UInt8 → List UInt8 → ℤ) (firstFree : ℤ) (t : List UInt8)
    (s : FileHandle) : Prop :=
  ∃ page b, firstFit (pageFormat cmp) s.contents t.length 3 firstFree = some (page, b) ∧
    2 + (t.length : ℤ) ≤ freeSpace (pageData b) ∧ HasSlot (place cmp (pageData b) t)

theorem hasSlot_chosen_iff (h : Served P s l) (hfits : 2 + (t.length : ℤ) ≤ indexPageSize)
    (hn : getNextFree (pageFormat cmp) firstFree t.length s = .ok page u) :
    (∃ b, u.contents page = some b ∧ HasSlot (TableFormat.put cmp (pageData b) t)) ↔
      RoomAhead cmp firstFree t s := by
  obtain ⟨b, hfit, hb⟩ | ⟨hfit, hb⟩ := seekFree_chooses h h (spares_refl s) hn
  · simp only [hb, Option.some.injEq, exists_eq_left', put_hasSlot_iff hfits]
    constructor
    · exact fun hslot => ⟨page, b, hfit, hslot⟩
    · rintro ⟨page', b', hfit', hslot⟩
      rw [hfit] at hfit'
      cases hfit'
      exact hslot
  · -- a new page says that it has no free space at all
    simp only [hb, Option.some.injEq, exists_eq_left', put_hasSlot_iff hfits, pageData_new,
      freeSpace_zero]
    refine iff_of_false (fun hslot => ?_) ?_
    · omega
    · rintro ⟨page', b', hfit', -⟩
      rw [hfit] at hfit'
      cases hfit'

/-- The slot of an insertion is what `put` returns on the chosen page. -/
theorem insertRecord_slot {id : Rid} {v : FileHandle} (h : Served P s l)
    (hi : insertRecord (pageFormat cmp) firstFree t s = .ok id v) :
    ∃ u b, getNextFree (pageFormat cmp) firstFree t.length s = .ok id.page u ∧
      u.contents id.page = some b ∧
      (id.slot ≠ -1 ↔ HasSlot (TableFormat.put cmp (pageData b) t)) := by
  obtain ⟨page, u, hn, hi⟩ := bind_ok_iff.mp hi
  obtain ⟨slot, w, hw, hi⟩ := bind_ok_iff.mp hi
  obtain ⟨rfl, rfl⟩ := pure_ok_iff.mp hi
  obtain ⟨l', ho⟩ := seekFree_ok h hn
  obtain ⟨b, -, hb, hr⟩ := withPage_value ho.served hw
  refine ⟨u, b, hn, hb, ?_⟩
  dsimp only
  rw [hr]
  cases hput : TableFormat.put cmp (pageData b) t with
  | none => simp [pageFormat, hput, HasSlot]
  | some r => simp [pageFormat, hput, HasSlot, Prod.ext_iff]

/-- A table file of two pages; page 1 has one tuple, from `lower + 256 * upper` on. -/
def oneTuple (lower upper : UInt8) : ByteFile where
  size := 3 * 4096
  byte i :=
    (List.lookup i
      [(0, 255), (1, 255), (2, 255), (3, 255), (4, 2),
        (4096, 254), (4097, 255), (4098, 255), (4099, 255),
        (8192, 254), (8193, 255), (8194, 255), (8195, 255), (8200, 1), (8204, 2),
        (8208, lower), (8209, upper), (8212, lower), (8213, upper)]).getD 0

def oneTupleHandle (lower upper : UInt8) : FileHandle :=
  ⟨3, ⟨-1, 2⟩, true, false,
    new 1 (fun _ => ⟨false, 0, 0, fun _ => 0, 0⟩) fun _ => some (oneTuple lower upper)⟩

end AlphaDb.Table
