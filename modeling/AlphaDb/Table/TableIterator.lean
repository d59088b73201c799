import AlphaDb.Table.PageChoice
import AlphaDb.Table.TableManager

/-! Scans of a table (`table/table_iterator`). -/
namespace AlphaDb.Table

open AlphaDb.Io EStateM Trace BufferManager FileHandle

/-- A criterion on one column. `eval` returns nothing where the source returns no value. -/
structure Criterion (V : Type) where
  colDef : ColumnDefinition
  eval : V → Option Bool

/-- `decode` gives the values of a row, one for each column of the schema. -/
structure TableIterator (V : Type) where
  decode : List UInt8 → List V
  colDefs : List ColumnDefinition
  criterions : List (Criterion V)

namespace TableIterator

variable {V : Type}

def begin : Rid := Rid.null

def «end» : Rid := Rid.null

/-- `fit`. A column that is not in the schema leaves the position unset, and a tuple that is not set
is no row. -/
def fit (it : TableIterator V) (t : Option (List UInt8)) : Option Bool := do
  let vct := it.decode (← t)
  it.criterions.foldlM (fun fit cri => do
    let pos ← it.colDefs.findIdx? (· = cri.colDef)
    let r ← cri.eval (← vct[pos]?)
    pure (fit && r)) true

/-- The loop of `next`, so many rounds of it. The tuple, the number of slots and the next page stay
those of the first round. -/
def seek (it : TableIterator V) (t : Option (List UInt8)) (cnt next : ℤ) : ℕ → Rid → Option Rid
  | 0, _ => none
  | rounds + 1, now => do
    if ← it.fit t then some now
    else
      let now := if now.slot < cnt - 1 then ⟨now.page, now.slot + 1⟩ else ⟨next, 0⟩
      seek it t cnt next rounds now

/-- `next`, with a limit on the rounds of its loop. The page stays pinned. -/
def next (it : TableIterator V) (rounds : ℕ) (now : Rid) : FileOp (Option Rid) := do
  let ph ← getThisPage now.page
  let d := pageData ((← get).data ph.slot)
  return do
    let t ← TableFormat.get d (slotPtr now.slot).toNat
    it.seek t (TableFormat.count d) ((pageFormat fun _ _ => 0).nextFree d) rounds now

/-- A call of `next` returns after some rounds, and the position is what it returned. -/
def Returns (it : TableIterator V) (s : FileHandle × Rid) (r : Rid) (t : FileHandle × Rid) : Prop :=
  (∃ rounds, it.next rounds s.2 s.1 = .ok (some r) t.1) ∧ t.2 = r

/-- The pages of a table from `page` on, with their tuples by slot, until the link of the last page
is -1. -/
def Linked (s : FileHandle) : ℤ → List (ℤ × List (List UInt8)) → Prop
  | page, [] => page = -1
  | page, (p, ts) :: rest => page = p ∧ ∃ b, s.contents p = some b ∧
    TableFormat.count (pageData b) = ts.length ∧
    (∀ i, TableFormat.get (pageData b) i = some ts[i]?) ∧
    Linked s ((pageData b).getInt32 0) rest

/-- The records that a scan should return: those that satisfy all criteria, in page and slot
order. -/
def matching (it : TableIterator V) (pages : List (ℤ × List (List UInt8))) : List Rid :=
  pages.flatMap fun (p, ts) =>
    (ts.zipIdx.filter fun (t, _) => it.fit (some t) = some true).map fun (_, i) => ⟨p, i⟩

/-- Successive calls of `next` on a new iterator return the matching records, each once, and then
the end. -/
def ScansRight (it : TableIterator V) (s : FileHandle) (firstPage : ℤ)
    (pages : List (ℤ × List (List UInt8))) : Prop :=
  ∃ t, MTr it.Returns (s, ⟨firstPage, 0⟩) (it.matching pages ++ [«end»]) t

variable {it : TableIterator V} {t : Option (List UInt8)} {cnt link : ℤ} {rounds : ℕ} {now r : Rid}
  {s u : FileHandle} {rs : List Rid}

/-- The loop only ends in its first round. -/
theorem seek_eq_some (h : it.seek t cnt link rounds now = some r) :
    it.fit t = some true ∧ r = now := by
  have hfits : ∀ rounds now, it.seek t cnt link rounds now = some r → it.fit t = some true := by
    intro rounds
    induction rounds with
    | zero => exact fun _ h => by cases h
    | succ rounds ih =>
      intro now h
      rw [seek] at h
      obtain ⟨fits, hfit, h⟩ := Option.bind_eq_some_iff.mp h
      cases fits with
      | true => exact hfit
      | false => exact ih _ h
  have hfit := hfits rounds now h
  cases rounds with
  | zero => cases h
  | succ rounds =>
    rw [seek, hfit] at h
    exact ⟨hfit, (Option.some.inj h).symm⟩

/-- What a call returns is where it started. -/
theorem next_eq_now (h : it.next rounds now s = .ok (some r) u) : r = now := by
  obtain ⟨ph, v, -, h⟩ := bind_ok_iff.mp h
  obtain ⟨_, _, hv, h⟩ := bind_ok_iff.mp h
  obtain ⟨hr, -⟩ := pure_ok_iff.mp h
  obtain ⟨t, -, hseek⟩ := Option.bind_eq_some_iff.mp hr
  exact (seek_eq_some hseek).2

/-- Successive calls all return the position of the first one. -/
theorem calls_eq_now {a b : FileHandle × Rid} (h : MTr it.Returns a rs b) : ∀ r ∈ rs, r = a.2 := by
  induction h with
  | refl => simp
  | stepL hstep _ ih =>
    obtain ⟨⟨rounds, hnext⟩, hnow⟩ := hstep
    have hr := next_eq_now hnext
    rw [List.forall_mem_cons]
    refine ⟨hr, fun r' hr' => ?_⟩
    rw [ih r' hr', hnow, hr]

/-- The tuple that a scan starts with. -/
def firstTuple (pages : List (ℤ × List (List UInt8))) : Option (List UInt8) :=
  pages.head?.bind fun page => page.2.head?

/-- A call on a new iterator works on the tuple that the scan starts with. -/
theorem next_first {P : ℤ → Prop} {l : List ℤ} {page : ℤ}
    {pages : List (ℤ × List (List UInt8))} (h : Served P s l) (hp : Linked s page pages)
    (hn : it.next rounds ⟨page, 0⟩ s = .ok (some r) u) :
    it.fit (firstTuple pages) = some true := by
  obtain ⟨ph, v, hg, hn⟩ := bind_ok_iff.mp hn
  replace hn := get_bind_ok_iff.mp hn
  obtain ⟨hr, -⟩ := pure_ok_iff.mp hn
  obtain ⟨c, b, q, slot, rfl, rfl, hf, -⟩ := getThisPage_ok h hg
  simp only [data, hf.entry] at hr
  obtain ⟨t, ht, hseek⟩ := Option.bind_eq_some_iff.mp hr
  cases pages with
  | nil =>
    -- behind the last page there is no page to fetch
    obtain rfl : page = -1 := hp
    exact absurd hf.valid.1 (by decide)
  | cons first rest =>
    obtain ⟨p, ts⟩ := first
    obtain ⟨rfl, b', hb', -, hget, -⟩ := hp
    obtain rfl := Option.some.inj (hb'.symm.trans (hf.contents_eq h))
    have hslot : (slotPtr 0).toNat = 0 := by decide
    rw [hslot, hget, Option.some.injEq] at ht
    rw [firstTuple, List.head?_cons, Option.bind_some, List.head?_eq_getElem?, ht]
    exact (seek_eq_some hseek).1

/-- No scan of any table returns its matching records and then the end, since the end is never
returned; and where the first tuple does not satisfy the criteria, `next` never returns at all. -/
theorem scan_never_right {P : ℤ → Prop} {l : List ℤ} {firstPage : ℤ}
    {pages : List (ℤ × List (List UInt8))} (it : TableIterator V) (h : Served P s l)
    (hp : Linked s firstPage pages) : ¬ it.ScansRight s firstPage pages ∧
      (it.fit (firstTuple pages) ≠ some true →
        ∀ rounds r u, it.next rounds ⟨firstPage, 0⟩ s ≠ .ok (some r) u) := by
  constructor
  · rintro ⟨t, h⟩
    have hend : «end» = ⟨firstPage, 0⟩ := calls_eq_now h «end» (by simp)
    cases hend
  · exact fun hfit rounds r u hn => hfit (next_first h hp hn)

/-- A table file of two pages; page 1, the last page of its table, has one tuple of one byte. -/
def scanned : ByteFile where
  size := 3 * 4096
  byte i :=
    (List.lookup i
      [(0, 255), (1, 255), (2, 255), (3, 255), (4, 2),
        (4096, 254), (4097, 255), (4098, 255), (4099, 255),
        (8192, 254), (8193, 255), (8194, 255), (8195, 255), (8196, 255), (8197, 255), (8198, 255),
        (8199, 255), (8200, 1), (8204, 2), (8208, 235), (8209, 15), (8212, 235), (8213, 15),
        (12287, 7)]).getD 0

def scannedHandle : FileHandle :=
  ⟨3, ⟨-1, 2⟩, true, false,
    new 1 (fun _ => ⟨false, 0, 0, fun _ => 0, 0⟩) fun _ => some scanned⟩

theorem served_scanned : Served (fun _ => False) scannedHandle [] :=
  (served_twoPages (f := scanned) rfl rfl (by decide +kernel) (by decide +kernel)
    (by decide +kernel) (by decide +kernel)).2

theorem linked_scanned : Linked scannedHandle 1 [(1, [[7]])] := by
  have hpage : ((scannedHandle.contents 1).any fun b =>
      TableFormat.count (pageData b) = 1 ∧ TableFormat.get (pageData b) 0 = some (some [7]) ∧
        (pageData b).getInt32 0 = -1) = true := by
    decide +kernel
  obtain ⟨b, hb, hp⟩ := (Option.any_eq_true _ _).mp hpage
  obtain ⟨hcount, hget, hlink⟩ := of_decide_eq_true hp
  refine ⟨rfl, b, hb, hcount, fun i => ?_, hlink⟩
  cases i with
  | zero => exact hget
  | succ i =>
    rw [TableFormat.get, if_pos (by omega)]
    rfl

/-- A criterion that the only tuple of the table does not satisfy. -/
theorem scan_never_right_no_match : ¬ ∃ rounds r u,
    (⟨fun t => [t], [⟨[97], 0, 1, false⟩], [⟨⟨[97], 0, 1, false⟩, fun v => some (v = [8])⟩]⟩ :
      TableIterator (List UInt8)).next rounds ⟨1, 0⟩ scannedHandle = .ok (some r) u := by
  rintro ⟨rounds, r, u, h⟩
  exact (scan_never_right _ served_scanned linked_scanned).2 (by decide) rounds r u h

/-- Without criteria, the second call should return the end, and it returns the only record
again. -/
theorem scan_not_right : Served (fun _ => False) scannedHandle [] ∧
    Linked scannedHandle 1 [(1, [[7]])] ∧
    ¬ (⟨fun t => [t], [], []⟩ : TableIterator (List UInt8)).ScansRight scannedHandle 1
      [(1, [[7]])] := by
  refine ⟨served_scanned, linked_scanned, ?_⟩
  rintro ⟨t, h⟩
  have hend : «end» = ⟨1, 0⟩ := calls_eq_now h «end» (by simp)
  cases hend

end TableIterator

end AlphaDb.Table
