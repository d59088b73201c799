import AlphaDb.Index.IndexFormat

/-! The bytes of an index page (`index/b+tree/index_format`), as the 4092 bytes behind the link of a
page: the header, then the rids from `base` on, then the keys. A call returns nothing where the
source leaves the page. -/
namespace AlphaDb.Index

open Block

structure IndexPageHdr where
  count : ℤ
  fanout : ℤ
  freeStart : ℤ
  freeSpace : ℤ
deriving DecidableEq

/-- The header after `n` entries have come, or gone. -/
def IndexPageHdr.add (h : IndexPageHdr) (n : ℤ) : IndexPageHdr :=
  { h with count := h.count + n, freeStart := h.freeStart + 12 * n,
           freeSpace := h.freeSpace - 12 * n }

/-- A rid and a key of a page, byte for byte. -/
structure PageEntry where
  id : Block 8
  key : Block 4
deriving DecidableEq

/-- An `index_format`: the page that `base` leads into, the place of `keys`, and `hdr`. -/
structure IndexPage where
  data : Block 4092
  keys : ℤ
  hdr : IndexPageHdr

/-- A page, and the ranges of it that a call has written, by place and length. -/
structure WrittenPage where
  data : Block 4092
  written : List (ℤ × ℤ)

namespace WrittenPage

def memmove (m : WrittenPage) (dest src len : ℤ) : Option WrittenPage :=
  (m.data.move dest src len).map fun d => ⟨d, (dest, len) :: m.written⟩

def memcpy (m : WrittenPage) (dest : ℤ) (a : List UInt8) : Option WrittenPage :=
  (m.data.copyIn dest a).map fun d => ⟨d, (dest, a.length) :: m.written⟩

end WrittenPage

namespace IndexPage

/-- What a call leaves behind: the page, its answer, and the ranges it wrote. -/
abbrev Outcome := IndexPage × Bool × List (ℤ × ℤ)

def base : ℤ := 16

def ridSize : ℤ := 8

def defaultKeySize : ℤ := 4

variable {K : Type*} [LinearOrder K] (value : Block 4 → K)

/-- `keys[mid]` is the key that the layout has at place `mid`, and `value` is what the comparator
makes of its bytes. -/
def findInLeaf (p : IndexPage) (key : Block 4) : Option ℤ :=
  BinarySearch.search
    (fun mid => (p.data.bytes (p.keys + defaultKeySize * mid) defaultKeySize).map fun a =>
      cmp (value fun i => a.getD i 0) (value key))
    0 (p.hdr.count - 2)

def insert (p : IndexPage) (key : Block 4) (id : Block 8) : Option Outcome := do
  let i ← findInLeaf value p key
  if i ≠ -1 then return (p, false, [])
  let n := p.hdr.count
  let len := defaultKeySize * n + ridSize * (n - i)
  let m : WrittenPage := ⟨p.data, []⟩
  let m ← m.memmove (base + (i + 1) * ridSize) (base + i * ridSize) len
  let m ← m.memcpy (base + i * ridSize) (List.ofFn id)
  let keys := p.keys + ridSize
  let len2 := defaultKeySize * (n - i)
  let m ← m.memmove (keys + len2) (keys + len2 + defaultKeySize) len2
  let m ← m.memcpy (keys + len2) (List.ofFn key)
  return (⟨m.data, keys, p.hdr.add 1⟩, true, m.written)

/-- Both `remove`s from the check on. What moves down onto the rid lies at `remove_key_begin`. -/
def removeEntry (p : IndexPage) (i : ℤ) : Option Outcome := do
  let n := p.hdr.count
  let removeKeyEnd := base + ridSize * n + defaultKeySize * i
  let removeKeyBegin := base + ridSize * n + defaultKeySize * (i + 1)
  let m : WrittenPage := ⟨p.data, []⟩
  let m ← m.memmove removeKeyEnd removeKeyBegin (defaultKeySize * (n - i - 1))
  let removeRidEnd := base + ridSize * i
  let len := defaultKeySize * (n - 1) + ridSize * (n - i - 1)
  let m ← m.memmove removeRidEnd removeKeyBegin len
  return (⟨m.data, p.keys, p.hdr.add (-1)⟩, true, m.written)

/-- `remove(int)` -/
def removeAt (p : IndexPage) (index : ℤ) : Option Outcome :=
  if p.hdr.count ≤ index then some (p, false, []) else p.removeEntry index

/-- `remove(key_t, rid)` -/
def remove (p : IndexPage) (key : Block 4) (_id : Block 8) : Option Outcome := do
  let i ← findInLeaf value p key
  if i = -1 then return (p, false, []) else p.removeEntry i

inductive Call
  | insert (key : Block 4) (id : Block 8)
  | removeAt (index : ℤ)
  | remove (key : Block 4) (id : Block 8)

def call (p : IndexPage) : Call → Option Outcome
  | .insert key id => p.insert value key id
  | .removeAt index => p.removeAt index
  | .remove key id => p.remove value key id

/-- Entry `j` of a page of `n`. -/
def entry (d : Block 4092) (n j : ℕ) : PageEntry :=
  ⟨d.sub (16 + 8 * j) 8, d.sub (16 + 8 * n + 4 * j) 4⟩

/-- The first `n` rids with the `n` keys behind them. -/
def entriesOf (d : Block 4092) (n : ℕ) : List PageEntry := (List.range n).map (entry d n)

def entries (p : IndexPage) : List PageEntry := entriesOf p.data p.hdr.count.toNat

/-- The layout: as many rids as `count` says, `keys` behind them, and the keys increase. -/
structure WellFormed (p : IndexPage) : Prop where
  count : 0 ≤ p.hdr.count
  fits : 12 * p.hdr.count ≤ 4076
  keys : p.keys = base + ridSize * p.hdr.count
  sorted : p.entries.Pairwise fun a b => value a.key < value b.key

/-- What a call is to answer, and the entries it is to leave. -/
def expected (p : IndexPage) : Call → Bool × List PageEntry
  | .insert key id =>
    if ∃ e ∈ p.entries, value e.key = value key then (false, p.entries)
    else (true, p.entries.orderedInsert (fun a b => value a.key ≤ value b.key) ⟨id, key⟩)
  | .removeAt index =>
    if 0 ≤ index ∧ index < p.hdr.count then (true, p.entries.eraseIdx index.toNat)
    else (false, p.entries)
  | .remove key _ =>
    if ∃ e ∈ p.entries, value e.key = value key then
      (true, p.entries.eraseP fun e => value e.key = value key)
    else (false, p.entries)

/-- The outcome has the expected answer and entries, a header that went along, no change without an
entry, and nothing written before `base` or past one more entry. -/
structure Agrees (p : IndexPage) (x : Bool × List PageEntry) (r : Outcome) : Prop where
  answer : r.2.1 = x.1
  entries : r.1.entries = x.2
  hdr : r.1.hdr = p.hdr.add (x.2.length - p.entries.length)
  unchanged : x.1 = false → r.1 = p
  written : ∀ w ∈ r.2.2, ∀ pos, w.1 ≤ pos → pos < w.1 + w.2 →
    base ≤ pos ∧ pos < base + 12 * (p.hdr.count + 1)

/-- The call does what it is to do. -/
def Right (p : IndexPage) (c : Call) : Prop :=
  ∃ r, p.call value c = some r ∧ p.Agrees (p.expected value c) r

/-- The place of the first key that moves when entry `i` goes. -/
def removeKeyBegin (p : IndexPage) (i : ℤ) : ℤ :=
  base + ridSize * p.hdr.count + defaultKeySize * (i + 1)

def removeRidBegin (i : ℤ) : ℤ := base + ridSize * (i + 1)

/-- How many bytes move down onto a rid. -/
def moved (p : IndexPage) (i : ℤ) : ℤ :=
  defaultKeySize * (p.hdr.count - 1) + ridSize * (p.hdr.count - i - 1)

/-- The page with the gap in the keys closed, and in the rids not yet. -/
def closeKeys (p : IndexPage) (i : ℤ) : Option (Block 4092) :=
  p.data.move (base + ridSize * p.hdr.count + defaultKeySize * i) (p.removeKeyBegin i)
    (defaultKeySize * (p.hdr.count - i - 1))

/-- The bytes that move down onto the rid are those from `remove_rid_begin` on. -/
def SameBytes (p : IndexPage) (i : ℤ) : Prop :=
  ∃ d, p.closeKeys i = some d ∧
    d.bytes (p.removeKeyBegin i) (p.moved i) = d.bytes (removeRidBegin i) (p.moved i)

/-- A key that is in the page but not its last one is refused; an entry goes without harm when what
moves down onto its rid is the same from either place. -/
def Harmless (p : IndexPage) : Call → Prop
  | .insert key _ => ∃ j : ℕ, j + 1 < p.hdr.count ∧
      value (entry p.data p.hdr.count.toNat j).key = value key
  | .removeAt index => p.hdr.count ≤ index ∨ 0 ≤ index ∧ p.SameBytes index
  | .remove key _ => (∀ e ∈ p.entries, value e.key ≠ value key) ∨
      ∃ j : ℕ, j + 1 < p.hdr.count ∧
        value (entry p.data p.hdr.count.toNat j).key = value key ∧ p.SameBytes j

variable {p : IndexPage} {d d' : Block 4092} {m n i : ℕ} {key : Block 4} {id : Block 8}
  {r : Outcome} {c : Call} {value}

@[simp] theorem length_entriesOf : (entriesOf d n).length = n := by simp [entriesOf]

theorem entry_eq_entry_iff {j : ℕ} : entry d' m i = entry d n j ↔
    (∀ k < 8, d'.byteAt (16 + 8 * i + k) = d.byteAt (16 + 8 * j + k)) ∧
      ∀ k < 4, d'.byteAt (16 + 8 * m + 4 * i + k) = d.byteAt (16 + 8 * n + 4 * j + k) := by
  rw [entry, entry, PageEntry.mk.injEq, sub_eq_sub_iff, sub_eq_sub_iff]

/-- Where a byte of a page of `m` entries lies in the page of `m + 1` that still has entry `i`. -/
def skip (m i x : ℕ) : ℕ :=
  if x < 8 * i then x else if x < 8 * m + 4 * i then x + 8 else x + 12

theorem skip_rid {j k : ℕ} (hj : j < m) (hk : k < 8) :
    16 + skip m i (8 * j + k) = 16 + 8 * (if j < i then j else j + 1) + k := by
  unfold skip
  split_ifs <;> omega

theorem skip_key {j k : ℕ} (hi : i ≤ m) (hk : k < 4) : 16 + skip m i (8 * m + 4 * j + k) =
    16 + 8 * (m + 1) + 4 * (if j < i then j else j + 1) + k := by
  unfold skip
  split_ifs <;> omega

theorem eraseIdx_entriesOf (hi : i ≤ m) : (entriesOf d (m + 1)).eraseIdx i =
    (List.range m).map fun j => entry d (m + 1) (if j < i then j else j + 1) := by
  apply List.ext_getElem
  · rw [List.length_eraseIdx_of_lt (by simpa using Nat.lt_succ_of_le hi)]
    simp
  · intro j hj hj'
    rw [List.getElem_eraseIdx]
    split
    · next h => simp [entriesOf, h]
    · next h => simp [entriesOf, h]

/-- The entries of a page are those of another without entry `i` when its bytes are. -/
theorem entriesOf_eq_eraseIdx_iff (hi : i ≤ m) :
    entriesOf d' m = (entriesOf d (m + 1)).eraseIdx i ↔
      ∀ x < 12 * m, d'.byteAt (16 + x) = d.byteAt (16 + skip m i x) := by
  rw [eraseIdx_entriesOf hi, entriesOf, List.map_inj_left]
  simp only [List.mem_range, entry_eq_entry_iff]
  constructor
  · intro h x hx
    by_cases hrid : x < 8 * m
    · have hx' := (h (x / 8) (by omega)).1 (x % 8) (by omega)
      rw [← skip_rid (m := m) (by omega) (by omega), Nat.add_assoc, Nat.div_add_mod] at hx'
      exact hx'
    · obtain ⟨y, rfl⟩ := Nat.exists_eq_add_of_le (Nat.le_of_not_lt hrid)
      have hx' := (h (y / 4) (by omega)).2 (y % 4) (by omega)
      rw [← skip_key hi (by omega), Nat.add_assoc, Nat.add_assoc, Nat.add_assoc,
        Nat.div_add_mod] at hx'
      exact hx'
  · intro h j hj
    constructor
    · intro k hk
      rw [← skip_rid hj hk, ← h (8 * j + k) (by omega), Nat.add_assoc]
    · intro k hk
      rw [← skip_key hi hk, ← h (8 * m + 4 * j + k) (by omega), Nat.add_assoc, Nat.add_assoc,
        Nat.add_assoc]

/-- The page that a removal leaves, and what it wrote. -/
theorem removeEntry_eq_some {i : ℤ} : p.removeEntry i = some r ↔ ∃ d d',
    p.closeKeys i = some d ∧
    d.move (base + ridSize * i) (p.removeKeyBegin i) (p.moved i) = some d' ∧
    r = (⟨d', p.keys, p.hdr.add (-1)⟩, true,
      [(base + ridSize * i, p.moved i),
        (base + ridSize * p.hdr.count + defaultKeySize * i,
          defaultKeySize * (p.hdr.count - i - 1))]) := by
  constructor
  · intro h
    obtain ⟨m₁, hm₁, h⟩ := Option.bind_eq_some_iff.mp h
    obtain ⟨m₂, hm₂, h⟩ := Option.bind_eq_some_iff.mp h
    obtain ⟨d, hd, rfl⟩ := Option.map_eq_some_iff.mp hm₁
    obtain ⟨d', hd', rfl⟩ := Option.map_eq_some_iff.mp hm₂
    exact ⟨d, d', hd, hd', (Option.some.inj h).symm⟩
  · rintro ⟨d, d', hd, hd', rfl⟩
    simp only [closeKeys, removeKeyBegin, moved] at hd hd' ⊢
    simp [removeEntry, WrittenPage.memmove, hd, hd']

/-- What lies behind entry `i` with the gap in the keys closed. -/
theorem byteAt_closeKeys (hcount : p.hdr.count = m + 1) (hfits : 12 * (m + 1) ≤ 4076)
    (hi : i ≤ m) : ∃ d, p.closeKeys i = some d ∧
      (∀ x < 8 * i, d.byteAt (16 + x) = p.data.byteAt (16 + skip m i x)) ∧
      ∀ x < 12 * m, 8 * i ≤ x → d.byteAt (16 + x + 8) = p.data.byteAt (16 + skip m i x) := by
  have hsrc : InRange 4092 (p.removeKeyBegin i) (defaultKeySize * (p.hdr.count - i - 1)) := by
    simp only [InRange, removeKeyBegin, base, ridSize, defaultKeySize, hcount]
    omega
  have hdest : InRange 4092 (base + ridSize * p.hdr.count + defaultKeySize * i)
      (defaultKeySize * (p.hdr.count - i - 1)) := by
    simp only [InRange, base, ridSize, defaultKeySize, hcount]
    omega
  obtain ⟨d, hd⟩ := exists_move (b := p.data) hsrc hdest
  have hbyte := (move_eq_some hd).2
  simp only [removeKeyBegin, base, ridSize, defaultKeySize, hcount] at hbyte
  refine ⟨d, hd, ?_, ?_⟩
  · intro x hx
    rw [hbyte, if_neg (by omega), skip, if_pos hx]
  · intro x hx hxi
    by_cases hkey : x < 8 * m + 4 * i
    · rw [hbyte, if_neg (by omega), skip, if_neg (by omega), if_pos hkey]
      rfl
    · rw [hbyte, if_pos (by omega), skip, if_neg (by omega), if_neg hkey]
      congr 1
      omega

/-- The entries are right when the bytes that moved are those behind the rid. -/
theorem entriesOf_moved_iff (hcount : p.hdr.count = m + 1) (hfits : 12 * (m + 1) ≤ 4076)
    (hi : i ≤ m) (hd : p.closeKeys i = some d)
    (hd' : d.move (base + ridSize * i) (p.removeKeyBegin i) (p.moved i) = some d') :
    entriesOf d' m = p.entries.eraseIdx i ↔ ∀ k < (p.moved i).toNat,
      d.byteAt ((p.removeKeyBegin i).toNat + k) = d.byteAt ((removeRidBegin i).toNat + k) := by
  obtain ⟨d₁, hd₁, hlow, hhigh⟩ := byteAt_closeKeys hcount hfits hi
  obtain rfl := Option.some.inj (hd₁.symm.trans hd)
  have hlast : p.entries = entriesOf p.data (m + 1) := by
    rw [entries, hcount]
    rfl
  have hbyte := (move_eq_some hd').2
  simp only [removeKeyBegin, removeRidBegin, moved, base, ridSize, defaultKeySize, hcount]
    at hbyte ⊢
  rw [hlast, entriesOf_eq_eraseIdx_iff hi]
  constructor
  · intro h k hk
    have hx := h (8 * i + k) (by omega)
    rw [hbyte, if_pos (by omega), ← hhigh _ (by omega) (by omega)] at hx
    convert hx using 2 <;> omega
  · intro h x hx
    by_cases hxi : x < 8 * i
    · rw [hbyte, if_neg (by omega), hlow x hxi]
    · rw [hbyte, if_pos (by omega), ← hhigh x hx (by omega)]
      have hk := h (x - 8 * i) (by omega)
      convert hk using 2 <;> omega

theorem entries_removed (hcount : p.hdr.count = m + 1) (keys : ℤ) :
    entries ⟨d', keys, p.hdr.add (-1)⟩ = entriesOf d' m := by
  have hm : (p.hdr.add (-1)).count.toNat = m := by
    simp only [IndexPageHdr.add, hcount]
    omega
  rw [entries, hm]

/-- With an entry taken out, the page is right when the bytes agree that should have moved. -/
theorem removeEntry_right_iff (hcount : p.hdr.count = m + 1) (hfits : 12 * (m + 1) ≤ 4076)
    (hi : i ≤ m) :
    (∃ r, p.removeEntry i = some r ∧ r.1.entries = p.entries.eraseIdx i) ↔ p.SameBytes i := by
  have hright : InRange 4092 (removeRidBegin i) (p.moved i) := by
    simp only [InRange, removeRidBegin, moved, base, ridSize, defaultKeySize, hcount]
    omega
  have hdest : InRange 4092 (base + ridSize * i) (p.moved i) := by
    simp only [InRange, moved, base, ridSize, defaultKeySize, hcount]
    omega
  constructor
  · rintro ⟨r, hr, hes⟩
    obtain ⟨d, d', hd, hd', rfl⟩ := removeEntry_eq_some.mp hr
    rw [entries_removed hcount] at hes
    have hbytes := (entriesOf_moved_iff hcount hfits hi hd hd').mp hes
    exact ⟨d, hd, (bytes_eq_bytes_iff hright).mpr ⟨(move_eq_some hd').1.1, hbytes⟩⟩
  · rintro ⟨d, hd, hsame⟩
    obtain ⟨hsrc, hbytes⟩ := (bytes_eq_bytes_iff hright).mp hsame
    obtain ⟨d', hd'⟩ := exists_move (b := d) hsrc hdest
    refine ⟨_, removeEntry_eq_some.mpr ⟨d, d', hd, hd', rfl⟩, ?_⟩
    rw [entries_removed hcount]
    exact (entriesOf_moved_iff hcount hfits hi hd hd').mpr hbytes

theorem agrees_refused (h : p.expected value c = (false, p.entries)) :
    p.Agrees (p.expected value c) (p, false, []) := by
  rw [h]
  exact ⟨rfl, rfl, by simp [IndexPageHdr.add], fun _ => rfl, by simp⟩

/-- Only the entries can be wrong after an entry has been taken out. -/
theorem agrees_removeEntry_iff (hcount : p.hdr.count = m + 1) (hi : i ≤ m) :
    (∃ r, p.removeEntry i = some r ∧ p.Agrees (true, p.entries.eraseIdx i) r) ↔
      ∃ r, p.removeEntry i = some r ∧ r.1.entries = p.entries.eraseIdx i := by
  refine exists_congr fun r => and_congr_right fun hr => ⟨Agrees.entries, fun hes => ?_⟩
  obtain ⟨d, d', -, -, rfl⟩ := removeEntry_eq_some.mp hr
  have hlen : p.entries.length = m + 1 := by
    rw [entries, length_entriesOf]
    omega
  refine ⟨rfl, hes, ?_, by simp, ?_⟩
  · rw [List.length_eraseIdx_of_lt (by omega), hlen]
    simp
  · simp only [List.mem_cons, List.not_mem_nil, or_false, base, ridSize, defaultKeySize, moved,
      hcount]
    rintro w (rfl | rfl) pos hlo hhi
    · dsimp only at hlo hhi
      omega
    · dsimp only at hlo hhi
      omega

/-- The keys of a page increase. -/
theorem WellFormed.key_lt (hp : p.WellFormed value) (hn : p.hdr.count = n) {j : ℕ} (hij : i < j)
    (hj : j < n) : value (entry p.data n i).key < value (entry p.data n j).key := by
  have hsorted := List.pairwise_iff_getElem.mp hp.sorted i j
  simp only [entries, hn, Int.toNat_natCast, length_entriesOf] at hsorted
  simpa [entriesOf] using hsorted (hij.trans hj) hj hij

/-- `find_in_leaf` finds every key but the last. -/
theorem WellFormed.findInLeaf_eq (hp : p.WellFormed value) (hn : p.hdr.count = n)
    (key : Block 4) :
    (∃ j : ℕ, j + 1 < n ∧ value (entry p.data n j).key = value key ∧
      findInLeaf value p key = some (j : ℤ)) ∨
    (∀ j : ℕ, j + 1 < n → value (entry p.data n j).key ≠ value key) ∧
      findInLeaf value p key = some (-1) := by
  have hfits := hp.fits
  have hprobes : BinarySearch.Probes (fun mid =>
      (p.data.bytes (p.keys + defaultKeySize * mid) defaultKeySize).map fun a =>
        cmp (value fun i => a.getD i 0) (value key))
      (fun mid => value (entry p.data n mid.toNat).key) (value key) 0 (p.hdr.count - 2) := by
    refine ⟨?_, ?_⟩
    · intro mid hlo hhi
      have hin : InRange 4092 (p.keys + defaultKeySize * mid) (4 : ℕ) := by
        simp only [InRange, hp.keys, base, ridSize, defaultKeySize]
        omega
      obtain ⟨a, ha⟩ : ∃ a, p.data.bytes (p.keys + defaultKeySize * mid) (4 : ℕ) = some a :=
        ⟨_, bytes_eq_some.mpr ⟨hin, rfl⟩⟩
      have hplace : (p.keys + defaultKeySize * mid).toNat = 16 + 8 * n + 4 * mid.toNat := by
        simp only [hp.keys, base, ridSize, defaultKeySize]
        omega
      have hkey := sub_of_bytes ha
      rw [hplace] at hkey
      show (p.data.bytes _ (4 : ℕ)).map _ = _
      rw [ha, Option.map_some, hkey]
      rfl
    · intro i j hlo hij hhi
      exact hp.key_lt hn (by omega) (by omega)
  rcases hprobes.search_eq with ⟨mid, hlo, hhi, hkey, hs⟩ | ⟨hkey, hs⟩
  · refine .inl ⟨mid.toNat, by omega, hkey, ?_⟩
    rw [findInLeaf, hs, Int.toNat_of_nonneg hlo]
  · refine .inr ⟨?_, hs⟩
    intro j hj
    exact hkey j (by omega) (by omega)

/-- A key that is not found goes past the used area. -/
theorem not_agrees_insert (hp : p.WellFormed value) (x : Bool × List PageEntry)
    (hfind : findInLeaf value p key = some (-1)) (hr : p.insert value key id = some r) :
    ¬ p.Agrees x r := by
  intro h
  have hcount := hp.count
  rw [insert, hfind] at hr
  simp only [Option.bind_eq_bind, Option.bind_some, ne_eq, not_true_eq_false, if_false] at hr
  obtain ⟨m₁, -, hr⟩ := Option.bind_eq_some_iff.mp hr
  obtain ⟨m₂, -, hr⟩ := Option.bind_eq_some_iff.mp hr
  obtain ⟨m₃, hm₃, hr⟩ := Option.bind_eq_some_iff.mp hr
  obtain ⟨m₄, hm₄, hr⟩ := Option.bind_eq_some_iff.mp hr
  obtain ⟨d₃, -, rfl⟩ := Option.map_eq_some_iff.mp hm₃
  obtain ⟨d₄, -, rfl⟩ := Option.map_eq_some_iff.mp hm₄
  obtain rfl := Option.some.inj hr
  have hw := h.written _ (List.mem_cons_of_mem _ List.mem_cons_self)
    (p.keys + ridSize + defaultKeySize * (p.hdr.count - -1)) le_rfl
  simp only [hp.keys, base, ridSize, defaultKeySize] at hw
  omega

theorem mem_entries_of_entry (hn : p.hdr.count = n) {j : ℕ} (hj : j < n) :
    entry p.data n j ∈ p.entries := by
  rw [entries, hn, Int.toNat_natCast]
  exact List.mem_map.mpr ⟨j, List.mem_range.mpr hj, rfl⟩

/-- The first entry with a key is the only one. -/
theorem WellFormed.eraseP_eq (hp : p.WellFormed value) (hn : p.hdr.count = n) {j : ℕ} (hj : j < n)
    (hkey : value (entry p.data n j).key = value key) :
    p.entries.eraseP (fun e => decide (value e.key = value key)) = p.entries.eraseIdx j := by
  have hfirst : p.entries.findIdx? (fun e => decide (value e.key = value key)) = some j := by
    rw [List.findIdx?_eq_some_iff_getElem]
    simp only [entries, hn, Int.toNat_natCast, entriesOf, List.length_map, List.length_range,
      List.getElem_map, List.getElem_range, decide_eq_true_eq]
    refine ⟨hj, hkey, ?_⟩
    intro i hi he
    exact (hp.key_lt hn hi hj).ne (he.trans hkey.symm)
  rw [List.eraseP_eq_eraseIdx, hfirst]

theorem right_insert_iff (hp : p.WellFormed value) :
    p.Right value (.insert key id) ↔ p.Harmless value (.insert key id) := by
  obtain ⟨n, hn⟩ := Int.eq_ofNat_of_zero_le hp.count
  simp only [Harmless, hn, Int.toNat_natCast]
  rcases hp.findInLeaf_eq hn key with ⟨j, hj, hkey, hfind⟩ | ⟨habsent, hfind⟩
  · refine iff_of_true ?_ ⟨j, by exact_mod_cast hj, hkey⟩
    have hmem : ∃ e ∈ p.entries, value e.key = value key :=
      ⟨_, mem_entries_of_entry hn (by omega), hkey⟩
    refine ⟨(p, false, []), ?_, agrees_refused (if_pos hmem)⟩
    rw [call, insert, hfind]
    have hne : (j : ℤ) ≠ -1 := by omega
    simp [hne]
  · refine iff_of_false ?_ ?_
    · rintro ⟨r, hr, hagrees⟩
      exact not_agrees_insert hp _ hfind hr hagrees
    · rintro ⟨j, hj, hkey⟩
      exact habsent j (by exact_mod_cast hj) hkey

theorem exists_agrees_removeEntry_iff (hp : p.WellFormed value) (hi : (i : ℤ) < p.hdr.count) :
    (∃ r, p.removeEntry i = some r ∧ p.Agrees (true, p.entries.eraseIdx i) r) ↔
      p.SameBytes i := by
  obtain ⟨m, hm⟩ : ∃ m : ℕ, p.hdr.count = m + 1 := ⟨(p.hdr.count - 1).toNat, by omega⟩
  have hfits := hp.fits
  rw [agrees_removeEntry_iff hm (by omega), removeEntry_right_iff hm (by omega) (by omega)]

theorem right_removeAt_iff (hp : p.WellFormed value) (index : ℤ) :
    p.Right value (.removeAt index) ↔ p.Harmless value (.removeAt index) := by
  by_cases hge : p.hdr.count ≤ index
  · refine iff_of_true ⟨(p, false, []), if_pos hge, agrees_refused ?_⟩ (.inl hge)
    exact if_neg fun h => absurd h.2 (not_lt.mpr hge)
  · rw [Right, call, removeAt, if_neg hge, Harmless, or_iff_right hge]
    by_cases hneg : 0 ≤ index
    · obtain ⟨i, rfl⟩ := Int.eq_ofNat_of_zero_le hneg
      rw [expected, if_pos ⟨hneg, not_le.mp hge⟩, Int.toNat_natCast,
        exists_agrees_removeEntry_iff hp (not_le.mp hge)]
      exact (and_iff_right hneg).symm
    · refine iff_of_false ?_ fun h => hneg h.1
      rintro ⟨r, hr, hagrees⟩
      have hanswer := hagrees.answer
      rw [expected, if_neg fun h => hneg h.1] at hanswer
      obtain ⟨d, d', -, -, rfl⟩ := removeEntry_eq_some.mp hr
      cases hanswer

theorem right_remove_iff (hp : p.WellFormed value) :
    p.Right value (.remove key id) ↔ p.Harmless value (.remove key id) := by
  obtain ⟨n, hn⟩ := Int.eq_ofNat_of_zero_le hp.count
  rw [Right, call, remove]
  rcases hp.findInLeaf_eq hn key with ⟨j, hj, hkey, hfind⟩ | ⟨habsent, hfind⟩
  · have hmem : ∃ e ∈ p.entries, value e.key = value key :=
      ⟨_, mem_entries_of_entry hn (by omega), hkey⟩
    have hne : (j : ℤ) ≠ -1 := by omega
    rw [hfind, expected, if_pos hmem, hp.eraseP_eq hn (by omega) hkey]
    simp only [Option.bind_eq_bind, Option.bind_some, if_neg hne]
    rw [exists_agrees_removeEntry_iff hp (by omega)]
    simp only [Harmless, hn, Int.toNat_natCast]
    constructor
    · intro h
      exact .inr ⟨j, by omega, hkey, h⟩
    · rintro (habsent | ⟨k, hk, hkey', h⟩)
      · obtain ⟨e, he, heq⟩ := hmem
        exact absurd heq (habsent e he)
      · rcases lt_trichotomy j k with hlt | rfl | hlt
        · exact absurd (hkey.trans hkey'.symm) (hp.key_lt hn hlt (by omega)).ne
        · exact h
        · exact absurd (hkey'.trans hkey.symm) (hp.key_lt hn hlt (by omega)).ne
  · rw [hfind]
    simp only [Option.bind_eq_bind, Option.bind_some, if_true, Harmless, hn, Int.toNat_natCast]
    constructor
    · rintro ⟨r, hr, hagrees⟩
      obtain rfl := Option.some.inj hr
      left
      intro e he hkey
      have hanswer := hagrees.answer
      rw [expected, if_pos ⟨e, he, hkey⟩] at hanswer
      cases hanswer
    · rintro (h | ⟨j, hj, hkey, -⟩)
      · refine ⟨_, rfl, agrees_refused (if_neg ?_)⟩
        rintro ⟨e, he, hkey⟩
        exact h e he hkey
      · exact absurd hkey (habsent j (by omega))

/-- Two entries, with the bytes of the page counting up. -/
def twoEntries : IndexPage := ⟨fun i => UInt8.ofNat i, 32, ⟨2, 4, 24, 4052⟩⟩

def oneEntry : IndexPage := ⟨fun i => UInt8.ofNat i, 24, ⟨1, 4, 12, 4064⟩⟩

def intKey (key : Block 4) : ℤ := key.getInt32 0

theorem twoEntries_wellFormed : twoEntries.WellFormed intKey where
  count := by decide
  fits := by decide
  keys := by decide
  sorted := by decide

end IndexPage

end AlphaDb.Index
