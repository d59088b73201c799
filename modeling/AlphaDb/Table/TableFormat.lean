import AlphaDb.Lib.BlockCopy
import AlphaDb.Lib.ByteMemory

/-! Slotted table pages (`table/table_format`), as the 4092 bytes behind the link of a page: the
header, the slot array behind it, and the tuples from the end on. A call returns nothing where the
source leaves the page. -/
namespace AlphaDb.Table

/-- A record by its page and the slot there (`table/rid`). -/
structure Rid where
  page : ℤ
  slot : ℤ
deriving DecidableEq

/-- The value of a new `rid`. -/
def Rid.null : Rid := ⟨-1, -1⟩

namespace TableFormat

variable {d : Block 4092} {t : List UInt8} {ts : List (List UInt8)}
  {cmp : List UInt8 → List UInt8 → ℤ}

def indexPageSize : ℤ := 4076

/-- The place of the slot array. -/
def base : ℤ := 16

def «end» : ℤ := base - 4 - 16 + 4096

def count (d : Block 4092) : ℤ := d.getInt32 4

def freeLower (d : Block 4092) : ℤ := d.getInt32 8

def freeUpper (d : Block 4092) : ℤ := d.getInt32 12

/-- `offsets[i]`. Below the first slot there is the header. -/
def offsets (d : Block 4092) (i : ℤ) : Option ℤ := d.getUInt16 (base + 2 * i)

/-- `free_lower += lower; free_upper += upper; count += n` on the header. -/
def addHdr (d : Block 4092) (n lower upper : ℤ) : Block 4092 :=
  let d := d.putInt32 8 (freeLower d + lower)
  let d := d.putInt32 12 (freeUpper d + upper)
  d.putInt32 4 (count d + n)

def freeSpace (d : Block 4092) : ℤ := freeUpper d - freeLower d

def get (d : Block 4092) (ptr : ℕ) : Option (Option (List UInt8)) :=
  if count d ≤ ptr then some none
  else do
    let len ←
      if ptr = 0 then do pure (indexPageSize - (← offsets d 0))
      else do pure ((← offsets d (ptr - 1)) - (← offsets d ptr))
    let a ← d.bytes (base + (← offsets d ptr)) (len % 2 ^ 16)
    pure (some a)

/-- The loop of `find`, with `j - 9` for `i`: it counts down, and nine slots below the first one the
page ends. -/
def findFrom (cmp : List UInt8 → List UInt8 → ℤ) (d : Block 4092) (t : List UInt8) :
    ℕ → Option ℤ
  | 0 => none
  | j + 1 =>
    let i : ℤ := j - 8
    if i < count d then do
      let offset ← offsets d i
      let len ←
        if i = 0 then pure (indexPageSize - offset)
        else do pure ((← offsets d (i - 1)) - (← offsets d i))
      let tt ← d.bytes (base + offset) len
      if cmp tt t < 0 then pure i else findFrom cmp d t j
    else some (-1)

def find (cmp : List UInt8 → List UInt8 → ℤ) (d : Block 4092) (t : List UInt8) : Option ℤ :=
  findFrom cmp d t 9

/-- The slot array and the tuples with a new tuple behind all others. -/
def putLast (d : Block 4092) (t : List UInt8) : Option (Block 4092) := do
  let dest := base + (← offsets d (count d - 1)) - t.length
  let d ← d.copyIn dest t
  d.copyIn (base + count d * 2) (ByteMemory.leBytes 4 ((dest - base) % 2 ^ 32).toNat)

/-- The slot array and the tuples with a new tuple before others. -/
def putBefore (d : Block 4092) (t : List UInt8) (i : ℤ) : Option (Block 4092) := do
  let last ← offsets d (count d - 1)
  let moveEndTuple := base + last - t.length
  let d ← d.move moveEndTuple (base + last) (last - (← offsets d (i - 1)))
  let d ← d.copyIn (base + (← offsets d i)) t
  let d ← d.move (base + (i + 1) * 2) (base + i * 2) ((count d - i) * 2)
  d.copyIn (base + i * 2) (ByteMemory.leBytes 2 ((moveEndTuple - base) % 2 ^ 16).toNat)

/-- `put`, with the slot or -1. The size that is needed is an `int`. -/
def put (cmp : List UInt8 → List UInt8 → ℤ) (d : Block 4092) (t : List UInt8) :
    Option (Block 4092 × ℤ) :=
  let need := (BitVec.ofNat 32 (2 + t.length)).toInt
  if need > freeSpace d then some (d, -1)
  else do
    let i ← find cmp d t
    let d ← if i = count d then putLast d t else putBefore d t i
    pure (addHdr d 1 2 (-t.length), i)

/-- The tuples and the slot array without a slot that is not the last one. -/
def closeGap (d : Block 4092) (ptr : ℤ) : Option (Block 4092) := do
  let start := base + (← offsets d ptr)
  let stop ← if ptr - 1 > 0 then do pure (base + (← offsets d (ptr - 1))) else pure «end»
  let d ← d.move stop start (stop - start)
  let startArray := base + (← offsets d (ptr + 1))
  let endArray := base + (← offsets d ptr)
  d.move endArray startArray ((count d - ptr - 1) * 2)

def remove (d : Block 4092) (ptr : ℕ) : Option (Block 4092 × Bool) :=
  if count d ≤ ptr then some (d, false)
  else if ptr = count d - 1 then do
    let freed := (← offsets d (count d - 2)) - (← offsets d (count d - 1))
    pure (addHdr d (-1) (-2) freed, true)
  else do
    let d ← closeGap d ptr
    let freed := (← offsets d (ptr - 1)) - (← offsets d ptr)
    pure (addHdr d (-1) (-2) freed, true)

/-- The page holds these tuples in these slots, in the order of the comparator, and the free space
is what they and their slots leave. -/
structure Represents (cmp : List UInt8 → List UInt8 → ℤ) (d : Block 4092)
    (ts : List (List UInt8)) : Prop where
  count_eq : count d = ts.length
  get_eq : ∀ ptr, get d ptr = some ts[ptr]?
  sorted : ts.Pairwise fun a b => cmp a b ≤ 0
  space : freeSpace d = indexPageSize - (2 * ts.length + (ts.map List.length).sum)

inductive PageCall
  | put (t : List UInt8)
  | remove (ptr : UInt16)
  deriving DecidableEq, Repr

/-- What a page with these tuples should do under a sequence of calls: a tuple that fits is inserted
at the slot that is returned, one that does not is refused, and a slot that is there is deleted. -/
def Conforms (cmp : List UInt8 → List UInt8 → ℤ) (d : Block 4092) (ts : List (List UInt8)) :
    List PageCall → Prop
  | [] => Represents cmp d ts
  | .put t :: calls => Represents cmp d ts ∧ ∃ d' r, put cmp d t = some (d', r) ∧
    if freeSpace d < 2 + t.length then r = -1 ∧ d' = d ∧ Conforms cmp d' ts calls
    else ∃ i ≤ ts.length, r = i ∧ Conforms cmp d' (ts.insertIdx i t) calls
  | .remove ptr :: calls => Represents cmp d ts ∧ ∃ d' r, remove d ptr.toNat = some (d', r) ∧
    if ptr.toNat < ts.length then r = true ∧ Conforms cmp d' (ts.eraseIdx ptr.toNat) calls
    else r = false ∧ d' = d ∧ Conforms cmp d' ts calls

structure IsEmpty (d : Block 4092) : Prop where
  count_eq : count d = 0
  freeLower_eq : freeLower d = 0
  freeUpper_eq : freeUpper d = indexPageSize

/-- A tuple whose size, as an `int`, is more than a whole page. -/
def TooLong (t : List UInt8) : Prop := indexPageSize < (BitVec.ofNat 32 (2 + t.length)).toInt

instance (t : List UInt8) : Decidable (TooLong t) := inferInstanceAs (Decidable (_ < _))

theorem IsEmpty.freeSpace_eq (h : IsEmpty d) : freeSpace d = indexPageSize := by
  rw [freeSpace, h.freeUpper_eq, h.freeLower_eq, sub_zero]

theorem IsEmpty.count_le (h : IsEmpty d) (ptr : ℕ) : count d ≤ ptr := by
  rw [h.count_eq]
  exact Int.natCast_nonneg ptr

theorem IsEmpty.represents (h : IsEmpty d) : Represents cmp d [] := by
  refine ⟨h.count_eq, ?_, .nil, by simp [h.freeSpace_eq]⟩
  intro ptr
  rw [get, if_pos (h.count_le ptr)]
  simp

theorem IsEmpty.remove_eq (h : IsEmpty d) (ptr : ℕ) : remove d ptr = some (d, false) := by
  rw [remove, if_pos (h.count_le ptr)]

theorem IsEmpty.put_of_tooLong (cmp : List UInt8 → List UInt8 → ℤ) (h : IsEmpty d)
    (ht : TooLong t) :
    put cmp d t = some (d, -1) ∧ freeSpace d < 2 + t.length := by
  have hle := ByteMemory.toInt_ofNat_le (2 + t.length)
  unfold TooLong at ht
  rw [← h.freeSpace_eq] at ht
  refine ⟨?_, ?_⟩
  · rw [put, if_pos ht]
  · push_cast at hle
    omega

/-- Below the first slot lie the two halves of `free_upper`. -/
theorem IsEmpty.offsets_below (h : IsEmpty d) :
    offsets d (-1) = some 0 ∧ offsets d (-2) = some indexPageSize := by
  have hupper := h.freeUpper_eq
  have h₀ := Block.byteAt_lt (b := d) 12
  have h₁ := Block.byteAt_lt (b := d) 13
  have h₂ := Block.byteAt_lt (b := d) 14
  have h₃ := Block.byteAt_lt (b := d) 15
  have hhigh : Block.InRange 4092 (base + 2 * -1) 2 := by decide
  have hlow : Block.InRange 4092 (base + 2 * -2) 2 := by decide
  simp only [freeUpper, Block.getInt32, indexPageSize, Nat.reduceAdd] at hupper
  simp only [offsets, Block.getUInt16, if_pos hhigh, if_pos hlow, indexPageSize,
    Option.some.injEq]
  have hpos : (base + 2 * -1).toNat = 14 ∧ (base + 2 * -2).toNat = 12 := by decide
  simp only [hpos, Nat.reduceAdd]
  split at hupper <;> omega

/-- A first tuple goes to slot -1 of an empty page, and the number of bytes to move is negative. -/
theorem IsEmpty.put_of_not_tooLong (h : IsEmpty d) (ht : ¬ TooLong t) : put cmp d t = none := by
  obtain ⟨hlast, hprev⟩ := h.offsets_below
  unfold TooLong at ht
  rw [← h.freeSpace_eq] at ht
  have hfind : find cmp d t = some (-1) := by
    simp [find, findFrom, h.count_eq]
  have hbefore : putBefore d t (-1) = none := by
    have hmove : d.move (base + 0 - t.length) (base + 0) (0 - indexPageSize) = none :=
      Block.move_eq_none_of_neg (by decide)
    simp only [putBefore, h.count_eq, zero_sub, hlast, Option.bind_eq_bind, Option.bind_some]
    rw [show (-1 - 1 : ℤ) = -2 by decide, hprev, Option.bind_some]
    rw [← zero_sub indexPageSize, hmove, Option.bind_none]
  rw [put, if_neg ht]
  simp [hfind, h.count_eq, hbefore]

theorem IsEmpty.conforms_put (h : IsEmpty d) (calls : List PageCall) :
    Conforms cmp d [] (.put t :: calls) ↔ TooLong t ∧ Conforms cmp d [] calls := by
  constructor
  · rintro ⟨-, d', r, hput, hrest⟩
    by_cases ht : TooLong t
    · obtain ⟨hput', hspace⟩ := h.put_of_tooLong cmp ht
      rw [if_pos hspace] at hrest
      exact ⟨ht, hrest.2.1 ▸ hrest.2.2⟩
    · rw [h.put_of_not_tooLong ht] at hput
      cases hput
  · rintro ⟨ht, hrest⟩
    obtain ⟨hput, hspace⟩ := h.put_of_tooLong cmp ht
    refine ⟨h.represents, d, -1, hput, ?_⟩
    rw [if_pos hspace]
    exact ⟨rfl, rfl, hrest⟩

theorem IsEmpty.conforms_remove (h : IsEmpty d) (ptr : UInt16) (calls : List PageCall) :
    Conforms cmp d [] (.remove ptr :: calls) ↔ Conforms cmp d [] calls := by
  have hno : ¬ ptr.toNat < ([] : List (List UInt8)).length := by simp
  constructor
  · rintro ⟨-, d', r, hremove, hrest⟩
    rw [if_neg hno] at hrest
    exact hrest.2.1 ▸ hrest.2.2
  · intro hrest
    refine ⟨h.represents, d, false, h.remove_eq _, ?_⟩
    rw [if_neg hno]
    exact ⟨rfl, rfl, hrest⟩

/-- An empty page does what it should under a sequence of calls exactly if it refuses every tuple
of the sequence. -/
theorem conforms_iff (h : IsEmpty d) (calls : List PageCall) :
    Conforms cmp d [] calls ↔ ∀ t, .put t ∈ calls → TooLong t := by
  induction calls with
  | nil =>
    constructor
    · intro _ t ht
      cases ht
    · intro _
      exact h.represents
  | cons call calls ih =>
    cases call with
    | put t =>
      rw [h.conforms_put, ih]
      simp
    | remove ptr =>
      rw [h.conforms_remove, ih]
      simp

/-- A page as the source takes it to be when empty. -/
def emptyPage : Block 4092 := Block.putInt32 (fun _ => 0) 12 indexPageSize

theorem isEmpty_emptyPage : IsEmpty emptyPage := by
  refine ⟨by decide +kernel, by decide +kernel, by decide +kernel⟩

/-- One tuple of one byte, for an empty page. -/
theorem not_conforms_put_one : ¬ Conforms (fun _ _ => 0) emptyPage [] [.put [7]] := by
  rw [isEmpty_emptyPage.conforms_put]
  rintro ⟨ht, -⟩
  exact absurd ht (by decide)

theorem conforms_refused : IsEmpty emptyPage ∧
    Conforms (fun _ _ => 0) emptyPage [] [.remove 0, .put (List.replicate 5000 7), .remove 3] := by
  refine ⟨isEmpty_emptyPage, (conforms_iff isEmpty_emptyPage _).mpr ?_⟩
  intro t ht
  rcases ht with _ | ⟨_, _ | ⟨_, _ | ⟨_, ⟨⟩⟩⟩⟩
  rw [TooLong, List.length_replicate]
  decide

end TableFormat

end AlphaDb.Table
