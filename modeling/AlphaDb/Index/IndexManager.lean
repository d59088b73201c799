import AlphaDb.Lib.ByteMemory
import AlphaDb.Lib.Trace
import AlphaDb.Table.TableFormat

/-! Indices that are closed and opened again (`index/b+tree/index_manager`, `index_handle`). The
tree in memory does what a B+ tree should, and is given by the page of its root, its height and its
answers. -/
namespace AlphaDb.Index

open ByteMemory Trace
open Table (Rid)

structure IndexHeader where
  numPages : BitVec 32
  rootPage : BitVec 32
  pairSize : BitVec 32
  fanout : BitVec 32
  height : BitVec 32
  attrType : BitVec 32
  attrLength : BitVec 32
deriving DecidableEq

def IndexHeader.words (h : IndexHeader) : List (BitVec 32) :=
  [h.numPages, h.rootPage, h.pairSize, h.fanout, h.height, h.attrType, h.attrLength]

structure MemoryTree (K : Type) where
  root : Option ℤ
  height : ℤ
  answer : K → Option Rid

/-- An open index. `pages` counts the pages of its file that are in use. -/
structure IndexHandle (K : Type) where
  header : IndexHeader
  headerChanged : Bool
  tree : MemoryTree K
  pages : ℤ

variable {K : Type} {t t' : MemoryTree K} {h h' : IndexHandle K} {page : List UInt8} {k : K}
  {p : Rid}
  {attrType attrLen numPages : BitVec 32} {stored : ℤ → K → Option Rid}

namespace MemoryTree

def Empty (t : MemoryTree K) : Prop := ∀ k, t.answer k = none

/-- Page 0 is the header page, so no root is there. -/
structure Sound (t : MemoryTree K) : Prop where
  root_eq_none : t.root = none ↔ t.Empty
  height_eq_zero : t.height = 0 ↔ t.Empty
  root_pos : ∀ r ∈ t.root, 0 < r

/-- The constructor of `b_plus_tree`. It does not set `height_`, which has what its memory held;
`stored` is what the pages from a root on answer. -/
def ofHeader (hdr : IndexHeader) (height : ℤ) (stored : ℤ → K → Option Rid) : MemoryTree K :=
  let root := if 0 < hdr.height.toInt then some hdr.rootPage.toInt else none
  { root, height, answer := fun k => root.bind (stored · k) }

variable [DecidableEq K]

/-- A correct insertion; a key that is there stays as it is. -/
structure Inserts (k : K) (p : Rid) (t t' : MemoryTree K) : Prop where
  sound : t'.Sound
  answer : t'.answer = if t.answer k = none then Function.update t.answer k (some p) else t.answer

structure Deletes (k : K) (p : Rid) (t t' : MemoryTree K) : Prop where
  sound : t'.Sound
  answer : t'.answer = if t.answer k = some p then Function.update t.answer k none else t.answer

end MemoryTree

namespace IndexHandle

/-- `allocate_page` leaves the header alone. -/
def allocatePage (h : IndexHandle K) : IndexHandle K := { h with pages := h.pages + 1 }

def disposePage (h : IndexHandle K) : Option (IndexHandle K) :=
  if 0 < h.header.numPages.toInt - 1 then
    some { h with
      header := { h.header with numPages := h.header.numPages - 1 }
      headerChanged := true
      pages := h.pages - 1 }
  else none

def disposePages : ℕ → IndexHandle K → Option (IndexHandle K)
  | 0, h => some h
  | n + 1, h => h.disposePage.bind (disposePages n)

inductive Call (K : Type)
  | insertEntry (k : K) (p : Rid)
  | deleteEntry (k : K) (p : Rid)

variable [DecidableEq K]

/-- A call on an open index. The root page and the height of a new tree go into a copy of the
header; those of a split or a collapsed root into the tree. -/
inductive Step : IndexHandle K → Call K → IndexHandle K → Prop
  | insert {h : IndexHandle K} {k : K} {p : Rid} {t : MemoryTree K} (n : ℕ)
      (hi : MemoryTree.Inserts k p h.tree t) :
      Step h (.insertEntry k p) { allocatePage^[n] h with tree := t }
  | delete {h g : IndexHandle K} {k : K} {p : Rid} {t : MemoryTree K} (n : ℕ)
      (hd : MemoryTree.Deletes k p h.tree t) (hg : disposePages n h = some g) :
      Step h (.deleteEntry k p) { g with tree := t }

end IndexHandle

namespace IndexManager

/-- The loop of `create_index` from `fanout` on; the product is a `size_t`. -/
def lowerFanout (size : ℕ) : ℕ → ℕ
  | 0 => 0
  | fanout + 1 =>
    if (fanout + 1) * size % 2 ^ 64 > 4092 then lowerFanout size fanout else fanout + 1

/-- The header of a new index, for entries of `size` bytes. `num_pages` is not initialised. -/
def newHeader (attrType attrLen numPages : BitVec 32) (size : ℕ) : IndexHeader where
  numPages := numPages
  rootPage := -1
  pairSize := attrLen + 8
  fanout := BitVec.ofNat 32 (lowerFanout size (4092 / size))
  height := 0
  attrType := attrType
  attrLength := attrLen

/-- What `create_index` leaves in page 0, behind the link. -/
def createIndex (attrType attrLen numPages : BitVec 32) : Option (List UInt8) :=
  let size := (8 + attrLen.signExtend 64).toNat
  if size = 0 then none
  else copyTo (List.replicate 4092 0) 0 (words (newHeader attrType attrLen numPages size).words)

/-- `open_index`, with the memory that the tree is made in and the pages that are in use. -/
def openIndex (page : List UInt8) (height : ℤ) (stored : ℤ → K → Option Rid) (pages : ℤ) :
    Option (IndexHandle K) := do
  let header : IndexHeader :=
    { numPages := ← wordAt page 0
      rootPage := ← wordAt page 1
      pairSize := ← wordAt page 2
      fanout := ← wordAt page 3
      height := ← wordAt page 4
      attrType := ← wordAt page 5
      attrLength := ← wordAt page 6 }
  pure { header, headerChanged := false, tree := .ofHeader header height stored, pages }

/-- `close_index`: the branch for a changed header is empty. -/
def closeIndex (h : IndexHandle K) (page : List UInt8) : List UInt8 :=
  if h.headerChanged then page else page

/-- The index comes back as it was closed: its root page, height and page count are in the header,
and the tree that is made from it is the old one. -/
def Survives (page : List UInt8) (h : IndexHandle K) (height : ℤ) (stored : ℤ → K → Option Rid) :
    Prop :=
  ∃ h', openIndex (closeIndex h page) height stored h.pages = some h' ∧
    h'.header.rootPage.toInt = h.tree.root.getD (-1) ∧ h'.header.height.toInt = h.tree.height ∧
    h'.header.numPages.toInt = h.pages ∧ h'.tree = h.tree

theorem openIndex_words (hdr : IndexHeader) (rest : List UInt8) (height pages : ℤ) :
    openIndex (words hdr.words ++ rest) height stored pages =
      some ⟨hdr, false, .ofHeader hdr height stored, pages⟩ := by
  have hword (i : ℕ) (w : BitVec 32) (hw : hdr.words[i]? = some w) :
      wordAt (words hdr.words ++ rest) i = some w := wordAt_words hw
  simp only [openIndex, hword 0 _ rfl, hword 1 _ rfl, hword 2 _ rfl, hword 3 _ rfl, hword 4 _ rfl,
    hword 5 _ rfl, hword 6 _ rfl, Option.bind_eq_bind, Option.bind_some, Option.pure_def]

/-- The header of a new index says that there is no root. -/
theorem createIndex_eq_some (hc : createIndex attrType attrLen numPages = some page) :
    ∃ (hdr : IndexHeader) (rest : List UInt8), page = words hdr.words ++ rest ∧
      hdr.rootPage = -1 ∧ hdr.height = 0 ∧ hdr.numPages = numPages := by
  simp only [createIndex] at hc
  generalize (8 + attrLen.signExtend 64).toNat = size at hc
  split at hc
  · cases hc
  · obtain ⟨-, htake⟩ := take_copyTo hc
    rw [List.take_zero, List.nil_append, Nat.zero_add] at htake
    refine ⟨newHeader attrType attrLen numPages size,
      page.drop (words (newHeader attrType attrLen numPages size).words).length, ?_, rfl, rfl, rfl⟩
    conv_lhs => rw [← List.take_append_drop _ page, htake]

/-- Whatever was done to it, a closed index is what it was when it was created. -/
theorem openIndex_closeIndex (hc : createIndex attrType attrLen numPages = some page)
    (h : IndexHandle K) (height : ℤ) (stored : ℤ → K → Option Rid) (pages : ℤ) :
    ∃ h', openIndex (closeIndex h page) height stored pages = some h' ∧ h'.header.rootPage = -1 ∧
      h'.header.height = 0 ∧ h'.header.numPages = numPages ∧
      h'.tree = ⟨none, height, fun _ => none⟩ := by
  obtain ⟨hdr, rest, rfl, hroot, hheight, hnum⟩ := createIndex_eq_some hc
  have hclose : closeIndex h (words hdr.words ++ rest) = words hdr.words ++ rest := ite_self _
  rw [hclose, openIndex_words]
  refine ⟨_, rfl, hroot, hheight, hnum, ?_⟩
  simp [MemoryTree.ofHeader, hheight]

/-- In the tree of a handle, the answers say whether there is a root. -/
theorem sound_step [DecidableEq K] : TrInv (IndexHandle.Step (K := K)) fun h => h.tree.Sound := by
  intro h c h' hs _
  cases hs with
  | insert n hi => exact hi.sound
  | delete n hd => exact hd.sound

/-- What `open_index` makes of a new index, where `height_` happens to be 0, is a sound tree. -/
theorem sound_openIndex (hc : createIndex attrType attrLen numPages = some page) {pages : ℤ}
    (ho : openIndex page 0 stored pages = some h) : h.tree.Sound := by
  obtain ⟨h', ho', -, -, -, htree⟩ := openIndex_closeIndex hc h 0 stored pages
  have hclose : closeIndex h page = page := ite_self _
  rw [hclose, ho] at ho'
  cases ho'
  rw [htree]
  constructor
  · simp [MemoryTree.Empty]
  · simp [MemoryTree.Empty]
  · simp

/-- A tree of one leaf with the pair `5`, `⟨1, 0⟩`, on page 1. -/
def onePair : MemoryTree ℤ := ⟨some 1, 1, Function.update (fun _ => none) 5 (some ⟨1, 0⟩)⟩

theorem onePair_sound : onePair.Sound := by
  have hne : ¬ onePair.Empty := fun h => by simpa [onePair] using h 5
  constructor
  · exact iff_of_false (by simp [onePair]) hne
  · exact iff_of_false (by simp [onePair]) hne
  · simp [onePair]

theorem createIndex_four : ∃ page, createIndex 0 4 1 = some page := by
  have hsome : (createIndex 0 4 1).isSome = true := by decide +kernel
  exact Option.isSome_iff_exists.mp hsome

/-- Into a new index, which has no page but its header page, a pair is inserted. -/
theorem insert_into_new : ∃ page h₀ h, createIndex 0 4 1 = some page ∧
    openIndex page 0 (fun _ _ => none) 1 = some h₀ ∧
    MTr IndexHandle.Step h₀ [.insertEntry (5 : ℤ) ⟨1, 0⟩] h ∧ h.tree = onePair ∧ h.pages = 2 := by
  obtain ⟨page, hc⟩ := createIndex_four
  obtain ⟨hdr, rest, rfl, -, hheight, -⟩ := createIndex_eq_some hc
  refine ⟨_, _, _, hc, openIndex_words .., .single (.insert 1 (t := onePair) ⟨onePair_sound, ?_⟩),
    rfl, rfl⟩
  simp [MemoryTree.ofHeader, hheight, onePair]

end IndexManager

end AlphaDb.Index
