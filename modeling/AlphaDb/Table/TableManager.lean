import AlphaDb.Lib.ByteMemory
import AlphaDb.Table.Row

/-! The header page of a table (`table/table_manager`): the table header and behind it the schema.
A function returns nothing where the source leaves the page or the allocation of a name. -/
namespace AlphaDb.Table

open ByteMemory

/-- `name` has the characters before the terminating zero, `type` the value of the enumerator. -/
structure ColumnDefinition where
  name : List UInt8
  type : BitVec 32
  length : BitVec 64
  nullable : Bool
  deriving DecidableEq, Repr

structure Schema where
  colDefs : List ColumnDefinition
  colNameToId : List UInt8 → Option ℕ

/-- A column that can be added: its name is a C string with at least one character. -/
structure Column where
  name : List UInt8
  type : DataType
  length : BitVec 64
  nullable : Bool
  name_ne_nil : name ≠ []
  zero_notMem : 0 ∉ name

def Column.definition (c : Column) : ColumnDefinition where
  name := c.name
  type := BitVec.ofNat 32 c.type.code
  length := c.length
  nullable := c.nullable

namespace Schema

def empty : Schema := ⟨[], fun _ => none⟩

/-- `push_back` of a definition, and an entry of its name for `id`. -/
def push (s : Schema) (d : ColumnDefinition) (id : ℕ) : Schema where
  colDefs := s.colDefs ++ [d]
  colNameToId := Function.update s.colNameToId d.name (some id)

def addColumn (s : Schema) (c : Column) : Schema := s.push c.definition s.colDefs.length

def ofColumns (cs : List Column) : Schema := cs.foldl addColumn empty

end Schema

namespace TableManager

variable {m dst src : List UInt8} {d : ColumnDefinition} {ds : List ColumnDefinition}
  {s t : Schema} {cs : List Column} {off n i : ℕ}

/-- An `int` from the bytes at `off`. -/
def readInt (src : List UInt8) (off : ℕ) : Option ℤ :=
  (slice src off 4).map fun a => (BitVec.ofNat 32 (leNat a)).toInt

/-- One round of the loop of `write_schema`, with the offset behind the column. -/
def writeColumn (dst : List UInt8) (offset : ℕ) (d : ColumnDefinition) :
    Option (List UInt8 × ℕ) := do
  let namelen := (BitVec.ofNat 32 d.name.length).toInt
  let dst ← copyTo dst offset (leBytes 4 d.name.length)
  let offset := offset + 4
  guard (0 ≤ namelen)
  let dst ← copyTo dst offset (d.name.take namelen.toNat)
  let offset := offset + namelen.toNat
  let dst ← copyTo dst offset (leBytes 4 d.type.toNat)
  let offset := offset + 4
  let dst ← copyTo dst offset (leBytes 8 d.length.toNat)
  let offset := offset + 8
  let dst ← copyTo dst offset [if d.nullable then 1 else 0]
  pure (dst, offset + 1)

def writeColumns (dst : List UInt8) (offset : ℕ) : List ColumnDefinition → Option (List UInt8)
  | [] => some dst
  | d :: ds => do
    let (dst, offset) ← writeColumn dst offset d
    writeColumns dst offset ds

/-- `write_schema`. The offset is still 0 after the number of columns. -/
def writeSchema (dst : List UInt8) (s : Schema) : Option (List UInt8) := do
  let size := (BitVec.ofNat 32 s.colDefs.length).toInt
  let dst ← copyTo dst 0 (leBytes 4 s.colDefs.length)
  writeColumns dst 0 (s.colDefs.take size.toNat)

/-- One round of the loop of `read_schema`. The name is in an allocation of its own, and is used as
a C string there. -/
def readColumn (src : List UInt8) (offset : ℕ) : Option (ColumnDefinition × ℕ) := do
  let len ← readInt src offset
  let offset := offset + 4
  guard (0 ≤ len)
  let name ← slice src offset len.toNat
  guard (0 ∈ name)
  let offset := offset + len.toNat
  let type ← slice src offset 4
  let offset := offset + 4
  let length ← slice src offset 8
  let offset := offset + 8
  let nullable ← slice src offset 1
  pure (⟨Row.cString name, BitVec.ofNat 32 (leNat type), BitVec.ofNat 64 (leNat length),
    leNat nullable ≠ 0⟩, offset + 1)

/-- The loop of `read_schema` from column `i` on, with the number of rounds left. -/
def readColumns (src : List UInt8) : ℕ → ℕ → ℕ → Schema → Option Schema
  | 0, _, _, s => some s
  | n + 1, i, offset, s => do
    let (d, offset) ← readColumn src offset
    readColumns src n (i + 1) offset (s.push d i)

def readSchema (src : List UInt8) (s : Schema) : Option Schema := do
  let size ← readInt src 0
  readColumns src size.toNat 0 4 s

structure TableHeader where
  firstFree : BitVec 32
  firstPage : BitVec 32
  numPages : BitVec 32
  deriving DecidableEq, Repr

def TableHeader.bytes (h : TableHeader) : List UInt8 :=
  leBytes 4 h.firstFree.toNat ++ leBytes 4 h.firstPage.toNat ++ leBytes 4 h.numPages.toNat

/-- What `create_table` leaves in the header page, behind the link: the page is new, so it was all
zeros. `first_page` is not initialised. -/
def createTable (firstPage : BitVec 32) (s : Schema) : Option (List UInt8) := do
  let data ← copyTo (List.replicate 4092 0) 0 (TableHeader.bytes ⟨-1, firstPage, 1⟩)
  let area ← writeSchema (data.drop 12) s
  pure (data.take 12 ++ area)

/-- What `open_table` takes from the header page. -/
def openTable (data : List UInt8) : Option (TableHeader × Schema) := do
  let firstFree ← slice data 0 4
  let firstPage ← slice data 4 4
  let numPages ← slice data 8 4
  let s ← readSchema (data.drop 12) .empty
  pure (⟨BitVec.ofNat 32 (leNat firstFree), BitVec.ofNat 32 (leNat firstPage),
    BitVec.ofNat 32 (leNat numPages)⟩, s)

/-- The characters of a name that are written: its length is an `int`. -/
def nameBytes (d : ColumnDefinition) : List UInt8 :=
  d.name.take (BitVec.ofNat 32 d.name.length).toInt.toNat

def columnBytes (d : ColumnDefinition) : List UInt8 :=
  leBytes 4 d.name.length ++ nameBytes d ++ leBytes 4 d.type.toNat ++ leBytes 8 d.length.toNat ++
    [if d.nullable then 1 else 0]

theorem length_nameBytes (d : ColumnDefinition) :
    (nameBytes d).length = (BitVec.ofNat 32 d.name.length).toInt.toNat := by
  rw [nameBytes, List.length_take]
  exact Nat.min_eq_left (Int.toNat_le.mpr (ByteMemory.toInt_ofNat_le _))

theorem writeColumn_eq_some (h : writeColumn dst off d = some (m, n)) :
    copyTo dst off (columnBytes d) = some m ∧ n = off + (columnBytes d).length := by
  simp only [writeColumn, Option.bind_eq_bind, Option.bind_eq_some_iff, Option.pure_def,
    Option.some.injEq, Prod.mk.injEq] at h
  obtain ⟨m₁, h₁, -, -, m₂, h₂, m₃, h₃, m₄, h₄, m₅, h₅, rfl, rfl⟩ := h
  have hlen := length_nameBytes d
  constructor
  · simp only [columnBytes, ← copyTo_append, h₁, Option.bind_some, List.length_append,
      length_leBytes, hlen]
    rw [nameBytes, h₂]
    simp only [Option.bind_some, ← Nat.add_assoc]
    rw [h₃]
    simp only [Option.bind_some]
    rw [h₄]
    exact h₅
  · simp [columnBytes, hlen]
    omega

/-- The columns are written from `off` on, and the bytes before stay. -/
theorem take_writeColumns (h : writeColumns dst off ds = some m) (hoff : off ≤ dst.length) :
    m.take off = dst.take off ∧ m.length = dst.length := by
  induction ds generalizing dst off with
  | nil =>
    obtain rfl := Option.some.inj h
    exact ⟨rfl, rfl⟩
  | cons d ds ih =>
    simp only [writeColumns, Option.bind_eq_bind, Option.bind_eq_some_iff, Prod.exists] at h
    obtain ⟨m', n, hd, hrest⟩ := h
    obtain ⟨hcopy, rfl⟩ := writeColumn_eq_some hd
    obtain ⟨hle, htake⟩ := take_copyTo hcopy
    obtain ⟨hsame, hlen⟩ := ih hrest hle
    refine ⟨?_, hlen.trans (length_copyTo hcopy)⟩
    have hih := congrArg (List.take off) (hsame.trans htake)
    rwa [List.take_take, Nat.min_eq_left (Nat.le_add_right ..),
      List.take_append_of_le_length (by simp [hoff]), List.take_take, Nat.min_self] at hih

/-- With a column to write, the page starts with the bytes of that column: the number of columns
is gone. -/
theorem take_writeSchema (hs : s.colDefs = d :: ds)
    (hsize : (BitVec.ofNat 32 s.colDefs.length).toInt.toNat ≠ 0)
    (h : writeSchema dst s = some m) :
    m.take (columnBytes d).length = columnBytes d ∧ m.length = dst.length := by
  simp only [writeSchema, Option.bind_eq_bind, Option.bind_eq_some_iff] at h
  obtain ⟨m₀, h₀, h⟩ := h
  obtain ⟨k, hk⟩ := Nat.exists_eq_succ_of_ne_zero hsize
  rw [hk, hs, List.take_succ_cons] at h
  simp only [writeColumns, Option.bind_eq_bind, Option.bind_eq_some_iff, Prod.exists] at h
  obtain ⟨m', n, hd, hrest⟩ := h
  obtain ⟨hcopy, rfl⟩ := writeColumn_eq_some hd
  obtain ⟨hle, htake⟩ := take_copyTo hcopy
  obtain ⟨hsame, hlen⟩ := take_writeColumns hrest hle
  refine ⟨?_, ?_⟩
  · simpa using hsame.trans htake
  · rw [hlen, length_copyTo hcopy, length_copyTo h₀]

theorem readColumns_eq_some (h : readColumns src n i off s = some t) :
    t.colDefs.length = s.colDefs.length + n ∧ s.colDefs <+: t.colDefs := by
  induction n generalizing i off s with
  | zero =>
    obtain rfl := Option.some.inj h
    exact ⟨rfl, List.prefix_rfl⟩
  | succ n ih =>
    simp only [readColumns, Option.bind_eq_bind, Option.bind_eq_some_iff, Prod.exists] at h
    obtain ⟨d, off', -, hrest⟩ := h
    obtain ⟨hlen, hpre⟩ := ih hrest
    refine ⟨?_, (List.prefix_append ..).trans hpre⟩
    rw [hlen]
    simp [Schema.push]
    omega

theorem cString_of_take {name rest : List UInt8} {k : ℕ} (h : (0 :: rest).take k = name) :
    Row.cString name = [] := by
  cases k with
  | zero =>
    obtain rfl : [] = name := h
    rfl
  | succ k =>
    obtain rfl := h
    simp [Row.cString]

/-- Where the number of columns should stand there is the length of the first name, and where that
should stand its first characters: what is then read as the name is empty, or far too long for the
page. -/
theorem readColumn_shifted {x k : ℕ} {chars rest : List UInt8} (hne : chars ≠ [])
    (hzero : 0 ∉ chars) (hk : k < 256) (hlen : src.length < 2 ^ 24)
    (hsrc : src = leBytes 4 x ++ chars ++ leBytes 4 k ++ rest)
    (h : readColumn src 4 = some (d, n)) : d.name = [] := by
  simp only [readColumn, readInt, Option.bind_eq_bind, Option.bind_eq_some_iff,
    Option.map_eq_some_iff, Option.pure_def, Option.some.injEq, Prod.mk.injEq,
    slice_eq_some] at h
  obtain ⟨len, ⟨a, ⟨-, ha⟩, hint⟩, _, hpos, name, ⟨hin, hname⟩, -, -, -, -, -, -, -, -, rfl, -⟩ := h
  have hbytes : leBytes 4 k = [UInt8.ofNat k, 0, 0, 0] := by
    have hdiv : k / 256 = 0 := Nat.div_eq_of_lt hk
    simp [leBytes_succ, leBytes_zero, hdiv]
  rw [hsrc, hbytes] at hname ha
  rcases chars with _ | ⟨c₀, _ | ⟨c₁, _ | ⟨c₂, _ | ⟨c₃, chars⟩⟩⟩⟩
  · exact absurd rfl hne
  · exact cString_of_take (by simpa [leBytes_succ, leBytes_zero] using hname)
  · exact cString_of_take (by simpa [leBytes_succ, leBytes_zero] using hname)
  · exact cString_of_take (by simpa [leBytes_succ, leBytes_zero] using hname)
  · exfalso
    have ha' : a = [c₀, c₁, c₂, c₃] := by simpa [leBytes_succ, leBytes_zero] using ha.symm
    have hpos' : 0 ≤ len := by
      by_contra hneg
      simp [guard, hneg] at hpos
    have hc : c₃.toNat ≠ 0 := by
      intro hc
      have : c₃ = 0 := UInt8.toNat_inj.mp hc
      simp [this] at hzero
    have h₀ := c₀.toNat_lt
    have h₁ := c₁.toNat_lt
    have h₂ := c₂.toNat_lt
    have h₃ := c₃.toNat_lt
    have hlow : 2 ^ 24 ≤ leNat a ∧ leNat a < 2 ^ 32 := by
      rw [ha']
      simp only [leNat, List.foldr_cons, List.foldr_nil]
      omega
    have hval : (BitVec.ofNat 32 (leNat a)).toNat = leNat a := by
      rw [BitVec.toNat_ofNat, Nat.mod_eq_of_lt hlow.2]
    rw [BitVec.toInt_eq_toNat_cond, hval] at hint
    split at hint <;> omega

theorem readInt_zero {x : ℕ} (h : m.take 4 = leBytes 4 x) :
    readInt m 0 = some (BitVec.ofNat 32 x).toInt := by
  have hlen : 4 ≤ m.length := by
    have := congrArg List.length h
    rw [List.length_take, length_leBytes] at this
    omega
  simp only [readInt, slice, Nat.zero_add, if_pos hlen, List.drop_zero, h, Option.map_some,
    leNat_leBytes]
  congr 2
  apply BitVec.eq_of_toNat_eq
  simp

theorem colDefs_ofColumns (cs : List Column) :
    (Schema.ofColumns cs).colDefs = cs.map Column.definition := by
  have hfold (s : Schema) :
      (cs.foldl Schema.addColumn s).colDefs = s.colDefs ++ cs.map Column.definition := by
    induction cs generalizing s with
    | nil => simp
    | cons c cs ih =>
      rw [List.foldl_cons, ih]
      simp [Schema.addColumn, Schema.push]
  simpa [Schema.ofColumns, Schema.empty] using hfold .empty

/-- The first column that is read comes first in the schema. -/
theorem readSchema_head {x : ℕ} (hx : m.take 4 = leBytes 4 x)
    (hs : s.colDefs = d :: ds) (h : readSchema m .empty = some s) :
    (BitVec.ofNat 32 x).toInt.toNat = s.colDefs.length ∧
      ∃ n, readColumn m 4 = some (d, n) := by
  simp only [readSchema, readInt_zero hx, Option.bind_eq_bind, Option.bind_some] at h
  obtain ⟨hlen, -⟩ := readColumns_eq_some h
  have hcount : (BitVec.ofNat 32 x).toInt.toNat = s.colDefs.length := by
    simpa [Schema.empty] using hlen.symm
  refine ⟨hcount, ?_⟩
  rw [hcount, hs, List.length_cons] at h
  simp only [readColumns, Option.bind_eq_bind, Option.bind_eq_some_iff, Prod.exists] at h
  obtain ⟨d', n, hd, hrest⟩ := h
  obtain ⟨-, hpre⟩ := readColumns_eq_some hrest
  rw [hs] at hpre
  have heq : d' = d := by simpa [Schema.push, Schema.empty] using hpre
  exact ⟨n, heq ▸ hd⟩

/-- With no column to write, no column is read. -/
theorem readSchema_of_size_zero (hsize : (BitVec.ofNat 32 s.colDefs.length).toInt.toNat = 0)
    (h : writeSchema dst s = some m) : readSchema m .empty = some .empty := by
  simp only [writeSchema, Option.bind_eq_bind, Option.bind_eq_some_iff, hsize, List.take_zero,
    writeColumns, Option.some.injEq] at h
  obtain ⟨m₀, hcopy, rfl⟩ := h
  have htake : m₀.take 4 = leBytes 4 s.colDefs.length := by simpa using (take_copyTo hcopy).2
  simp [readSchema, readInt_zero htake, hsize, readColumns]

/-- A column that is written is not read back. -/
theorem readSchema_ne_of_cons {c : Column} (hdst : dst.length < 2 ^ 24)
    (hs : s.colDefs = c.definition :: ds)
    (hsize : (BitVec.ofNat 32 s.colDefs.length).toInt.toNat ≠ 0)
    (h : writeSchema dst s = some m) : readSchema m .empty ≠ some s := by
  intro hread
  obtain ⟨htake, hlen⟩ := take_writeSchema hs hsize h
  obtain ⟨rest, hrest⟩ : columnBytes c.definition <+: m := htake ▸ List.take_prefix ..
  have hm : m = leBytes 4 c.name.length ++ nameBytes c.definition ++
      leBytes 4 c.definition.type.toNat ++ (leBytes 8 c.length.toNat ++
        [if c.nullable then 1 else 0] ++ rest) := by
    rw [← hrest, columnBytes]
    simp only [List.append_assoc]
    rfl
  have hx : m.take 4 = leBytes 4 c.name.length := by
    rw [hm]
    simp
  obtain ⟨hcount, n, hcol⟩ := readSchema_head hx hs hread
  have hname : nameBytes c.definition ≠ [] := by
    rw [← List.length_pos_iff, length_nameBytes]
    show 0 < (BitVec.ofNat 32 c.name.length).toInt.toNat
    rw [hcount, hs]
    simp
  have hzero : 0 ∉ nameBytes c.definition := fun h0 => c.zero_notMem (List.mem_of_mem_take h0)
  have htype : c.definition.type.toNat < 256 := by
    show (BitVec.ofNat 32 c.type.code).toNat < 256
    cases c.type <;> decide
  exact c.name_ne_nil (readColumn_shifted hname hzero htype (hlen ▸ hdst) hm hcol)

theorem readSchema_writeSchema_iff (hdst : dst.length < 2 ^ 24)
    (h : writeSchema dst (.ofColumns cs) = some m) :
    readSchema m .empty = some (.ofColumns cs) ↔ cs = [] := by
  have hs := colDefs_ofColumns cs
  by_cases hsize : (BitVec.ofNat 32 (Schema.ofColumns cs).colDefs.length).toInt.toNat = 0
  · rw [readSchema_of_size_zero hsize h]
    constructor
    · intro heq
      rw [← Option.some.inj heq] at hs
      exact List.map_eq_nil_iff.mp hs.symm
    · rintro rfl
      rfl
  · cases cs with
    | nil => exact absurd rfl hsize
    | cons c cs =>
      have hne := readSchema_ne_of_cons hdst hs hsize h
      simp [hne]

/-- The bytes of the table header come back. -/
theorem openTable_bytes (h : TableHeader) (area : List UInt8) :
    openTable (h.bytes ++ area) = (readSchema area .empty).map fun s => (h, s) := by
  have hlen : h.bytes.length = 12 := by simp [TableHeader.bytes]
  have hlen' : 12 ≤ (h.bytes ++ area).length := by
    rw [List.length_append, hlen]
    omega
  have hff : slice (h.bytes ++ area) 0 4 = some (leBytes 4 h.firstFree.toNat) := by
    refine slice_eq_some.mpr ⟨by omega, ?_⟩
    simp [TableHeader.bytes]
  have hfp : slice (h.bytes ++ area) 4 4 = some (leBytes 4 h.firstPage.toNat) := by
    refine slice_eq_some.mpr ⟨by omega, ?_⟩
    simp [TableHeader.bytes]
  have hnp : slice (h.bytes ++ area) 8 4 = some (leBytes 4 h.numPages.toNat) := by
    refine slice_eq_some.mpr ⟨hlen', ?_⟩
    rw [TableHeader.bytes, List.append_assoc, List.drop_left' (by simp)]
    exact List.take_left' (length_leBytes ..)
  have hdrop : (h.bytes ++ area).drop 12 = area := List.drop_left' hlen
  simp only [openTable, hff, hfp, hnp, hdrop, ofNat_leNat_leBytes, Option.bind_eq_bind,
    Option.bind_some, Option.pure_def]
  cases readSchema area .empty <;> rfl

theorem createTable_eq_some {firstPage : BitVec 32} {data : List UInt8}
    (h : createTable firstPage s = some data) :
    ∃ dst area, dst.length = 4080 ∧ writeSchema dst s = some area ∧
      data = TableHeader.bytes ⟨-1, firstPage, 1⟩ ++ area := by
  simp only [createTable, Option.bind_eq_bind, Option.bind_eq_some_iff, Option.pure_def,
    Option.some.injEq] at h
  obtain ⟨page, hpage, area, harea, rfl⟩ := h
  generalize hdr : TableHeader.bytes ⟨-1, firstPage, 1⟩ = header at hpage ⊢
  have hlen : header.length = 12 := by
    rw [← hdr]
    simp only [TableHeader.bytes, List.length_append, length_leBytes]
  have htake := (take_copyTo hpage).2
  rw [hlen, List.take_zero, List.nil_append] at htake
  refine ⟨page.drop 12, area, ?_, harea, by rw [htake]⟩
  rw [List.length_drop, length_copyTo hpage, List.length_replicate]

/-- The schema of a table that was created comes back exactly if it has no columns. -/
theorem openTable_createTable_iff {firstPage : BitVec 32} {data : List UInt8}
    (h : createTable firstPage (.ofColumns cs) = some data) :
    (readSchema (data.drop 12) .empty = some (.ofColumns cs) ↔ cs = []) ∧
      (openTable data = some (⟨-1, firstPage, 1⟩, .ofColumns cs) ↔ cs = []) := by
  obtain ⟨dst, area, hlen, harea, rfl⟩ := createTable_eq_some h
  generalize hdr : TableHeader.mk (-1) firstPage 1 = header
  have hdrop : (header.bytes ++ area).drop 12 = area :=
    List.drop_left' (by simp [TableHeader.bytes])
  have hiff := readSchema_writeSchema_iff (by omega) harea
  refine ⟨by rw [hdrop, hiff], ?_⟩
  rw [← hiff, openTable_bytes]
  cases readSchema area .empty <;> simp

/-- One column `a` of type `INT`. -/
def oneColumn : Column := ⟨[97], .int, 4, false, by decide, by decide⟩

/-- The number of columns that is read is the length of the name, and the column has no name. -/
theorem createTable_oneColumn : ∃ data,
    createTable 0 (.ofColumns [oneColumn]) = some data ∧
      (readSchema (data.drop 12) .empty).map Schema.colDefs = some [⟨[], 0, 0, false⟩] ∧
      readSchema (data.drop 12) .empty ≠ some (.ofColumns [oneColumn]) := by
  have hread : ((createTable 0 (.ofColumns [oneColumn])).bind fun data =>
      (readSchema (data.drop 12) .empty).map Schema.colDefs) = some [⟨[], 0, 0, false⟩] := by
    decide +kernel
  obtain ⟨data, hdata, hdefs⟩ := Option.bind_eq_some_iff.mp hread
  refine ⟨data, hdata, hdefs, ?_⟩
  intro heq
  rw [heq] at hdefs
  cases hdefs

theorem openTable_createTable_nil : ∃ data, createTable 7 (.ofColumns []) = some data ∧
    openTable data = some (⟨-1, 7, 1⟩, .ofColumns []) := by
  have hsome : (createTable 7 (.ofColumns [])).isSome = true := by decide +kernel
  obtain ⟨data, hdata⟩ := Option.isSome_iff_exists.mp hsome
  exact ⟨data, hdata, (openTable_createTable_iff hdata).2.mpr rfl⟩

end TableManager

end AlphaDb.Table
