import AlphaDb.Lib.ByteFile
import AlphaDb.Lib.Exception
import AlphaDb.Lib.StableList
import AlphaDb.Io.HashTable

/-! The buffer pool (`io/buffer_manager`) together with the files behind its descriptors. -/
namespace AlphaDb.Io

/-- What the source throws, by the name its comments give each `std::exception`. -/
inductive Error
  | unixError
  | incompleteReadError
  | incompleteWriteError
  | pageNotInBuf
  | pageAlreadyUnpinned
  | pagePinned
  | noBuf
  | closedFile
  | invalidPage
  | pageAlreadyFree
  | eof
  /-- Not an exception: a null pointer is dereferenced. -/
  | nullPointer
  /-- Not an exception: an `int` overflows. -/
  | overflow
  deriving DecidableEq, Repr

/-- A failed or short system call. -/
def Error.isIo : Error → Bool
  | .unixError | .incompleteReadError | .incompleteWriteError => true
  | _ => false

/-- The open files by descriptor; a descriptor stands for one file. -/
abbrev Disk := ℤ → Option ByteFile

/-- The offset of a page, computed exactly: the file starts with a header block. -/
def pageOffset (n : ℕ) (page : ℤ) : ℤ := page * n + 4096

/-- `lseek` and `write`; a seek below zero fails, a write to an open file is complete. -/
def Disk.putPage {n : ℕ} (d : Disk) (fd page : ℤ) (src : Block n) : Option Disk :=
  match d fd with
  | none => none
  | some f =>
    if pageOffset n page < 0 then none
    else some (Function.update d fd (some (f.write (pageOffset n page).toNat src)))

/-- The copy of a page on disk. -/
def Disk.page {n : ℕ} (d : Disk) (fd page : ℤ) : Option (Block n) :=
  match d fd with
  | none => none
  | some f => if pageOffset n page < 0 then none else f.block (pageOffset n page).toNat n

structure BufferEntry (n : ℕ) where
  dirty : Bool
  fd : ℤ
  page : ℤ
  data : Block n
  pin : ℤ

/-- The pool with pages of `n` bytes. An iterator stored in `usedMap` is the number of its node
in `usedList`; a pointer to page data is the slot that holds it. -/
structure BufferManager (n : ℕ) where
  poolSize : ℕ
  hashTable : HashTable
  bufferPool : ℕ → BufferEntry n
  freeList : List ℕ
  usedList : StableList ℕ
  usedMap : ℕ → Option ℕ
  disk : Disk

abbrev Op (n : ℕ) := EStateM Error (BufferManager n)

def hashTableSize : ℕ := 20

namespace BufferManager

variable {n : ℕ}

/-- The constructor. The entries are left as allocated (`raw`), but their descriptor is taken to
be `-1`; the data is cleared. -/
def new (poolSize : ℕ) (raw : ℕ → BufferEntry n) (disk : Disk) : BufferManager n where
  poolSize := poolSize
  hashTable := .new hashTableSize
  bufferPool i := { raw i with fd := -1, data := fun _ => 0 }
  freeList := List.range poolSize
  usedList := .empty
  usedMap _ := none
  disk := disk

def setEntry (s : BufferManager n) (slot : ℕ) (e : BufferEntry n) : BufferManager n :=
  { s with bufferPool := Function.update s.bufferPool slot e }

def insertFree (s : BufferManager n) (slot : ℕ) : BufferManager n :=
  { s with freeList := slot :: s.freeList }

/-- `unordered_map::insert` keeps the iterator of a slot that is already in the map. -/
def insertUsed (s : BufferManager n) (slot : ℕ) : BufferManager n :=
  { s with
    usedList := s.usedList.pushFront slot
    usedMap :=
      if s.usedMap slot = none then Function.update s.usedMap slot (some s.usedList.next)
      else s.usedMap }

def remove (s : BufferManager n) (slot : ℕ) : BufferManager n :=
  match s.usedMap slot with
  | some it =>
    { s with
      usedList := s.usedList.erase it
      usedMap := Function.update s.usedMap slot none }
  | none => { s with usedList := s.usedList.eraseP fun p => p.2 == slot }

def hashInsert (s : BufferManager n) (fd page : ℤ) (slot : ℕ) : BufferManager n :=
  { s with hashTable := s.hashTable.insert fd page slot }

def hashRemove (s : BufferManager n) (fd page : ℤ) : BufferManager n :=
  { s with hashTable := s.hashTable.remove fd page }

def initPageInfo (s : BufferManager n) (fd page : ℤ) (slot : ℕ) : BufferManager n :=
  s.setEntry slot { s.bufferPool slot with fd := fd, page := page, pin := 1, dirty := false }

/-- `lseek` and `read` into the data of a slot. -/
def readPage (fd page : ℤ) (slot : ℕ) : Op n Unit := fun s =>
  match s.disk fd with
  | none => .error .unixError s
  | some f =>
    if pageOffset n page < 0 then .error .unixError s
    else
      let off := (pageOffset n page).toNat
      let e := s.bufferPool slot
      let t := s.setEntry slot { e with data := f.readInto off e.data }
      if f.available off n = n then .ok () t else .error .incompleteReadError t

def writePage (fd page : ℤ) (src : Block n) : Op n Unit := fun s =>
  match s.disk.putPage fd page src with
  | none => .error .unixError s
  | some d => .ok () { s with disk := d }

/-- Write an entry to its page if it is dirty. -/
def writeBack (e : BufferEntry n) : Op n Unit :=
  if e.dirty then writePage e.fd e.page e.data else pure ()

/-- The unpinned slot nearest the end of the used list. -/
def victim (s : BufferManager n) : Option ℕ :=
  s.usedList.toList.reverse.find? fun i => (s.bufferPool i).pin = 0

def internalAlloc : Op n ℕ := do
  let s ← get
  match s.freeList with
  | slot :: rest =>
    set ({ s with freeList := rest }.insertUsed slot)
    return slot
  | [] =>
    match s.victim with
    | none => throw .noBuf
    | some slot =>
      let e := s.bufferPool slot
      writeBack e
      modify fun s => ((s.hashRemove e.fd e.page).remove slot).insertUsed slot
      return slot

/-- The entries that `forcePage` writes; page `-1` stands for all pages. -/
def Forced (fd page : ℤ) (entry : BufferEntry n) : Prop :=
  entry.fd = fd ∧ (entry.page = page ∨ page = -1) ∧ entry.dirty

instance (fd page : ℤ) (entry : BufferEntry n) : Decidable (Forced fd page entry) :=
  inferInstanceAs (Decidable (_ ∧ _))

def forceSlot (fd page : ℤ) (i : ℕ) : Op n Unit := do
  let entry := (← get).bufferPool i
  if Forced fd page entry then
    writePage fd page entry.data
    modify fun s => s.setEntry i { entry with dirty := false }
  else pure ()

def forceSlots (fd page : ℤ) : List ℕ → Op n Unit
  | [] => pure ()
  | i :: is => do
    forceSlot fd page i
    forceSlots fd page is

def forcePage (fd page : ℤ) : Op n Unit := do
  forceSlots fd page (← get).usedList.toList

def markDirty (fd page : ℤ) : Op n Unit := do
  let s ← get
  match s.hashTable.find fd page with
  | none => throw .pageNotInBuf
  | some slot =>
    let t := s.setEntry slot { s.bufferPool slot with dirty := true }
    set ((t.remove slot).insertUsed slot)

def flushSlot (fd : ℤ) (i : ℕ) : Op n Unit := do
  let entry := (← get).bufferPool i
  if entry.fd = fd then
    if 0 < entry.pin then throw .pagePinned
    else
      writeBack entry
      modify fun s => s.setEntry i { entry with dirty := false }
      modify fun s => ((s.hashRemove entry.fd entry.page).remove i).insertFree i
  else pure ()

def flushSlots (fd : ℤ) : List ℕ → Op n Unit
  | [] => pure ()
  | i :: is => do
    flushSlot fd i
    flushSlots fd is

def flushPages (fd : ℤ) : Op n Unit := do
  flushSlots fd (List.range (← get).poolSize)

/-- Returns the slot whose data is handed out. -/
def getPage (fd page : ℤ) (multiplePins : Bool := true) : Op n ℕ := do
  let s ← get
  match s.hashTable.find fd page with
  | none =>
    let slot ← internalAlloc
    readPage fd page slot
    modify fun s => (s.hashInsert fd page slot).initPageInfo fd page slot
    return slot
  | some slot =>
    let e := s.bufferPool slot
    if multiplePins = false ∧ 0 < e.pin then throw .pagePinned
    else
      let t := s.setEntry slot { e with pin := e.pin + 1 }
      set ((t.remove slot).insertUsed slot)
      return slot

/-- `none` is the null pointer returned for a page that is already in the pool. -/
def allocatePage (fd page : ℤ) : Op n (Option ℕ) := do
  let s ← get
  match s.hashTable.find fd page with
  | some _ => return none
  | none =>
    let slot ← internalAlloc
    modify fun s => (s.hashInsert fd page slot).initPageInfo fd page slot
    return some slot

def unpinPage (fd page : ℤ) : Op n Unit := do
  let s ← get
  match s.hashTable.find fd page with
  | none => throw .pageNotInBuf
  | some slot =>
    let e := s.bufferPool slot
    if e.pin = 0 then throw .pageAlreadyUnpinned
    else
      let t := s.setEntry slot { e with pin := e.pin - 1 }
      if e.pin - 1 = 0 then set ((t.remove slot).insertUsed slot) else set t

end BufferManager

end AlphaDb.Io
