import AlphaDb.Io.BufferManager
import AlphaDb.Lib.BlockInt

/-! Paged files (`io/file_handle`, `io/page_handle`) over the buffer pool: a header with the head
of the free-page list and the page count, and a link in the first bytes of every page. -/
namespace AlphaDb.Io

def pageListEnd : ℤ := -1

def pageUsed : ℤ := -2

structure FileHeader where
  firstFree : ℤ
  pageNum : ℤ

/-- `reinterpret_cast<page_header *>(data)->next_free`. -/
def nextFree (data : Block 4096) : ℤ := data.getInt32 0

def setNextFree (data : Block 4096) (v : ℤ) : Block 4096 := data.putInt32 0 v

/-- A page handle points to the bytes of its slot behind the link. -/
structure PageHandle where
  page : ℤ
  slot : ℕ

/-- An open handle; `bufferManager` is what its pool pointer leads to. -/
structure FileHandle where
  fd : ℤ
  header : FileHeader
  fileIsOpen : Bool
  headerChanged : Bool
  bufferManager : BufferManager 4096

abbrev FileOp := EStateM Error FileHandle

namespace FileHandle

def setHeader (s : FileHandle) (h : FileHeader) : FileHandle :=
  { s with header := h, headerChanged := true }

/-- The data of a slot, through the pointer that was handed out. -/
def data (s : FileHandle) (slot : ℕ) : Block 4096 := (s.bufferManager.bufferPool slot).data

def setData (s : FileHandle) (slot : ℕ) (b : Block 4096) : FileHandle :=
  { s with
    bufferManager :=
      s.bufferManager.setEntry slot { s.bufferManager.bufferPool slot with data := b } }

/-- A call of the pool. -/
def pool {α : Type} (x : Op 4096 α) : FileOp α := fun s =>
  match x s.bufferManager with
  | .ok a t => .ok a { s with bufferManager := t }
  | .error e t => .error e { s with bufferManager := t }

def IsValidPage (s : FileHandle) (page : ℤ) : Prop := 0 ≤ page ∧ page < s.header.pageNum

instance (s : FileHandle) (page : ℤ) : Decidable (s.IsValidPage page) :=
  inferInstanceAs (Decidable (_ ∧ _))

def checkOpen : FileOp Unit := do
  if (← get).fileIsOpen then pure () else throw .closedFile

def checkValidPage (page : ℤ) : FileOp Unit := do
  if (← get).IsValidPage page then pure () else throw .invalidPage

def markDirty (page : ℤ) : FileOp Unit := do
  checkOpen
  checkValidPage page
  pool (BufferManager.markDirty (← get).fd page)

def unpinPage (page : ℤ) : FileOp Unit := do
  checkOpen
  checkValidPage page
  pool (BufferManager.unpinPage (← get).fd page)

/-- `page_num++`; past the largest `int` it is undefined. -/
def increment (v : ℤ) : FileOp ℤ := if v + 1 < 2 ^ 31 then pure (v + 1) else throw .overflow

/-- The page that `allocatePage` hands out, with its slot: the head of the free list, or a new
one. The null pointer that the pool returns for a page it holds is written through. -/
def takePage : FileOp PageHandle := do
  let s ← get
  if s.header.firstFree ≠ pageListEnd then
    let page := s.header.firstFree
    let slot ← pool (BufferManager.getPage s.fd page true)
    modify fun s => { s with header := { s.header with firstFree := nextFree (s.data slot) } }
    return ⟨page, slot⟩
  else
    let page := s.header.pageNum
    match ← pool (BufferManager.allocatePage s.fd page) with
    | none => throw .nullPointer
    | some slot =>
      let pageNum ← increment page
      modify fun s => { s with header := { s.header with pageNum := pageNum } }
      return ⟨page, slot⟩

def allocatePage : FileOp PageHandle := do
  checkOpen
  let handle ← takePage
  modify fun s =>
    { s with headerChanged := true }.setData handle.slot (setNextFree (fun _ => 0) pageUsed)
  markDirty handle.page
  return handle

def disposePage (page : ℤ) : FileOp Unit := do
  checkOpen
  checkValidPage page
  let slot ← pool (BufferManager.getPage (← get).fd page false)
  let s ← get
  if nextFree (s.data slot) ≠ pageUsed then
    unpinPage page
    throw .pageAlreadyFree
  else
    set ((s.setData slot (setNextFree (s.data slot) s.header.firstFree)).setHeader
      { s.header with firstFree := page })
    markDirty page
    unpinPage page

def getThisPage (page : ℤ) : FileOp PageHandle := do
  checkOpen
  checkValidPage page
  let slot ← pool (BufferManager.getPage (← get).fd page true)
  if nextFree ((← get).data slot) = pageUsed then
    return ⟨page, slot⟩
  else
    unpinPage page
    throw .invalidPage

/-- The loops over the pages: every exception is caught, and the next page is tried. -/
def firstOf : List ℤ → FileOp PageHandle
  | [] => throw .eof
  | page :: pages => fun s =>
    match getThisPage page s with
    | .ok handle t => .ok handle t
    | .error _ t => firstOf pages t

/-- The pages after `current`, up. -/
def pagesAfter (current pageNum : ℤ) : List ℤ :=
  (List.range (pageNum - (current + 1)).toNat).map fun i => current + 1 + i

/-- The pages before `current`, down. -/
def pagesBefore (current : ℤ) : List ℤ :=
  (List.range current.toNat).map fun i => current - 1 - i

/-- `current` is a page, or the mark at the end the search starts from. -/
def checkCurrent (mark current : ℤ) : FileOp Unit :=
  if current ≠ mark then checkValidPage current else pure ()

def getNextPage (current : ℤ) : FileOp PageHandle := do
  checkOpen
  checkCurrent (-1) current
  firstOf (pagesAfter current (← get).header.pageNum)

def getPrevPage (current : ℤ) : FileOp PageHandle := do
  checkOpen
  checkCurrent (← get).header.pageNum current
  firstOf (pagesBefore current)

def getFirstPage : FileOp PageHandle := getNextPage (-1)

def getLastPage : FileOp PageHandle := do
  getPrevPage (← get).header.pageNum

end FileHandle

/-- The file that `create_file` leaves behind: one block with an empty header. -/
def createFile : ByteFile :=
  let header : Block 4096 := Block.putInt32 (Block.putInt32 (fun _ => 0) 4 0) 0 (-1)
  ByteFile.write ⟨0, fun _ => 0⟩ 0 header

/-- `open_file`: the header is read from the start of the file. -/
def openFile (fd : ℤ) (p : BufferManager 4096) : Option FileHandle :=
  match p.disk fd with
  | none => none
  | some f =>
    if f.available 0 8 = 8 then
      let header : Block 8 := f.readInto 0 fun _ => 0
      some
        { fd := fd
          header := ⟨header.getInt32 0, header.getInt32 4⟩
          fileIsOpen := true
          headerChanged := false
          bufferManager := p }
    else none

end AlphaDb.Io
