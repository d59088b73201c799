import AlphaDb.Lib.Memo
import AlphaDb.Lib.TextStream
import AlphaDb.Index.IndexManager
import AlphaDb.Table.TableManager

/-! The handles that a transaction manager keeps (`transaction/txn_manager`). -/
namespace AlphaDb.Transaction

open TextStream (cStr showInt)
open Index (IndexHeader)
open Table (Schema)
open Table.TableManager (TableHeader)

/-- A handle on an open file, with what was read from its header page. -/
structure Handle (H : Type) where
  file : List Char
  header : H

/-- The file of an index, as `open_index` writes its name. -/
def indexFile (name : List Char) (index : ℤ) : List Char := cStr name ++ '.' :: showInt index

/-- `table_manager::open_table`. It throws where the file or its first page cannot be read. -/
def openTable (name : List Char) (header : Option (TableHeader × Schema)) :
    Option (Handle (TableHeader × Schema)) :=
  header.map (⟨cStr name, ·⟩)

/-- `index_manager::open_index`. -/
def openIndex (name : List Char) (index : ℤ) (header : Option IndexHeader) :
    Option (Handle IndexHeader) :=
  header.map (⟨indexFile name index, ·⟩)

structure TxnManager where
  tables : List Char → Option (Handle (TableHeader × Schema))
  indexes : List Char → Option (Handle IndexHeader)

/-- A call, with what its file has on the header page at that time. -/
inductive HandleCall
  | getTable (name : List Char) (header : Option (TableHeader × Schema))
  | getIndex (name : List Char) (index : ℤ) (header : Option IndexHeader)

/-- The file that the open without a cache would open. -/
def HandleCall.file : HandleCall → List Char
  | .getTable name _ => cStr name
  | .getIndex name index _ => indexFile name index

namespace TxnManager

def init : TxnManager := ⟨fun _ => none, fun _ => none⟩

/-- `get_table`. -/
def getTable (m : TxnManager) (name : List Char) (header : Option (TableHeader × Schema)) :
    Option (Handle (TableHeader × Schema)) × TxnManager :=
  let (handle, tables) := Memo.fetch m.tables name (openTable name header)
  (handle, { m with tables })

/-- `get_index`. The name alone is the key. -/
def getIndex (m : TxnManager) (name : List Char) (index : ℤ) (header : Option IndexHeader) :
    Option (Handle IndexHeader) × TxnManager :=
  let (handle, indexes) := Memo.fetch m.indexes name (openIndex name index header)
  (handle, { m with indexes })

/-- The file of the handle that a call returns, unless it throws. -/
def call (m : TxnManager) : HandleCall → Option (List Char) × TxnManager
  | .getTable name header => ((m.getTable name header).1.map (·.file), (m.getTable name header).2)
  | .getIndex name index header =>
    ((m.getIndex name index header).1.map (·.file), (m.getIndex name index header).2)

def run (m : TxnManager) : List HandleCall → List (Option (List Char))
  | [] => []
  | c :: cs => (m.call c).1 :: (m.call c).2.run cs

end TxnManager

/-- Every call that returns gives a handle on the file that it would open itself. -/
def Transparent (m : TxnManager) (calls : List HandleCall) : Prop :=
  List.Forall₂ (fun c r => ∀ file ∈ r, file = c.file) calls (m.run calls)

/-- The earlier call finds its file, and the later one asks for the same number of that name. -/
def SameNumber : HandleCall → HandleCall → Prop
  | .getIndex name a (some _), .getIndex name' b _ => name = name' → a = b
  | _, _ => True

variable {m : TxnManager} {name : List Char} {a : ℤ} {d : HandleCall} {calls : List HandleCall}

theorem indexFile_injective (name : List Char) : Function.Injective (indexFile name) := by
  intro a b h
  have hsuffix := List.append_cancel_left h
  exact TextStream.showInt_injective (List.cons.inj hsuffix).2

/-- The handles on tables are on the files of their names. -/
def TablesRight (m : TxnManager) : Prop := Memo.Holds (fun name h => h.file = cStr name) m.tables

/-- A handle that is kept for the name of the call is on the file of the call. -/
def Agrees (m : TxnManager) : HandleCall → Prop
  | .getTable _ _ => True
  | .getIndex name index _ => ∀ h ∈ m.indexes name, h.file = indexFile name index

@[simp] theorem agrees_init (c : HandleCall) : Agrees .init c := by
  cases c <;> simp [Agrees, TxnManager.init]

theorem tablesRight_init : TablesRight .init := by simp [TablesRight, Memo.Holds, TxnManager.init]

theorem transparent_cons : Transparent m (c :: calls) ↔
    (∀ file ∈ (m.call c).1, file = c.file) ∧ Transparent (m.call c).2 calls := by
  simp [Transparent, TxnManager.run]

/-- `get_table` is transparent, and leaves the indexes alone. -/
theorem call_getTable (hm : TablesRight m) (name : List Char)
    (header : Option (TableHeader × Schema)) :
    (∀ file ∈ (m.call (.getTable name header)).1, file = cStr name) ∧
      TablesRight (m.call (.getTable name header)).2 ∧
      (m.call (.getTable name header)).2.indexes = m.indexes := by
  have hopen : ∀ h ∈ openTable name header, h.file = cStr name := by
    intro h hh
    obtain ⟨x, -, rfl⟩ := Option.mem_map.mp hh
    rfl
  obtain ⟨hvalue, hholds⟩ := hm.fetch hopen
  refine ⟨?_, hholds, rfl⟩
  intro file hfile
  obtain ⟨h, hh, rfl⟩ := Option.mem_map.mp hfile
  exact hvalue h hh

/-- `get_index` with a handle for the name gives this handle. -/
theorem call_getIndex_of_hit {h : Handle IndexHeader} (hm : m.indexes name = some h) (index : ℤ)
    (header : Option IndexHeader) :
    m.call (.getIndex name index header) = (some h.file, m) := by
  simp [TxnManager.call, TxnManager.getIndex, Memo.fetch_of_hit hm]

/-- The manager with a handle for a name. -/
def TxnManager.keep (m : TxnManager) (name : List Char) (h : Handle IndexHeader) : TxnManager where
  tables := m.tables
  indexes := Function.update m.indexes name (some h)

/-- `get_index` without one opens the file, and the name stands for this index from then on. -/
theorem call_getIndex_of_miss (hm : m.indexes name = none) (index : ℤ) (header : IndexHeader) :
    m.call (.getIndex name index (some header)) =
      (some (indexFile name index), m.keep name ⟨indexFile name index, header⟩) := by
  simp [TxnManager.call, TxnManager.getIndex, openIndex, Memo.fetch_of_miss hm, TxnManager.keep]

theorem call_getIndex_of_fail (hm : m.indexes name = none) (index : ℤ) :
    m.call (.getIndex name index none) = (none, m) := by
  simp [TxnManager.call, TxnManager.getIndex, openIndex, Memo.fetch_of_fail hm]

/-- Two calls that agree with one handle ask for one number. -/
theorem sameNumber_of_agrees {h : Handle IndexHeader} {header : Option IndexHeader}
    (hm : m.indexes name = some h) (hc : Agrees m (.getIndex name a header)) (hd : Agrees m d) :
    SameNumber (.getIndex name a header) d := by
  cases d with
  | getTable => cases header <;> trivial
  | getIndex name' b header' =>
    cases header with
    | none => trivial
    | some x =>
      rintro rfl
      exact indexFile_injective name ((hc h hm).symm.trans (hd h hm))

/-- A new handle adds the number of its call to what later calls have to agree with. -/
theorem agrees_update (hm : m.indexes name = none) (header : IndexHeader) :
    Agrees (m.keep name ⟨indexFile name a, header⟩) d ↔
      Agrees m d ∧ SameNumber (.getIndex name a (some header)) d := by
  cases d with
  | getTable => simp [Agrees, SameNumber]
  | getIndex name' b header' =>
    by_cases hname : name' = name
    · subst hname
      simp [Agrees, SameNumber, TxnManager.keep, hm, (indexFile_injective name').eq_iff]
    · simp [Agrees, SameNumber, TxnManager.keep, Function.update_of_ne hname, Ne.symm hname]

/-- From any handles: the calls agree with what is kept, and with the first of their name. -/
theorem transparent_iff_agrees (hm : TablesRight m) :
    Transparent m calls ↔ (∀ c ∈ calls, Agrees m c) ∧ calls.Pairwise SameNumber := by
  induction calls generalizing m with
  | nil => simp [Transparent, TxnManager.run]
  | cons c calls ih =>
    rw [transparent_cons]
    cases c with
    | getTable name header =>
      obtain ⟨hfile, htables, hindexes⟩ := call_getTable hm name header
      have hagrees : ∀ d, Agrees (m.call (.getTable name header)).2 d ↔ Agrees m d := fun d => by
        cases d <;> simp [Agrees, hindexes]
      have hsame : ∀ d, SameNumber (.getTable name header) d := fun _ => trivial
      rw [ih htables]
      simp only [hagrees, List.forall_mem_cons, List.pairwise_cons, hsame, implies_true, true_and]
      exact ⟨fun h => ⟨⟨trivial, h.2.1⟩, h.2.2⟩, fun h => ⟨hfile, h.1.2, h.2⟩⟩
    | getIndex name index header =>
      cases hname : m.indexes name with
      | some h =>
        have hfile : Agrees m (.getIndex name index header) ↔
            ∀ file ∈ some h.file, file = indexFile name index := by simp [Agrees, hname]
        rw [call_getIndex_of_hit hname, ih hm, List.forall_mem_cons, List.pairwise_cons, hfile]
        refine ⟨?_, fun hall => ⟨hall.1.1, hall.1.2, hall.2.2⟩⟩
        rintro ⟨hhead, hrest, hpairs⟩
        exact ⟨⟨hhead, hrest⟩,
          fun d hd => sameNumber_of_agrees hname (hfile.mpr hhead) (hrest d hd), hpairs⟩
      | none =>
        have hhead : Agrees m (.getIndex name index header) := by simp [Agrees, hname]
        cases header with
        | none =>
          have hsame : ∀ d, SameNumber (.getIndex name index none) d := fun _ => trivial
          rw [call_getIndex_of_fail hname, ih hm]
          simp [hhead, hsame]
        | some header =>
          rw [call_getIndex_of_miss hname, ih (m := m.keep name _) hm]
          simp only [agrees_update hname, List.forall_mem_cons, List.pairwise_cons, hhead,
            true_and, Option.mem_some_iff, forall_eq', HandleCall.file, forall_and]
          exact ⟨fun h => ⟨h.1.1, h.1.2, h.2⟩, fun h => ⟨⟨h.1, h.2.1⟩, h.2.2⟩⟩

end AlphaDb.Transaction
