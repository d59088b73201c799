import AlphaDb.Lib.TextStream
import AlphaDb.Raft.Server

/-! The file in which a server keeps its persistent state between two runs. -/
namespace AlphaDb.Raft

open TextStream

/-- The state that `persist_state_to_disk` writes and `read_state_from_disk` restores. -/
structure Saved where
  currentTerm : ℕ
  votedFor : ℤ
  logEntries : List LogEntry
  deriving DecidableEq, Repr

/-- The text form of a log entry, which the source does not fix. Reading one that fails leaves the
entry uninitialised. -/
structure EntryFormat where
  put : LogEntry → List Char
  get : Reader → Reader × Option LogEntry

namespace Saved

variable {format : EntryFormat} {saved : Saved} {text : List Char}

/-- The text that `persist_state_to_disk` writes. -/
def persist (format : EntryFormat) (saved : Saved) : List Char :=
  showNat saved.currentTerm ++ (showInt saved.votedFor ++
    (showNat saved.logEntries.length ++ saved.logEntries.flatMap format.put))

/-- The counted loop; an entry that could not be read has no value. -/
def readEntries (format : EntryFormat) : ℕ → Reader → Option (List LogEntry)
  | 0, _ => some []
  | n + 1, r =>
    match format.get r with
    | (_, none) => none
    | (r, some e) => (readEntries format n r).map (e :: ·)

/-- What `read_state_from_disk` restores; a local that no extraction has set has no value. -/
def read (format : EntryFormat) (text : List Char) : Option Saved :=
  let x := readInt (.ofText text)
  let y := readInt x.1
  let z := readInt y.1
  match x.2, y.2, z.2 with
  | some term, some voted, some size =>
    (readEntries format size.toNat z.1).map fun log => ⟨ofInt term, voted, log⟩
  | _, _, _ => none

/-- An entry is read back from its own text, whatever follows. -/
def SelfDelimiting (format : EntryFormat) : Prop :=
  ∀ e rest, format.get (.ofText (format.put e ++ rest)) = (.ofText rest, some e)

/-- Something is restored only if all three extractions have succeeded. -/
theorem read_eq_some (h : read format text = some saved) :
    ∃ term voted size, (readInt (.ofText text)).2 = some term ∧
      (readInt (readInt (.ofText text)).1).2 = some voted ∧
      (readInt (readInt (readInt (.ofText text)).1).1).2 = some size ∧
      saved.currentTerm = ofInt term ∧ saved.votedFor = voted := by
  unfold read at h
  dsimp only at h
  split at h
  · next term voted size hterm hvoted hsize =>
    obtain ⟨log, -, rfl⟩ := Option.map_eq_some_iff.mp h
    exact ⟨term, voted, size, hterm, hvoted, hsize, rfl, rfl⟩
  · simp at h

/-- The size is written behind the vote with nothing in between, and is read as a part of it. -/
theorem votedFor_ne_of_neg (hneg : saved.votedFor < 0) :
    read format (persist format saved) ≠ some saved := by
  intro h
  obtain ⟨term, voted, size, hterm, hvoted, hsize, -, hfor⟩ := read_eq_some h
  have hshow : showInt saved.votedFor = '-' :: showNat saved.votedFor.natAbs := if_pos hneg
  have hstop : ∀ rest, digits ('-' :: rest) = ([], '-' :: rest) := by
    intro rest
    simp [digits]
  rw [persist, hshow, readInt_showNat, List.cons_append, hstop] at hvoted hsize
  simp only [Nat.ofDigitChars_nil, List.isEmpty_cons] at hvoted hsize
  cases hfail : (store false saved.currentTerm).1 with
  | true => simp [hfail] at hvoted
  | false =>
    rw [hfail] at hvoted hsize
    have hminus := readInt_minus saved.votedFor.natAbs
      (showNat saved.logEntries.length ++ saved.logEntries.flatMap format.put)
    rw [Reader.ofText, List.cons_append] at hminus
    rw [hminus] at hvoted hsize
    dsimp only at hvoted hsize
    -- the digits of the size are behind those of the vote
    have hlarge := ofDigitChars_showNat_ge saved.votedFor.natAbs saved.logEntries.length
    have hmore := le_ofDigitChars (digits (saved.logEntries.flatMap format.put)).1
      (Nat.ofDigitChars 10 (showNat saved.logEntries.length) saved.votedFor.natAbs)
    rw [digits_showNat_append, Nat.ofDigitChars_append] at hvoted hsize
    generalize Nat.ofDigitChars 10 (digits (saved.logEntries.flatMap format.put)).1
      (Nat.ofDigitChars 10 (showNat saved.logEntries.length) saved.votedFor.natAbs) = n at *
    cases hfail' : (store true n).1 with
    | true => simp [hfail'] at hsize
    | false =>
      have hvalue := Option.some.inj hvoted
      rw [store_of_not_fail hfail', if_pos rfl] at hvalue
      omega

/-- Without a sign all three numbers are read as one. -/
theorem currentTerm_ne_of_nonneg (hpos : 0 ≤ saved.votedFor) :
    read format (persist format saved) ≠ some saved := by
  intro h
  obtain ⟨term, voted, size, hterm, hvoted, -, hcur, -⟩ := read_eq_some h
  have hshow : showInt saved.votedFor = showNat saved.votedFor.natAbs := if_neg (not_lt.mpr hpos)
  rw [persist, hshow, readInt_showNat, digits_showNat_append, digits_showNat_append,
    Nat.ofDigitChars_append, Nat.ofDigitChars_append] at hterm hvoted
  dsimp only at hterm hvoted
  have hvote := ofDigitChars_showNat_ge saved.currentTerm saved.votedFor.natAbs
  have hsize := ofDigitChars_showNat_ge
    (Nat.ofDigitChars 10 (showNat saved.votedFor.natAbs) saved.currentTerm)
    saved.logEntries.length
  have hmore := le_ofDigitChars (digits (saved.logEntries.flatMap format.put)).1
    (Nat.ofDigitChars 10 (showNat saved.logEntries.length)
      (Nat.ofDigitChars 10 (showNat saved.votedFor.natAbs) saved.currentTerm))
  generalize Nat.ofDigitChars 10 (digits (saved.logEntries.flatMap format.put)).1
    (Nat.ofDigitChars 10 (showNat saved.logEntries.length)
      (Nat.ofDigitChars 10 (showNat saved.votedFor.natAbs) saved.currentTerm)) = n at *
  cases hfail : (store false n).1 with
  | true => simp [hfail] at hvoted
  | false =>
    have hlt := lt_of_not_fail hfail
    have hvalue := Option.some.inj hterm
    rw [store_of_not_fail hfail, if_neg (by simp)] at hvalue
    have hn : n = saved.currentTerm := by
      rw [hcur, ← hvalue]
      unfold ofInt
      omega
    -- the number is the term only if it is zero and nothing follows
    have hempty : saved.logEntries = [] := List.eq_nil_of_length_eq_zero (by omega)
    simp [hempty, digits] at hvoted

/-- What has been written is never restored: the three numbers stand next to each other. -/
theorem read_persist_ne (format : EntryFormat) (saved : Saved) :
    read format (persist format saved) ≠ some saved := by
  rcases lt_or_ge saved.votedFor 0 with hneg | hpos
  · exact votedFor_ne_of_neg hneg
  · exact currentTerm_ne_of_nonneg hpos

/-- Index and term of an entry, each with a blank before it, and one behind. -/
def spaced : EntryFormat where
  put e := ' ' :: (showNat e.index ++ ' ' :: (showNat e.term ++ [' ']))
  get r :=
    if r.eof ∨ r.fail then ({ r with fail := true }, none)
    else
      match digits (r.text.drop 1) with
      | (index, ' ' :: rest) =>
        match digits rest with
        | (term, ' ' :: rest) =>
          (.ofText rest, some ⟨Nat.ofDigitChars 10 index 0, Nat.ofDigitChars 10 term 0⟩)
        | _ => ({ r with fail := true }, none)
      | _ => ({ r with fail := true }, none)

theorem spaced_selfDelimiting : SelfDelimiting spaced := by
  intro e rest
  have hstop : ∀ text, digits (' ' :: text) = ([], ' ' :: text) := by
    intro text
    simp [digits]
  simp [spaced, Reader.ofText, hstop]

/-- Term 1, no vote and one entry: the size becomes a part of the vote, the index of the entry is
taken for the size, and another vote and no entry are restored. -/
theorem restored_other_vote :
    SelfDelimiting spaced ∧
    persist spaced ⟨1, -1, [⟨0, 1⟩]⟩ = ['1', '-', '1', '1', ' ', '0', ' ', '1', ' '] ∧
    read spaced (persist spaced ⟨1, -1, [⟨0, 1⟩]⟩) = some ⟨1, -11, []⟩ ∧
    read spaced (persist spaced ⟨1, -1, [⟨0, 1⟩]⟩) ≠ some ⟨1, -1, [⟨0, 1⟩]⟩ :=
  ⟨spaced_selfDelimiting, by decide +kernel, by decide +kernel, by decide +kernel⟩

end Saved

end AlphaDb.Raft
