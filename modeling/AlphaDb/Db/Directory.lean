import AlphaDb.Lib.TextStream

/-! The current directory of a database server (`db/alphadb`). -/
namespace AlphaDb.Db

open TextStream (cStr)

/-- `DB_BASE_DIR`. -/
def dbBaseDir : List Char := ['~', '/']

/-- `DB_BASE_DIR + "/" + name`. -/
def dbDir (name : List Char) : List Char := dbBaseDir ++ '/' :: name

/-- `processDir` is the path that the last successful `chdir` was given. -/
structure Alphadb where
  currentDir : List Char
  processDir : List Char
  dbOpened : List Char → Bool

/-- A call, with the outcomes of what it asks of the system: whether `chdir` and behind it `mkdir`
or `rm` succeed. -/
inductive DbCall
  | createDb (name : List Char) (chdir mkdir : Bool)
  | openDb (name : List Char) (chdir : Bool)
  | closeDb (name : List Char) (chdir : Bool)
  | dropDb (name : List Char) (chdir rm : Bool)

namespace Alphadb

/-- After the constructor, which throws where its `chdir` fails. -/
def init : Alphadb := ⟨dbBaseDir, dbBaseDir, fun _ => false⟩

def chdir (s : Alphadb) (path : List Char) (succeeds : Bool) : Alphadb :=
  if succeeds then { s with processDir := cStr path } else s

def setOpened (s : Alphadb) (name : List Char) (v : Bool) : Alphadb :=
  { s with dbOpened := Function.update s.dbOpened name v }

/-- `create_db`. The name is no part of the state. -/
def createDb (s : Alphadb) (chdir mkdir : Bool) : Bool × Alphadb :=
  (chdir && mkdir, s.chdir dbBaseDir chdir)

/-- `open_db`. The name is appended before the directory is tried. -/
def openDb (s : Alphadb) (name : List Char) (chdir : Bool) : Bool × Alphadb :=
  if s.dbOpened name then (true, s)
  else
    let s := { s with currentDir := s.currentDir ++ '/' :: name }
    let s := s.chdir s.currentDir chdir
    if chdir then (true, s.setOpened name true) else (false, s)

/-- `close_db`. -/
def closeDb (s : Alphadb) (name : List Char) (chdir : Bool) : Bool × Alphadb :=
  if s.dbOpened name then
    let s := { s with currentDir := dbBaseDir }
    let s := s.chdir s.currentDir chdir
    if chdir then (true, s.setOpened name false) else (false, s)
  else (true, s)

/-- `drop_db`. What `close_db` returns is not looked at. -/
def dropDb (s : Alphadb) (name : List Char) (chdir rm : Bool) : Bool × Alphadb :=
  (rm, if s.dbOpened name then (s.closeDb name chdir).2 else s)

def call (s : Alphadb) : DbCall → Bool × Alphadb
  | .createDb _ chdir mkdir => s.createDb chdir mkdir
  | .openDb name chdir => s.openDb name chdir
  | .closeDb name chdir => s.closeDb name chdir
  | .dropDb name chdir rm => s.dropDb name chdir rm

/-- `open_db` that returns true is in the directory of the name, and one that returns false has
changed nothing. -/
def OpensRight (s : Alphadb) (name : List Char) (chdir : Bool) : Prop :=
  ((s.openDb name chdir).1 = true →
    (s.openDb name chdir).2.currentDir = dbDir name ∧
      (s.openDb name chdir).2.processDir = cStr (dbDir name)) ∧
  ((s.openDb name chdir).1 = false → (s.openDb name chdir).2 = s)

/-- `close_db` that returns false has changed nothing. -/
def ClosesRight (s : Alphadb) (name : List Char) (chdir : Bool) : Prop :=
  (s.closeDb name chdir).1 = false → (s.closeDb name chdir).2 = s

/-- What is asked of a call; `drop_db` calls `close_db` for an open database. -/
def Meets (s : Alphadb) : DbCall → Prop
  | .createDb _ _ _ => True
  | .openDb name chdir => s.OpensRight name chdir
  | .closeDb name chdir => s.ClosesRight name chdir
  | .dropDb name chdir _ => s.dbOpened name → s.ClosesRight name chdir

/-- Every call of the sequence meets what is asked of it. -/
def Sound (s : Alphadb) : List DbCall → Prop
  | [] => True
  | c :: cs => s.Meets c ∧ (s.call c).2.Sound cs

end Alphadb

/-- One database at a time: none, or one with the process still in its directory or not. -/
inductive Session
  | closed
  | opened (name : List Char) (inside : Bool)

namespace Session

/-- A database is opened while none is, and its directory is there; the one that is open may be
opened again while the process is in its directory, and is closed or dropped only if the base
directory is there. -/
def Allows : Session → DbCall → Prop
  | _, .createDb _ _ _ => True
  | .closed, .openDb _ chdir => chdir = true
  | .opened n inside, .openDb name _ => name = n ∧ inside = true
  | .closed, .closeDb _ _ => True
  | .opened n _, .closeDb name chdir => name = n → chdir = true
  | .closed, .dropDb _ _ _ => True
  | .opened n _, .dropDb name chdir _ => name = n → chdir = true

def call : Session → DbCall → Session
  | .closed, .openDb name _ => .opened name true
  | .closed, _ => .closed
  | .opened n inside, .createDb _ chdir _ => .opened n (inside && !chdir)
  | .opened n inside, .openDb _ _ => .opened n inside
  | .opened n inside, .closeDb name _ => if name = n then .closed else .opened n inside
  | .opened n inside, .dropDb name _ _ => if name = n then .closed else .opened n inside

/-- Every call of the sequence is allowed. -/
def Allowed (v : Session) : List DbCall → Prop
  | [] => True
  | c :: cs => v.Allows c ∧ (v.call c).Allowed cs

end Session

/-- The state of the server that a session describes. -/
def Session.state : Session → Alphadb
  | .closed => .init
  | .opened name inside =>
    ⟨dbDir name, if inside then cStr (dbDir name) else dbBaseDir,
      fun n => decide (n = name)⟩

variable {s : Alphadb} {v : Session} {name n : List Char} {chdir rm : Bool} {calls : List DbCall}

@[simp] theorem cStr_dbBaseDir : cStr dbBaseDir = dbBaseDir := by decide

theorem cStr_dbDir_ne (name : List Char) : cStr (dbDir name) ≠ dbBaseDir := by
  simp [cStr, dbDir, dbBaseDir]

theorem append_name_ne (path name : List Char) : path ++ '/' :: name ≠ path := by simp

namespace Alphadb

theorem openDb_of_opened (h : s.dbOpened name = true) : s.openDb name chdir = (true, s) := by
  simp [openDb, h]

theorem openDb_of_chdir (h : s.dbOpened name = false) : s.openDb name true =
    (true, ⟨s.currentDir ++ '/' :: name, cStr (s.currentDir ++ '/' :: name),
      Function.update s.dbOpened name true⟩) := by
  simp [openDb, h, Alphadb.chdir, setOpened]

theorem openDb_of_fail (h : s.dbOpened name = false) : s.openDb name false =
    (false, { s with currentDir := s.currentDir ++ '/' :: name }) := by
  simp [openDb, h, Alphadb.chdir]

theorem closeDb_of_not_opened (h : s.dbOpened name = false) :
    s.closeDb name chdir = (true, s) := by
  simp [closeDb, h]

theorem closeDb_of_chdir (h : s.dbOpened name = true) : s.closeDb name true =
    (true, ⟨dbBaseDir, dbBaseDir, Function.update s.dbOpened name false⟩) := by
  simp [closeDb, h, Alphadb.chdir, setOpened]

theorem closeDb_of_fail (h : s.dbOpened name = true) : s.closeDb name false =
    (false, { s with currentDir := dbBaseDir }) := by
  simp [closeDb, h, Alphadb.chdir]

/-- The path grows even where the directory is not there. -/
theorem opensRight_fail (h : s.dbOpened name = false) : ¬ s.OpensRight name false := by
  intro hright
  have hsame := hright.2 (by rw [openDb_of_fail h])
  rw [openDb_of_fail h] at hsame
  exact append_name_ne _ _ (congrArg currentDir hsame)

theorem opensRight_chdir (h : s.dbOpened name = false) :
    s.OpensRight name true ↔ s.currentDir = dbBaseDir := by
  rw [OpensRight, openDb_of_chdir h]
  constructor
  · intro hright
    exact List.append_cancel_right (hright.1 rfl).1
  · intro hdir
    simp [hdir, dbDir]

theorem opensRight_opened (h : s.dbOpened name = true) : s.OpensRight name chdir ↔
    s.currentDir = dbDir name ∧ s.processDir = cStr (dbDir name) := by
  simp [OpensRight, openDb_of_opened h]

theorem closesRight_not_opened (h : s.dbOpened name = false) : s.ClosesRight name chdir := by
  simp [ClosesRight, closeDb_of_not_opened h]

/-- A close that fails has left the path of the database behind already. -/
theorem closesRight_opened (h : s.dbOpened name = true) (hdir : s.currentDir ≠ dbBaseDir) :
    s.ClosesRight name chdir ↔ chdir = true := by
  cases chdir with
  | false =>
    simp only [ClosesRight, closeDb_of_fail h, Bool.false_eq_true, iff_false]
    intro hright
    exact hdir (congrArg currentDir (hright trivial)).symm
  | true => simp [ClosesRight, closeDb_of_chdir h]

end Alphadb

namespace Session

theorem state_dbOpened_self (inside : Bool) : (opened n inside).state.dbOpened n = true := by
  simp [state]

theorem state_dbOpened_ne (inside : Bool) (h : name ≠ n) :
    (opened n inside).state.dbOpened name = false := by
  simp [state, h]

theorem currentDir_ne (inside : Bool) : (opened n inside).state.currentDir ≠ dbBaseDir := by
  simp [state, dbDir]

/-- A session allows exactly the calls that do what is asked of them. -/
theorem meets_iff (v : Session) (c : DbCall) : v.state.Meets c ↔ v.Allows c := by
  cases v with
  | closed =>
    have hnone : ∀ name, closed.state.dbOpened name = false := fun _ => rfl
    cases c with
    | createDb name chdir mkdir => exact Iff.rfl
    | openDb name chdir =>
      cases chdir with
      | false => exact iff_of_false (Alphadb.opensRight_fail (hnone name)) (by simp [Allows])
      | true => exact iff_of_true ((Alphadb.opensRight_chdir (hnone name)).mpr rfl) rfl
    | closeDb name chdir =>
      exact iff_of_true (Alphadb.closesRight_not_opened (hnone name)) trivial
    | dropDb name chdir rm => exact iff_of_true (fun h => absurd h (by simp [hnone])) trivial
  | opened n inside =>
    have hself := state_dbOpened_self (n := n) inside
    have hdir := currentDir_ne (n := n) inside
    cases c with
    | createDb name chdir mkdir => exact Iff.rfl
    | openDb name chdir =>
      by_cases hname : name = n
      · subst hname
        have hplace : (opened name inside).state.processDir = cStr (dbDir name) ↔
            inside = true := by
          cases inside <;> simp [state, (cStr_dbDir_ne name).symm]
        exact (Alphadb.opensRight_opened hself).trans
          ((and_iff_right rfl).trans (hplace.trans (and_iff_right rfl).symm))
      · have hother := state_dbOpened_ne inside hname
        refine iff_of_false ?_ (fun h => hname h.1)
        cases chdir with
        | false => exact Alphadb.opensRight_fail hother
        | true => exact fun h => hdir ((Alphadb.opensRight_chdir hother).mp h)
    | closeDb name chdir =>
      by_cases hname : name = n
      · subst hname
        simpa [Alphadb.Meets, Allows] using Alphadb.closesRight_opened hself hdir
      · exact iff_of_true (Alphadb.closesRight_not_opened (state_dbOpened_ne inside hname))
          (fun h => absurd h hname)
    | dropDb name chdir rm =>
      by_cases hname : name = n
      · subst hname
        simpa [Alphadb.Meets, Allows, hself] using Alphadb.closesRight_opened hself hdir
      · exact iff_of_true (fun h => absurd h (by simp [state_dbOpened_ne inside hname]))
          (fun h => absurd h hname)

theorem closeDb_state (n : List Char) (inside : Bool) :
    ((opened n inside).state.closeDb n true).2 = closed.state := by
  rw [Alphadb.closeDb_of_chdir (state_dbOpened_self inside)]
  simp only [state, Alphadb.init, Alphadb.mk.injEq, true_and]
  funext m
  by_cases hm : m = n
  · simp [hm]
  · simp [hm]

/-- An allowed call leads from the state of a session to the state of the next one. -/
theorem call_state (v : Session) (c : DbCall) (h : v.Allows c) :
    (v.state.call c).2 = (v.call c).state := by
  cases v with
  | closed =>
    cases c with
    | createDb name chdir mkdir =>
      cases chdir <;>
        simp [state, call, Alphadb.call, Alphadb.createDb, Alphadb.chdir, Alphadb.init]
    | openDb name chdir =>
      obtain rfl : chdir = true := h
      rw [Alphadb.call, Alphadb.openDb_of_chdir rfl]
      simp only [state, call, Alphadb.init, dbDir, if_true, Alphadb.mk.injEq, true_and]
      funext m
      by_cases hm : m = name
      · simp [hm]
      · simp [hm]
    | closeDb name chdir =>
      rw [Alphadb.call, Alphadb.closeDb_of_not_opened rfl]
      rfl
    | dropDb name chdir rm => rfl
  | opened n inside =>
    cases c with
    | createDb name chdir mkdir =>
      cases chdir <;> simp [state, call, Alphadb.call, Alphadb.createDb, Alphadb.chdir]
    | openDb name chdir =>
      obtain ⟨rfl, -⟩ := h
      rw [Alphadb.call, Alphadb.openDb_of_opened (state_dbOpened_self inside)]
      rfl
    | closeDb name chdir =>
      by_cases hname : name = n
      · subst hname
        obtain rfl : chdir = true := h rfl
        simpa [call, Alphadb.call] using closeDb_state name inside
      · rw [Alphadb.call, Alphadb.closeDb_of_not_opened (state_dbOpened_ne inside hname)]
        simp [call, hname]
    | dropDb name chdir rm =>
      by_cases hname : name = n
      · subst hname
        obtain rfl : chdir = true := h rfl
        simpa [call, Alphadb.call, Alphadb.dropDb, state_dbOpened_self] using
          closeDb_state name inside
      · simp [call, Alphadb.call, Alphadb.dropDb, state_dbOpened_ne inside hname, hname]

theorem sound_iff_allowed (v : Session) (calls : List DbCall) :
    v.state.Sound calls ↔ v.Allowed calls := by
  induction calls generalizing v with
  | nil => exact Iff.rfl
  | cons c calls ih =>
    rw [Alphadb.Sound, Allowed, meets_iff]
    refine and_congr_right fun h => ?_
    rw [call_state v c h]
    exact ih (v.call c)

end Session

/-- A sequence of calls does what is asked of it exactly when it keeps to one database at a time,
whose directories are there when it opens and closes. -/
theorem directory_sound_iff (calls : List DbCall) :
    Alphadb.init.Sound calls ↔ Session.closed.Allowed calls :=
  Session.sound_iff_allowed .closed calls

/-- A second database is opened inside the directory of the first. -/
theorem nested_open_not_sound :
    ¬ Alphadb.init.Sound [.openDb ['a'] true, .openDb ['b'] true] := by
  intro h
  have hdir := (h.2.1.1 rfl).1
  exact absurd hdir (by decide)

end AlphaDb.Db
