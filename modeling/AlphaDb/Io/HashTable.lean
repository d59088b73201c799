import Mathlib

/-! The page table of the buffer pool (`io/hash_table`): chained buckets keyed by descriptor and
page. A chain is the list of its entries from the head on. -/
namespace AlphaDb.Io

structure HashEntry where
  fd : ℤ
  page : ℤ
  slot : ℕ
  deriving DecidableEq, Repr

def HashEntry.key (e : HashEntry) : ℤ × ℤ := (e.fd, e.page)

/-- `bucket` is the array of chain heads. The array has `bucketNum` cells, so an index below zero
is outside of it; `InRange` says when a call stays inside. -/
structure HashTable where
  bucketNum : ℕ
  bucket : ℤ → List HashEntry
  /-- `insert` looks the pair up first, so a chain holds it at most once. -/
  nodup : ∀ b, ((bucket b).map HashEntry.key).Nodup

namespace HashTable

variable {t : HashTable} {fd page fd' page' : ℤ} {slot slot' : ℕ}

def new (bucketNum : ℕ) : HashTable := ⟨bucketNum, fun _ => [], fun _ => List.nodup_nil⟩

/-- The remainder of C++ takes the sign of the dividend. -/
def hash (t : HashTable) (fd page : ℤ) : ℤ := (fd + page).tmod t.bucketNum

/-- The bucket of the pair lies inside the array. -/
def InRange (t : HashTable) (fd page : ℤ) : Prop := 0 ≤ t.hash fd page

instance : Decidable (t.InRange fd page) := inferInstanceAs (Decidable (0 ≤ t.hash fd page))

/-- `none` is the source's `-1`. -/
def find (t : HashTable) (fd page : ℤ) : Option ℕ :=
  ((t.bucket (t.hash fd page)).find? fun e => e.key = (fd, page)).map HashEntry.slot

theorem find_eq_none_iff :
    t.find fd page = none ↔ (fd, page) ∉ (t.bucket (t.hash fd page)).map HashEntry.key := by
  simp [find]

def insert (t : HashTable) (fd page : ℤ) (slot : ℕ) : HashTable :=
  if h : t.find fd page = none then
    { t with
      bucket := Function.update t.bucket (t.hash fd page)
        (⟨fd, page, slot⟩ :: t.bucket (t.hash fd page))
      nodup := by
        intro b
        by_cases hb : b = t.hash fd page
        · subst hb
          simpa [HashEntry.key] using ⟨by simpa [HashEntry.key] using find_eq_none_iff.mp h,
            t.nodup (t.hash fd page)⟩
        · simpa [Function.update, hb] using t.nodup b }
  else t

/-- The three unlinking branches of the source all drop the entry found from its chain. -/
def remove (t : HashTable) (fd page : ℤ) : HashTable where
  bucketNum := t.bucketNum
  bucket := Function.update t.bucket (t.hash fd page)
    ((t.bucket (t.hash fd page)).eraseP fun e => e.key = (fd, page))
  nodup := by
    intro b
    by_cases hb : b = t.hash fd page
    · subst hb
      simpa using (t.nodup _).sublist (List.eraseP_sublist.map HashEntry.key)
    · simpa [Function.update, hb] using t.nodup b

@[simp] theorem find_new (m : ℕ) : (new m).find fd page = none := by
  simp [find, new]

@[simp] theorem bucketNum_insert : (t.insert fd page slot).bucketNum = t.bucketNum := by
  unfold insert
  split <;> rfl

theorem hash_insert : (t.insert fd page slot).hash fd' page' = t.hash fd' page' := by
  simp [hash]

theorem hash_remove : (t.remove fd page).hash fd' page' = t.hash fd' page' := rfl

theorem find_insert_self (h : t.find fd page = none) :
    (t.insert fd page slot).find fd page = some slot := by
  rw [find, hash_insert]
  simp [insert, h, HashEntry.key]

theorem find_insert_of_ne (hne : (fd', page') ≠ (fd, page)) :
    (t.insert fd page slot).find fd' page' = t.find fd' page' := by
  rw [find, hash_insert, find]
  unfold insert
  split
  · by_cases hb : t.hash fd' page' = t.hash fd page
    · simp only [hb, Function.update_self]
      rw [List.find?_cons_of_neg (by simpa [HashEntry.key] using hne.symm)]
    · simp [Function.update, hb]
  · rfl

theorem find_remove_self : (t.remove fd page).find fd page = none := by
  rw [find_eq_none_iff, hash_remove]
  have hnd := t.nodup (t.hash fd page)
  simp only [remove, Function.update_self]
  generalize t.bucket (t.hash fd page) = es at hnd
  induction es with
  | nil => simp
  | cons e es ih =>
    obtain ⟨he, hes⟩ := List.nodup_cons.mp hnd
    by_cases hk : e.key = (fd, page)
    · rw [List.eraseP_cons_of_pos (by simpa using hk)]
      exact hk ▸ he
    · rw [List.eraseP_cons_of_neg (by simpa using hk)]
      simpa [Ne.symm hk] using ih hes

theorem find_remove_of_ne (hne : (fd', page') ≠ (fd, page)) :
    (t.remove fd page).find fd' page' = t.find fd' page' := by
  rw [find, hash_remove, find]
  by_cases hb : t.hash fd' page' = t.hash fd page
  · simp only [remove, hb, Function.update_self]
    congr 1
    generalize t.bucket (t.hash fd page) = es
    induction es with
    | nil => rfl
    | cons e es ih =>
      by_cases hk : e.key = (fd, page)
      · rw [List.eraseP_cons_of_pos (by simpa using hk)]
        simp [hk, hne.symm]
      · rw [List.eraseP_cons_of_neg (by simpa using hk)]
        simp only [List.find?_cons, ih]
  · simp [remove, Function.update, hb]

end HashTable

end AlphaDb.Io
