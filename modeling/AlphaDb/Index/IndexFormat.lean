import AlphaDb.Lib.BinarySearch
import AlphaDb.Table.TableFormat
import Mathlib.Data.List.Sort
import Mathlib.Order.WithBot

/-! The entries of an index page (`index/b+tree/index_format`), with `insert` and `remove` as sorted
insertion and deletion. The key `⊥` stands for a null pointer, which is also the dummy key. -/
namespace AlphaDb.Index

open Table (Rid)

structure Entry (K : Type*) where
  key : WithBot K
  id : Rid
deriving DecidableEq

namespace IndexFormat

variable {K : Type*} [LinearOrder K] {key : WithBot K} {id : Rid} {es : List (Entry K)}
  {e : Entry K}

/-- What `search` leaves in `id`. -/
def search (key : WithBot K) (es : List (Entry K)) : Option Rid :=
  (es.find? fun e => e.key = key).map Entry.id

/-- A key that is there is not inserted again. -/
def insert (key : WithBot K) (id : Rid) (es : List (Entry K)) : List (Entry K) :=
  if ∃ e ∈ es, e.key = key then es else es.orderedInsert (fun a b => a.key ≤ b.key) ⟨key, id⟩

/-- The key alone decides what goes. -/
def remove (key : WithBot K) (_id : Rid) (es : List (Entry K)) : Bool × List (Entry K) :=
  if ∃ e ∈ es, e.key = key then (true, es.eraseP fun e => e.key = key) else (false, es)

/-- `find_in_internal`: the test behind `key > keys[i]` is on the array `keys` in place of `key`,
and `arrayLe` is its answer. -/
def findInInternal (arrayLe : WithBot K → Bool) (key : WithBot K) (es : List (Entry K)) :
    Option ℕ :=
  if es = [] then none
  else match es.dropLast.findIdx? fun e => !decide (e.key < key) && arrayLe e.key with
    | none => some (es.length - 1)
    | some ret => es[ret]?.map fun e => if key = e.key then ret + 1 else ret

/-- `find_in_leaf`: the last entry is left out of the search. -/
def findInLeaf (key : WithBot K) (es : List (Entry K)) : Option ℤ :=
  BinarySearch.search (fun i => es[i.toNat]?.map fun e => cmp e.key key) 0 (es.length - 2)

def Ordered (es : List (Entry K)) : Prop := es.Pairwise fun a b => a.key < b.key

theorem Ordered.key_ne {es' : List (Entry K)} {a b : Entry K} (h : Ordered (es ++ es'))
    (ha : a ∈ es) (hb : b ∈ es') : a.key ≠ b.key :=
  ((List.pairwise_append.mp h).2.2 a ha b hb).ne

theorem search_eq_none : search key es = none ↔ ∀ e ∈ es, e.key ≠ key := by
  simp [search]

theorem Ordered.search_eq_some (h : Ordered es) : search key es = some id ↔ ⟨key, id⟩ ∈ es := by
  constructor
  · intro hs
    obtain ⟨e, he, rfl⟩ := Option.map_eq_some_iff.mp hs
    have hkey : e.key = key := by simpa using List.find?_some he
    rw [← hkey]
    exact List.mem_of_find?_eq_some he
  · intro hmem
    obtain ⟨before, after, rfl⟩ := List.append_of_mem hmem
    have hne : ∀ e ∈ before, ¬ e.key = key := fun e he =>
      h.key_ne he List.mem_cons_self
    have hnone : before.find? (fun e => decide (e.key = key)) = none := by simpa using hne
    simp [search, List.find?_append, hnone]

theorem search_append {es' : List (Entry K)} (h : ∀ e ∈ es', e.key ≠ key) :
    search key (es ++ es') = search key es := by
  have hnone : es'.find? (fun e => decide (e.key = key)) = none := by simpa using h
  rw [search, search, List.find?_append, hnone, Option.or_none]

/-- Deletion takes out the one entry with the key. -/
theorem Ordered.mem_eraseP (h : Ordered es) :
    e ∈ es.eraseP (fun e => decide (e.key = key)) ↔ e ∈ es ∧ e.key ≠ key := by
  induction es with
  | nil => simp
  | cons a es ih =>
    obtain ⟨ha, hes⟩ := List.pairwise_cons.mp h
    by_cases hk : a.key = key
    · rw [List.eraseP_cons_of_pos (by simpa using hk)]
      subst hk
      constructor
      · intro he
        exact ⟨List.mem_cons_of_mem _ he, (ha e he).ne'⟩
      · rintro ⟨he, hne⟩
        rcases List.mem_cons.mp he with rfl | he
        · exact absurd rfl hne
        · exact he
    · rw [List.eraseP_cons_of_neg (by simpa using hk), List.mem_cons, List.mem_cons, ih hes]
      constructor
      · rintro (rfl | ⟨he, hne⟩)
        · exact ⟨.inl rfl, hk⟩
        · exact ⟨.inr he, hne⟩
      · rintro ⟨rfl | he, hne⟩
        · exact .inl rfl
        · exact .inr ⟨he, hne⟩

theorem mem_of_mem_insert (h : e ∈ insert key id es) : e = ⟨key, id⟩ ∨ e ∈ es := by
  unfold insert at h
  split at h
  · exact .inr h
  · exact (List.mem_orderedInsert _).mp h

theorem insert_ne_nil : insert key id es ≠ [] := by
  unfold insert
  split
  · rename_i h
    obtain ⟨e, he, -⟩ := h
    exact List.ne_nil_of_mem he
  · exact List.ne_nil_of_mem ((List.mem_orderedInsert _).mpr (.inl rfl))

theorem length_insert (key : WithBot K) (id : Rid) (es : List (Entry K)) :
    (insert key id es).length =
      if ∃ e ∈ es, e.key = key then es.length else es.length + 1 := by
  unfold insert
  split
  · rfl
  · exact List.orderedInsert_length ..

/-- The keys after an insertion. -/
theorem exists_key_insert {key' : WithBot K} :
    (∃ e ∈ insert key id es, e.key = key') ↔ key' = key ∨ ∃ e ∈ es, e.key = key' := by
  unfold insert
  split
  · rename_i h
    constructor
    · exact .inr
    · rintro (rfl | he)
      · exact h
      · exact he
  · simp only [List.mem_orderedInsert, exists_eq_or_imp]
    exact or_congr_left eq_comm

theorem Ordered.insert (h : Ordered es) : Ordered (insert key id es) := by
  unfold IndexFormat.insert
  split
  · exact h
  · rename_i hnot
    induction es with
    | nil => exact List.pairwise_singleton _ _
    | cons a es ih =>
      obtain ⟨ha, hes⟩ := List.pairwise_cons.mp h
      have hne : a.key ≠ key := fun he => hnot ⟨a, List.mem_cons_self, he⟩
      by_cases hle : key ≤ a.key
      · have hlt : key < a.key := lt_of_le_of_ne hle hne.symm
        rw [List.orderedInsert_cons, if_pos hle]
        refine List.pairwise_cons.mpr ⟨?_, h⟩
        intro b hb
        rcases List.mem_cons.mp hb with rfl | hb
        · exact hlt
        · exact hlt.trans (ha b hb)
      · rw [List.orderedInsert_cons, if_neg hle]
        refine List.pairwise_cons.mpr ⟨?_, ih hes fun ⟨e, he, hk⟩ => hnot ⟨e, by simp [he], hk⟩⟩
        intro b hb
        rcases (List.mem_orderedInsert _).mp hb with rfl | hb
        · exact not_le.mp hle
        · exact ha b hb

/-- The keys before the last entry are found, and no other. -/
theorem findInLeaf_eq (key : WithBot K) (h : Ordered es.dropLast) :
    (∃ (i : ℕ) (e : Entry K), es.dropLast[i]? = some e ∧ e.key = key ∧
      findInLeaf key es = some (i : ℤ)) ∨
      (∀ e ∈ es.dropLast, e.key ≠ key) ∧ findInLeaf key es = some (-1) := by
  have hlen : es.dropLast.length = es.length - 1 := List.length_dropLast
  have hget (i : ℤ) (hi : 0 ≤ i) (hi' : i ≤ es.length - 2) :
      ∃ hlt : i.toNat < es.dropLast.length, es[i.toNat]? = some es.dropLast[i.toNat] := by
    refine ⟨by omega, ?_⟩
    rw [List.getElem_dropLast]
    exact List.getElem?_eq_getElem _
  have hp : BinarySearch.Probes (fun i => es[i.toNat]?.map fun e => cmp e.key key)
      (fun i => (es[i.toNat]?.map Entry.key).getD ⊥) key 0 (es.length - 2) := by
    constructor
    · intro i hi hi'
      obtain ⟨hlt, he⟩ := hget i hi hi'
      simp [he]
    · intro i j hi hij hj
      obtain ⟨hlt, he⟩ := hget i hi (by omega)
      obtain ⟨hlt', he'⟩ := hget j (by omega) hj
      simpa [he, he'] using List.pairwise_iff_getElem.mp h i.toNat j.toNat hlt hlt' (by omega)
  rcases hp.search_eq with ⟨i, hi, hi', hk, hs⟩ | ⟨hk, hs⟩
  · obtain ⟨hlt, he⟩ := hget i hi hi'
    refine .inl ⟨i.toNat, es.dropLast[i.toNat], List.getElem?_eq_getElem hlt, ?_, ?_⟩
    · simpa [he] using hk
    · rw [findInLeaf, hs, Int.toNat_of_nonneg hi]
  · refine .inr ⟨?_, hs⟩
    intro e he
    obtain ⟨i, hlt, rfl⟩ := List.mem_iff_getElem.mp he
    obtain ⟨_, hi⟩ := hget i (by omega) (by omega)
    have hne := hk i (by omega) (by omega)
    rw [hi] at hne
    exact hne

theorem findInLeaf_singleton : findInLeaf key [e] = some (-1) := by
  rw [findInLeaf, BinarySearch.search, if_neg (by simp)]

theorem findInInternal_lt (arrayLe : WithBot K → Bool) (key : WithBot K) (h : es ≠ []) :
    ∃ i, findInInternal arrayLe key es = some i ∧ i < es.length := by
  have hpos := List.length_pos_iff.mpr h
  rw [findInInternal, if_neg h]
  cases hret : es.dropLast.findIdx? fun e => !decide (e.key < key) && arrayLe e.key with
  | none => exact ⟨_, rfl, by omega⟩
  | some ret =>
    obtain ⟨hlt, -⟩ := List.findIdx?_eq_some_iff_getElem.mp hret
    rw [List.length_dropLast] at hlt
    simp only [List.getElem?_eq_getElem (show ret < es.length by omega), Option.map_some]
    refine ⟨_, rfl, ?_⟩
    split <;> omega

end IndexFormat

end AlphaDb.Index
