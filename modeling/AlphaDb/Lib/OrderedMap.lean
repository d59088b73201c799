import Mathlib

/-! Finite maps as lists of entries in the order of their keys. -/

/-- The keys are strictly increasing, so that each key has one value. -/
structure OrderedMap (κ ν : Type*) [LinearOrder κ] where
  entries : List (κ × ν)
  sorted : entries.Pairwise fun a b => a.1 < b.1

namespace OrderedMap

variable {κ ν : Type*} [LinearOrder κ] {m : OrderedMap κ ν} {k k' : κ} {v v' : ν} {a b : κ × ν}

def empty : OrderedMap κ ν := ⟨[], .nil⟩

def find? (m : OrderedMap κ ν) (k : κ) : Option ν := (m.entries.find? (·.1 = k)).map Prod.snd

def insertEntry (k : κ) (v : ν) : List (κ × ν) → List (κ × ν)
  | [] => [(k, v)]
  | a :: l =>
    if k < a.1 then (k, v) :: a :: l
    else if a.1 < k then a :: insertEntry k v l
    else (k, v) :: l

theorem mem_insertEntry {l : List (κ × ν)} (h : a ∈ insertEntry k v l) : a = (k, v) ∨ a ∈ l := by
  induction l with
  | nil => exact Or.inl (List.mem_singleton.mp h)
  | cons b l ih =>
    rw [insertEntry] at h
    split at h
    · exact List.mem_cons.mp h
    · split at h
      · rcases List.mem_cons.mp h with rfl | h
        · exact Or.inr List.mem_cons_self
        · exact (ih h).imp id (List.mem_cons_of_mem _)
      · rcases List.mem_cons.mp h with rfl | h
        · exact Or.inl rfl
        · exact Or.inr (List.mem_cons_of_mem _ h)

theorem insertEntry_sorted {l : List (κ × ν)} (h : l.Pairwise fun a b => a.1 < b.1) :
    (insertEntry k v l).Pairwise fun a b => a.1 < b.1 := by
  induction l with
  | nil => exact List.pairwise_singleton ..
  | cons b l ih =>
    obtain ⟨hb, hl⟩ := List.pairwise_cons.mp h
    rw [insertEntry]
    split
    · next hlt =>
      refine List.pairwise_cons.mpr ⟨?_, h⟩
      intro a ha
      rcases List.mem_cons.mp ha with rfl | ha
      · exact hlt
      · exact hlt.trans (hb a ha)
    · split
      · next hgt =>
        refine List.pairwise_cons.mpr ⟨?_, ih hl⟩
        intro a ha
        rcases mem_insertEntry ha with rfl | ha
        · exact hgt
        · exact hb a ha
      · next hge hle =>
        obtain rfl : k = b.1 := le_antisymm (not_lt.mp hle) (not_lt.mp hge)
        exact List.pairwise_cons.mpr ⟨hb, hl⟩

/-- A new entry, or a new value for a key that is there. -/
def insert (m : OrderedMap κ ν) (k : κ) (v : ν) : OrderedMap κ ν :=
  ⟨insertEntry k v m.entries, insertEntry_sorted m.sorted⟩

/-- A new entry, unless the key is there. -/
def insertNew (m : OrderedMap κ ν) (k : κ) (v : ν) : OrderedMap κ ν :=
  if (m.find? k).isSome then m else m.insert k v

def erase (m : OrderedMap κ ν) (k : κ) : OrderedMap κ ν :=
  ⟨m.entries.filter (·.1 ≠ k), m.sorted.filter _⟩

/-- The entries before a bound. -/
def before (m : OrderedMap κ ν) (bound : κ) : List (κ × ν) := m.entries.takeWhile (·.1 < bound)

/-- The entries from a bound on. -/
def behind (m : OrderedMap κ ν) (bound : κ) : OrderedMap κ ν :=
  ⟨m.entries.dropWhile (·.1 < bound), m.sorted.sublist (List.dropWhile_sublist _)⟩

theorem before_append_behind (m : OrderedMap κ ν) (bound : κ) :
    m.before bound ++ (m.behind bound).entries = m.entries :=
  List.takeWhile_append_dropWhile

theorem before_sorted (m : OrderedMap κ ν) (bound : κ) :
    (m.before bound).Pairwise fun a b => a.1 < b.1 :=
  m.sorted.sublist (List.takeWhile_sublist _)

theorem lt_of_mem_before {bound : κ} (h : a ∈ m.before bound) : a.1 < bound := by
  simpa using List.mem_takeWhile_imp h

/-- Everything below the bound is before it. -/
theorem mem_before {bound : κ} (h : a ∈ m.entries) (hlt : a.1 < bound) : a ∈ m.before bound := by
  obtain ⟨l, hs⟩ := m
  unfold before
  dsimp only at h ⊢
  induction l with
  | nil => exact h
  | cons b l ih =>
    obtain ⟨hb, hl⟩ := List.pairwise_cons.mp hs
    have hfirst : b.1 < bound := by
      rcases List.mem_cons.mp h with rfl | h
      · exact hlt
      · exact (hb a h).trans hlt
    rw [List.takeWhile_cons_of_pos (by simpa using hfirst)]
    rcases List.mem_cons.mp h with rfl | h
    · exact List.mem_cons_self
    · exact List.mem_cons_of_mem _ (ih hl h)

/-- A key has one entry. -/
theorem eq_of_key_eq (ha : a ∈ m.entries) (hb : b ∈ m.entries) (h : a.1 = b.1) : a = b := by
  have hnodup : (m.entries.map Prod.fst).Nodup :=
    List.pairwise_map.mpr (m.sorted.imp fun h => h.ne)
  exact List.inj_on_of_nodup_map hnodup ha hb h

theorem find?_eq_some : m.find? k = some v ↔ (k, v) ∈ m.entries := by
  unfold find?
  constructor
  · intro h
    obtain ⟨a, ha, rfl⟩ := Option.map_eq_some_iff.mp h
    have hk : a.1 = k := by simpa using List.find?_some ha
    rw [← hk]
    exact List.mem_of_find?_eq_some ha
  · intro h
    cases hf : m.entries.find? (·.1 = k) with
    | none => exact absurd (List.find?_eq_none.mp hf (k, v) h) (by simp)
    | some a =>
      have hk : a.1 = k := by simpa using List.find?_some hf
      obtain rfl := eq_of_key_eq (List.mem_of_find?_eq_some hf) h hk
      rfl

theorem find?_eq_none : m.find? k = none ↔ ∀ a ∈ m.entries, a.1 ≠ k := by
  simp [find?, List.find?_eq_none]

/-- A key that was not there comes in addition. -/
theorem insertEntry_perm {l : List (κ × ν)} (h : ∀ a ∈ l, a.1 ≠ k) :
    (insertEntry k v l).Perm ((k, v) :: l) := by
  induction l with
  | nil => exact .refl _
  | cons b l ih =>
    rw [insertEntry]
    split
    · exact .refl _
    · split
      · exact ((ih fun a ha => h a (List.mem_cons_of_mem _ ha)).cons b).trans (.swap ..)
      · next hge hle =>
        have heq : b.1 = k := le_antisymm (not_lt.mp hge) (not_lt.mp hle)
        exact absurd heq (h b List.mem_cons_self)

theorem insert_perm (h : m.find? k = none) : (m.insert k v).entries.Perm ((k, v) :: m.entries) :=
  insertEntry_perm (find?_eq_none.mp h)

theorem countP_insert (h : m.find? k = none) (p : κ × ν → Bool) :
    (m.insert k v).entries.countP p = m.entries.countP p + if p (k, v) then 1 else 0 := by
  rw [(insert_perm h).countP_eq, List.countP_cons]

theorem mem_insert (h : a ∈ (m.insert k v).entries) : a = (k, v) ∨ a ∈ m.entries :=
  mem_insertEntry h

theorem mem_insertEntry_self (l : List (κ × ν)) : (k, v) ∈ insertEntry k v l := by
  induction l with
  | nil => exact List.mem_singleton.mpr rfl
  | cons b l ih =>
    rw [insertEntry]
    split
    · exact List.mem_cons_self
    · split
      · exact List.mem_cons_of_mem _ ih
      · exact List.mem_cons_self

theorem mem_insertEntry_of_ne {l : List (κ × ν)} (h : a ∈ l) (hne : a.1 ≠ k) :
    a ∈ insertEntry k v l := by
  induction l with
  | nil => exact absurd h List.not_mem_nil
  | cons b l ih =>
    rw [insertEntry]
    split
    · exact List.mem_cons_of_mem _ h
    · split
      · rcases List.mem_cons.mp h with rfl | h
        · exact List.mem_cons_self
        · exact List.mem_cons_of_mem _ (ih h)
      · next hge hle =>
        rcases List.mem_cons.mp h with rfl | h
        · exact absurd (le_antisymm (not_lt.mp hge) (not_lt.mp hle)) hne
        · exact List.mem_cons_of_mem _ h

@[simp] theorem find?_insert_self (m : OrderedMap κ ν) (k : κ) (v : ν) :
    (m.insert k v).find? k = some v :=
  find?_eq_some.mpr (mem_insertEntry_self _)

theorem find?_insert_of_ne (h : k' ≠ k) : (m.insert k v).find? k' = m.find? k' := by
  ext v'
  rw [find?_eq_some, find?_eq_some]
  constructor
  · intro hmem
    rcases mem_insertEntry hmem with heq | hmem
    · exact absurd (Prod.mk.inj heq).1 h
    · exact hmem
  · intro hmem
    exact mem_insertEntry_of_ne hmem h

@[simp] theorem mem_erase : a ∈ (m.erase k).entries ↔ a ∈ m.entries ∧ a.1 ≠ k := by
  simp [erase]

@[simp] theorem find?_erase_self (m : OrderedMap κ ν) (k : κ) : (m.erase k).find? k = none := by
  rw [find?_eq_none]
  intro a ha
  exact (mem_erase.mp ha).2

theorem find?_erase_of_ne (h : k' ≠ k) : (m.erase k).find? k' = m.find? k' := by
  ext v'
  rw [find?_eq_some, find?_eq_some, mem_erase]
  exact and_iff_left h

end OrderedMap
