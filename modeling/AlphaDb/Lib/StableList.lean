import Mathlib

/-! A doubly linked list whose nodes keep their identity while other nodes come and go, so that
an iterator into it can be stored elsewhere. Nodes are numbered in the order of creation. -/

/-- The nodes in order, each with its number; numbers from `next` on are unused. -/
structure StableList (α : Type*) where
  nodes : List (ℕ × α)
  next : ℕ
  fresh : ∀ p ∈ nodes, p.1 < next
  nodup : (nodes.map Prod.fst).Nodup

namespace StableList

variable {α : Type*} {l : StableList α} {a b : α} {i j : ℕ}

def empty : StableList α := ⟨[], 0, by simp, by simp⟩

def toList (l : StableList α) : List α := l.nodes.map Prod.snd

/-- Push a new node in front; its number is the old `next`. -/
def pushFront (l : StableList α) (a : α) : StableList α where
  nodes := (l.next, a) :: l.nodes
  next := l.next + 1
  fresh := by
    intro p hp
    rcases List.mem_cons.mp hp with rfl | hp
    · simp
    · exact Nat.lt_succ_of_lt (l.fresh p hp)
  nodup := by
    refine List.nodup_cons.mpr ⟨?_, l.nodup⟩
    intro hmem
    obtain ⟨p, hp, he⟩ := List.mem_map.mp hmem
    exact absurd (l.fresh p hp) (by simp at he; omega)

/-- Unlink the first node that satisfies `p`. -/
def eraseP (l : StableList α) (p : ℕ × α → Bool) : StableList α where
  nodes := l.nodes.eraseP p
  next := l.next
  fresh := fun q hq => l.fresh q (List.mem_of_mem_eraseP hq)
  nodup := l.nodup.sublist (List.eraseP_sublist.map Prod.fst)

/-- Unlink the node an iterator points at. -/
def erase (l : StableList α) (i : ℕ) : StableList α := l.eraseP fun p => p.1 == i

theorem mem_toList : a ∈ l.toList ↔ ∃ i, (i, a) ∈ l.nodes := by
  simp [toList]

@[simp] theorem toList_empty : (empty : StableList α).toList = [] := rfl

@[simp] theorem nodes_empty : (empty : StableList α).nodes = [] := rfl

@[simp] theorem toList_pushFront : (l.pushFront a).toList = a :: l.toList := rfl

@[simp] theorem nodes_pushFront : (l.pushFront a).nodes = (l.next, a) :: l.nodes := rfl

theorem toList_eraseP_sublist {p : ℕ × α → Bool} : (l.eraseP p).toList.Sublist l.toList :=
  List.eraseP_sublist.map Prod.snd

/-- One number names one node. -/
theorem value_unique (ha : (i, a) ∈ l.nodes) (hb : (i, b) ∈ l.nodes) : a = b := by
  have h := List.inj_on_of_nodup_map l.nodup ha hb rfl
  exact congrArg Prod.snd h

theorem mem_nodes_erase : (j, b) ∈ (l.erase i).nodes ↔ (j, b) ∈ l.nodes ∧ j ≠ i := by
  constructor
  · intro h
    refine ⟨List.mem_of_mem_eraseP h, ?_⟩
    rintro rfl
    have hnd := l.nodup
    change (j, b) ∈ l.nodes.eraseP _ at h
    generalize l.nodes = ns at h hnd
    induction ns with
    | nil => simp at h
    | cons p ns ih =>
      obtain ⟨hp, hns⟩ := List.nodup_cons.mp hnd
      by_cases he : p.1 = j
      · rw [List.eraseP_cons_of_pos (by simp [he])] at h
        exact hp (he ▸ List.mem_map_of_mem h)
      · rw [List.eraseP_cons_of_neg (by simp [he])] at h
        rcases List.mem_cons.mp h with rfl | h
        · exact he rfl
        · exact ih h hns
  · rintro ⟨h, hne⟩
    exact (List.mem_eraseP_of_neg (by simp [hne])).mpr h

/-- Unlinking the node of an iterator removes exactly its value from the sequence. -/
theorem toList_perm_erase (h : (i, a) ∈ l.nodes) : l.toList.Perm (a :: (l.erase i).toList) := by
  have hp : l.nodes.Perm ((i, a) :: l.nodes.eraseP fun p => p.1 == i) := by
    obtain ⟨x, l₁, l₂, _, hx, hl, hr⟩ := List.exists_of_eraseP h (p := fun p => p.1 == i) (by simp)
    have he : x = (i, a) := by
      have hmem : x ∈ l.nodes := by rw [hl]; simp
      exact List.inj_on_of_nodup_map l.nodup hmem h (by simpa using hx)
    rw [hr, hl, he]
    exact List.perm_middle
  exact hp.map Prod.snd

end StableList
