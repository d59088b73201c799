import AlphaDb.Index.BPlusTree

/-! Well-formed B+ trees: sorted leaves at one depth, separators that bound their subtrees, nodes
that are neither too small nor too large. -/
namespace AlphaDb.Index.BPlusTree

open Table (Rid)

variable {K : Type} {t : BPlusTree K} {es : List (Entry K)} {e : Entry K} {k : K} {p : Rid}
  {lo : WithBot K} {hi : WithTop K} {h r : ℕ}

theorem child_eq {n : Node} {i : ℕ} (hn : t.nodes r = some n)
    (hp : t.pages n.pageId.page = some ⟨false, es⟩) (hi : i < es.length) :
    InternalNode.child r i t = some (t.newNode none es[i].id) := by
  have he : t.entries false r = some es := entries_eq_some.mpr ⟨n, hn, hp⟩
  simp [InternalNode.child, he, hi]

theorem entries_internal_leaf {n : Node} (hn : t.nodes r = some n)
    (hp : t.pages n.pageId.page = some ⟨true, es⟩) : t.entries false r = none := by
  simp [entries, hn, hp]

variable [LinearOrder K]

/-- The entries of a leaf for the keys from `lo` to below `hi`. Behind the records there may be a
dummy entry. -/
structure LeafEntries (lo : WithBot K) (hi : WithTop K) (records dummy : List (Entry K)) :
    Prop where
  ordered : IndexFormat.Ordered records
  record : ∀ e ∈ records, e.id ≠ Rid.null ∧ ∃ k : K, e.key = k ∧ lo ≤ k ∧ (k : WithTop K) < hi
  dummy : dummy = [] ∨ ∃ id, dummy = [⟨⊥, id⟩]

/-- The children of an internal node, each in the range that the keys around it give. The last key
separates nothing. -/
def Separated (child : WithBot K → WithTop K → ℤ → Prop) (lo : WithBot K) (hi : WithTop K) :
    List (Entry K) → Prop
  | [] => False
  | e :: es =>
    if es = [] then child lo hi e.id.page
    else ∃ k : K, e.key = k ∧ lo ≤ k ∧ (k : WithTop K) < hi ∧ child lo k e.id.page ∧
      Separated child k hi es

/-- A node other than the root holds a legal number of entries. -/
def Sized (pages : ℤ → Option (Page K)) (pg : ℤ) : Prop :=
  ∀ page ∈ pages pg,
    minSize page.isLeaf ≤ page.entries.length ∧ page.entries.length ≤ maxSize page.isLeaf

/-- Below page `pg` there are `h` levels, with leaves at the last. -/
def Subtree (pages : ℤ → Option (Page K)) : ℕ → WithBot K → WithTop K → ℤ → Prop
  | 0, lo, hi, pg => ∃ records dummy, pages pg = some ⟨true, records ++ dummy⟩ ∧
      LeafEntries lo hi records dummy
  | h + 1, lo, hi, pg => ∃ es, pages pg = some ⟨false, es⟩ ∧
      Separated (fun lo hi pg => Sized pages pg ∧ Subtree pages h lo hi pg) lo hi es

def WellFormed (t : BPlusTree K) : Prop :=
  ∀ r ∈ t.root, ∃ (n : Node) (h : ℕ), t.nodes r = some n ∧ n.parent = none ∧
    t.height = (h : ℤ) + 1 ∧ Subtree t.pages h ⊥ ⊤ n.pageId.page

/-- Some leaf below page `pg` holds the pair. -/
inductive Holds (pages : ℤ → Option (Page K)) (k : K) (p : Rid) : ℤ → Prop
  | leaf {pg : ℤ} {es : List (Entry K)} (hp : pages pg = some ⟨true, es⟩)
      (he : ⟨(k : WithBot K), p⟩ ∈ es) : Holds pages k p pg
  | child {pg : ℤ} {es : List (Entry K)} {e : Entry K} (hp : pages pg = some ⟨false, es⟩)
      (he : e ∈ es) (hh : Holds pages k p e.id.page) : Holds pages k p pg

def Stored (t : BPlusTree K) (k : K) (p : Rid) : Prop :=
  ∃ r n, t.root = some r ∧ t.nodes r = some n ∧ Holds t.pages k p n.pageId.page

theorem Separated.child {child : WithBot K → WithTop K → ℤ → Prop}
    (hs : Separated child lo hi es) (he : e ∈ es) : ∃ lo hi, child lo hi e.id.page := by
  induction es generalizing lo with
  | nil => cases he
  | cons e' es ih =>
    unfold Separated at hs
    split at hs
    · rename_i hnil
      subst hnil
      cases List.mem_singleton.mp he
      exact ⟨lo, hi, hs⟩
    · obtain ⟨k, -, -, -, hc, hs⟩ := hs
      rcases List.mem_cons.mp he with rfl | he
      · exact ⟨lo, k, hc⟩
      · exact ih hs he

theorem Separated.ne_nil {child : WithBot K → WithTop K → ℤ → Prop}
    (hs : Separated child lo hi es) : es ≠ [] := by
  rintro rfl
  exact hs

/-- A step from an internal node leads to one of its children and makes a new node for it. From a
leaf there is no step. -/
structure StepsDown (down : ℕ → BPlusTree K → Option (ℕ × BPlusTree K)) : Prop where
  child : ∀ {t : BPlusTree K} {r : ℕ} {n : Node} {es : List (Entry K)}, t.nodes r = some n →
    t.pages n.pageId.page = some ⟨false, es⟩ → es ≠ [] →
    ∃ e ∈ es, down r t = some (t.newNode none e.id)
  leaf : ∀ {t : BPlusTree K} {r : ℕ} {n : Node} {es : List (Entry K)}, t.nodes r = some n →
    t.pages n.pageId.page = some ⟨true, es⟩ → down r t = none

theorem stepsDown_lookup (arrayLe : WithBot K → Bool) (k : K) :
    StepsDown fun n t => InternalNode.lookup arrayLe n k t := by
  constructor
  · intro t r n es hn hp hne
    have he : t.entries false r = some es := entries_eq_some.mpr ⟨n, hn, hp⟩
    obtain ⟨i, hi, hlt⟩ := IndexFormat.findInInternal_lt arrayLe k hne
    refine ⟨es[i], List.getElem_mem hlt, ?_⟩
    simp [InternalNode.lookup, he, hi, child_eq hn hp hlt]
  · intro t r n es hn hp
    simp [InternalNode.lookup, entries_internal_leaf hn hp]

/-- Below a page with `h` levels, a descent of more than `h` rounds comes to a leaf with steps left.
-/
theorem Subtree.descend_eq_none {down : ℕ → BPlusTree K → Option (ℕ × BPlusTree K)}
    (hd : StepsDown down) {n : Node} {m : ℕ} (hs : Subtree t.pages h lo hi n.pageId.page)
    (hn : t.nodes r = some n) (hm : h < m) : descend down m r t = none := by
  induction h generalizing t r n m lo hi with
  | zero =>
    obtain ⟨records, dummy, hp, -⟩ := hs
    obtain ⟨m, rfl⟩ := Nat.exists_eq_add_of_lt hm
    simp [descend, hd.leaf hn hp]
  | succ h ih =>
    obtain ⟨es, hp, hsep⟩ := hs
    obtain ⟨e, he, hl⟩ := hd.child hn hp hsep.ne_nil
    obtain ⟨lo', hi', -, hchild⟩ := hsep.child he
    obtain ⟨m, rfl⟩ := Nat.exists_eq_add_one_of_ne_zero (show m ≠ 0 by omega)
    have hrest := ih (t := (t.newNode none e.id).2) (r := t.heap) (n := ⟨e.id, none, .uninit⟩)
      (m := m) hchild (Function.update_self _ _ _) (by omega)
    rw [descend, hl, Option.bind_eq_bind, Option.bind_some]
    exact (if_neg (by omega)).trans hrest

/-- In a tree of more than one level, the loop makes one round too many and the leaf is not reached.
-/
theorem Subtree.leafBy_eq_none {down : ℕ → BPlusTree K → Option (ℕ × BPlusTree K)}
    (hd : StepsDown down) {n : Node} (hr : t.root = some r) (hn : t.nodes r = some n)
    (hh : t.height = (h : ℤ) + 1 + 1) (hs : Subtree t.pages (h + 1) ⊥ ⊤ n.pageId.page) :
    leafBy down t = none := by
  have hrounds : rounds t.height = h + 2 := by
    rw [hh, rounds, if_pos (by omega)]
    omega
  have hone : ¬ t.height = 1 := by omega
  simp [leafBy, hr, hone, hrounds, hs.descend_eq_none hd hn (show h + 1 < h + 2 by omega)]

/-- The pairs `xs` in one leaf, on page 1. -/
def singleLeaf (xs : List (K × Rid)) : BPlusTree K where
  height := 1
  root := some 0
  nodes _ := some ⟨⟨1, -1⟩, none, .uninit⟩
  heap := 1
  pages _ := some ⟨true, xs.map fun x => ⟨x.1, x.2⟩⟩
  nextPage := 2
  numPages := 2

theorem singleLeaf_wellFormed {xs : List (K × Rid)} (ho : xs.Pairwise fun a b => a.1 < b.1)
    (hnull : ∀ x ∈ xs, x.2 ≠ Rid.null) : WellFormed (singleLeaf xs) := by
  intro r hr
  refine ⟨_, 0, rfl, rfl, by simp [singleLeaf], _, [], by rw [List.append_nil]; rfl, ?_, ?_,
    .inl rfl⟩
  · rw [IndexFormat.Ordered, List.pairwise_map]
    exact ho.imp WithBot.coe_lt_coe.mpr
  · intro e he
    obtain ⟨x, hx, rfl⟩ := List.mem_map.mp he
    exact ⟨hnull x hx, x.1, rfl, bot_le, WithTop.coe_lt_top _⟩

end AlphaDb.Index.BPlusTree
