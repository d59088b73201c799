import AlphaDb.Index.WellFormed

/-! Descents to the leaf for a key, to the first and to the last leaf. The loop tests for its last
round when it is already at the next level. -/
namespace AlphaDb.Index.BPlusTree

open Table (Rid)

variable {K : Type} {t : BPlusTree K} {r : ℕ}

def lastChild (a : ℕ) (t : BPlusTree K) : Option (ℕ × BPlusTree K) := do
  let es ← t.entries false a
  InternalNode.child a (es.length - 1) t

def findLargestLeafNode (t : BPlusTree K) : Option (Option ℕ × BPlusTree K) := leafBy lastChild t

/-- From page `pg`, `d` steps to children that `choose` allows lead to a leaf. -/
inductive Route (pages : ℤ → Option (Page K)) (choose : List (Entry K) → ℕ → Prop) :
    ℕ → ℤ → ℤ → Prop
  | leaf {pg : ℤ} {es : List (Entry K)} (hp : pages pg = some ⟨true, es⟩) :
      Route pages choose 0 pg pg
  | child {pg leaf : ℤ} {es : List (Entry K)} {e : Entry K} {d i : ℕ}
      (hp : pages pg = some ⟨false, es⟩) (hc : choose es i) (he : es[i]? = some e)
      (hr : Route pages choose d e.id.page leaf) : Route pages choose (d + 1) pg leaf

/-- A descent came to the leaf at the end of the route, `height_ - 1` steps below the root. Each
step made a node. -/
def Reaches (choose : List (Entry K) → ℕ → Prop) (t : BPlusTree K)
    (found : Option (Option ℕ × BPlusTree K)) : Prop :=
  ∃ (r l d : ℕ) (n n' : Node) (t' : BPlusTree K), t.root = some r ∧ t.nodes r = some n ∧
    found = some (some l, t') ∧ t'.nodes l = some n' ∧ t.height = (d : ℤ) + 1 ∧
    t'.heap = t.heap + d ∧ Route t.pages choose d n.pageId.page n'.pageId.page

theorem stepsDown_smallest : StepsDown fun n (t : BPlusTree K) => InternalNode.child n 0 t := by
  constructor
  · intro t r n es hn hp hne
    have hlt := List.length_pos_iff.mpr hne
    exact ⟨es[0], List.getElem_mem hlt, child_eq hn hp hlt⟩
  · intro t r n es hn hp
    simp [InternalNode.child, entries_internal_leaf hn hp]

theorem stepsDown_largest : StepsDown (lastChild : ℕ → BPlusTree K → _) := by
  constructor
  · intro t r n es hn hp hne
    have hlt : es.length - 1 < es.length := Nat.sub_one_lt (List.length_pos_iff.mpr hne).ne'
    have he : t.entries false r = some es := entries_eq_some.mpr ⟨n, hn, hp⟩
    refine ⟨es[es.length - 1], List.getElem_mem hlt, ?_⟩
    rw [lastChild, he]
    exact child_eq hn hp hlt
  · intro t r n es hn hp
    simp [lastChild, entries_internal_leaf hn hp]

/-- A leaf at the root is reached without a step. -/
theorem reaches_root {down : ℕ → BPlusTree K → Option (ℕ × BPlusTree K)} {n : Node}
    {es : List (Entry K)} {choose : List (Entry K) → ℕ → Prop} (hr : t.root = some r)
    (hn : t.nodes r = some n) (hp : t.pages n.pageId.page = some ⟨true, es⟩)
    (hh : t.height = 1) : Reaches choose t (leafBy down t) := by
  refine ⟨r, r, 0, n, n, t, hr, hn, ?_, hn, by simpa using hh, rfl, .leaf hp⟩
  simp [leafBy, hr, hh]

variable [LinearOrder K] {arrayLe : WithBot K → Bool} {k : K}

/-- Child `i` is for the keys from the key before it to below the key behind it. -/
def Covers (k : K) (es : List (Entry K)) (i : ℕ) : Prop :=
  (∀ e, 0 < i → es[i - 1]? = some e → e.key ≤ k) ∧
    ∀ e, i + 1 < es.length → es[i]? = some e → (k : WithBot K) < e.key

structure Descends (arrayLe : WithBot K → Bool) (k : K) (t : BPlusTree K) : Prop where
  leaf : Reaches (Covers k) t (findLeafNode arrayLe k t)
  smallest : Reaches (fun _ i => i = 0) t (findSmallestLeafNode t)
  largest : Reaches (fun es i => i + 1 = es.length) t (findLargestLeafNode t)

theorem not_reaches {down : ℕ → BPlusTree K → Option (ℕ × BPlusTree K)}
    {choose : List (Entry K) → ℕ → Prop} {n : Node} {h : ℕ} (hd : StepsDown down)
    (hr : t.root = some r) (hn : t.nodes r = some n) (hh : t.height = (h : ℤ) + 1 + 1)
    (hs : Subtree t.pages (h + 1) ⊥ ⊤ n.pageId.page) : ¬ Reaches choose t (leafBy down t) := by
  rintro ⟨_, _, _, _, _, _, -, -, hfound, -⟩
  rw [hs.leafBy_eq_none hd hr hn hh] at hfound
  cases hfound

/-- In a well-formed tree, a descent comes to its leaf exactly where the root is the leaf. -/
theorem reaches_iff {down : ℕ → BPlusTree K → Option (ℕ × BPlusTree K)}
    {choose : List (Entry K) → ℕ → Prop} (hd : StepsDown down) (hw : WellFormed t)
    (hr : t.root = some r) : Reaches choose t (leafBy down t) ↔ t.height = 1 := by
  obtain ⟨n, h, hn, -, hh, hs⟩ := hw r hr
  cases h with
  | zero =>
    obtain ⟨records, dummy, hp, -⟩ := hs
    have hone : t.height = 1 := by simpa using hh
    exact iff_of_true (reaches_root hr hn hp hone) hone
  | succ h =>
    have hh' : t.height = (h : ℤ) + 1 + 1 := by simpa using hh
    exact iff_of_false (not_reaches hd hr hn hh' hs) (by omega)

theorem descends_iff (hw : WellFormed t) (hr : t.root = some r) :
    Descends arrayLe k t ↔ t.height = 1 := by
  constructor
  · intro hd
    exact (reaches_iff (stepsDown_lookup arrayLe k) hw hr).mp hd.leaf
  · intro hone
    constructor
    · exact (reaches_iff (stepsDown_lookup arrayLe k) hw hr).mpr hone
    · exact (reaches_iff stepsDown_smallest hw hr).mpr hone
    · exact (reaches_iff stepsDown_largest hw hr).mpr hone

theorem descends_single_leaf :
    Descends (fun _ => true) 5 (singleLeaf [((5 : ℤ), ⟨1, 0⟩)]) :=
  (descends_iff (singleLeaf_wellFormed (by simp) (by simp [Rid.null])) rfl).mpr rfl

/-- The entries of `n` keys from `m` on. -/
def entriesFrom (m n : ℕ) : List (Entry ℕ) := 
  (List.range' m n).map fun k : ℕ => ⟨k, ⟨1, k⟩⟩

theorem leafEntries_entriesFrom {m n : ℕ} {lo : WithBot ℕ} {hi : WithTop ℕ} (hlo : lo ≤ m)
    (hhi : (m + n : ℕ) ≤ hi) : LeafEntries lo hi (entriesFrom m n) [] := by
  constructor
  · rw [IndexFormat.Ordered, entriesFrom, List.pairwise_map]
    exact (List.pairwise_lt_range' ..).imp WithBot.coe_lt_coe.mpr
  · intro e he
    obtain ⟨k, hk, rfl⟩ := List.mem_map.mp he
    obtain ⟨hle, hlt⟩ := List.mem_range'_1.mp hk
    refine ⟨by simp [Rid.null], k, rfl, hlo.trans (WithBot.coe_le_coe.mpr hle), ?_⟩
    exact (WithTop.coe_lt_coe.mpr hlt).trans_le hhi
  · exact .inl rfl

/-- Two leaves with `n` keys each, and a root over them. -/
def twoLeaves (n : ℕ) : BPlusTree ℕ where
  height := 2
  root := some 0
  nodes _ := some ⟨⟨1, -1⟩, none, .uninit⟩
  heap := 1
  pages pg :=
    if pg = 1 then some ⟨false, [⟨n, ⟨2, -1⟩⟩, ⟨⊥, ⟨3, -1⟩⟩]⟩
    else if pg = 2 then some ⟨true, entriesFrom 0 n⟩
    else if pg = 3 then some ⟨true, entriesFrom n n⟩
    else none
  nextPage := 4
  numPages := 4

/-- A page with the entries of `n` keys is a leaf of a legal size. -/
theorem subtree_entriesFrom {pages : ℤ → Option (Page ℕ)} {pg : ℤ} {m n : ℕ} {lo : WithBot ℕ}
    {hi : WithTop ℕ} (hmin : minSize true ≤ n) (hmax : n ≤ maxSize true)
    (hp : pages pg = some ⟨true, entriesFrom m n⟩) (hlo : lo ≤ m) (hhi : (m + n : ℕ) ≤ hi) :
    Sized pages pg ∧ Subtree pages 0 lo hi pg := by
  constructor
  · intro page hpage
    obtain rfl := Option.some.inj (hp.symm.trans hpage)
    simpa [entriesFrom] using ⟨hmin, hmax⟩
  · exact ⟨entriesFrom m n, [], by rw [List.append_nil, hp], leafEntries_entriesFrom hlo hhi⟩

theorem twoLeaves_subtree {n : ℕ} (hmin : minSize true ≤ n) (hmax : n ≤ maxSize true) :
    Subtree (twoLeaves n).pages 1 ⊥ ⊤ 1 := by
  refine ⟨_, rfl, ?_⟩
  rw [Separated, if_neg (List.cons_ne_nil _ _)]
  refine ⟨n, rfl, bot_le, WithTop.coe_lt_top _, ?_, ?_⟩
  · exact subtree_entriesFrom hmin hmax rfl bot_le (by simp)
  · rw [Separated, if_pos rfl]
    exact subtree_entriesFrom hmin hmax rfl le_rfl le_top

theorem twoLeaves_wellFormed {n : ℕ} (hmin : minSize true ≤ n) (hmax : n ≤ maxSize true) :
    WellFormed (twoLeaves n) := by
  rintro r -
  exact ⟨_, 1, rfl, rfl, rfl, twoLeaves_subtree hmin hmax⟩

/-- In a tree of two levels, the descent takes a leaf for an internal node. -/
theorem not_descends_two_leaves : WellFormed (twoLeaves (minSize true)) ∧
    ¬ Descends (fun _ => true) 0 (twoLeaves (minSize true)) := by
  refine ⟨twoLeaves_wellFormed le_rfl (by decide), ?_⟩
  intro hd
  exact not_reaches (stepsDown_lookup _ 0) rfl rfl rfl
    (twoLeaves_subtree le_rfl (by decide)) hd.leaf

end AlphaDb.Index.BPlusTree
