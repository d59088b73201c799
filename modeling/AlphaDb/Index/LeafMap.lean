import AlphaDb.Index.Deletion
import AlphaDb.Lib.OrderedMap
import AlphaDb.Lib.Trace

/-! Runs of calls on a new B+ tree (`index/b+tree/b_plus_tree`), beside the ordered map that the
tree stands for. -/
namespace AlphaDb.Index

open Table (Rid)

namespace BPlusTree

inductive Call (K : Type)
  | insert (k : K) (p : Rid)
  | remove (k : K) (p : Rid)
  | find (k : K)
  | update (k : K) (oldp newp : Rid)

inductive Answer
  | done
  | id (p : Rid)
  | flag (b : Bool)
deriving DecidableEq

variable {K : Type} [LinearOrder K]

/-- `update`. There is no `return` behind the insertion. -/
def update (arrayLe : WithBot K → Bool) (k : WithBot K) (oldp newp : Rid) (t : BPlusTree K) :
    Option (Bool × BPlusTree K) := do
  let (p, t) ← find arrayLe k t
  if p = Rid.null then some (false, t)
  else do
    let (removed, t) ← remove arrayLe k oldp t
    if removed then do
      let _ ← insert arrayLe k newp t
      none
    else some (false, t)

def serve (arrayLe : WithBot K → Bool) : Call K → BPlusTree K → Option (Answer × BPlusTree K)
  | .insert k p, t => (insert arrayLe k p t).map fun t => (.done, t)
  | .remove k p, t => (remove arrayLe k p t).map fun (b, t) => (.flag b, t)
  | .find k, t => (find arrayLe k t).map fun (p, t) => (.id p, t)
  | .update k oldp newp, t => (update arrayLe k oldp newp t).map fun (b, t) => (.flag b, t)

end BPlusTree

/-! The ordered map of the pairs in the tree. -/
namespace LeafMap

open BPlusTree

variable {K : Type} [LinearOrder K]

/-- What `find` tells of a key. The record under the largest key is not told. -/
def told (m : OrderedMap K Rid) (k : K) : Rid :=
  if m.entries.getLast?.map Prod.fst = some k then Rid.null else (m.find? k).getD Rid.null

/-- A call on the map, where `height` is what `height_` holds. A full map takes no insertion, and
an update that would change the map is undefined. -/
def serve (height : ℤ) (c : Call K) (m : OrderedMap K Rid) :
    Option (Answer × OrderedMap K Rid) :=
  if m.entries = [] then
    match c with
    | .insert k p => some (.done, m.insertNew k p)
    | .remove _ _ => some (.flag false, m)
    | _ => none
  else if height = 1 then
    match c with
    | .insert k p =>
      if m.entries.length < maxSize true then some (.done, m.insertNew k p) else none
    | .remove k p =>
      if (m.find? k).getD Rid.null = p then some (.flag true, m.erase k) else some (.flag false, m)
    | .find k => some (.id (told m k), m)
    | .update k oldp _ =>
      if told m k ≠ Rid.null ∧ m.find? k = some oldp then none else some (.flag false, m)
  else none

/-- The pairs as the entries of a leaf. -/
def leafEntries (m : OrderedMap K Rid) : List (Entry K) := m.entries.map fun a => ⟨a.1, a.2⟩

variable {m : OrderedMap K Rid} {k : K} {p : Rid}

@[simp] theorem length_leafEntries : (leafEntries m).length = m.entries.length :=
  List.length_map _

@[simp] theorem leafEntries_eq_nil : leafEntries m = [] ↔ m.entries = [] := List.map_eq_nil_iff

theorem ordered_leafEntries (m : OrderedMap K Rid) : IndexFormat.Ordered (leafEntries m) :=
  List.pairwise_map.mpr (m.sorted.imp fun h => WithBot.coe_lt_coe.mpr h)

theorem search_leafEntries : IndexFormat.search (k : WithBot K) (leafEntries m) = m.find? k := by
  rw [IndexFormat.search, leafEntries, OrderedMap.find?, List.find?_map, Option.map_map]
  simp only [Function.comp_def, WithBot.coe_inj]

theorem exists_key_leafEntries :
    (∃ e ∈ leafEntries m, e.key = (k : WithBot K)) ↔ (m.find? k).isSome := by
  rw [← search_leafEntries, ← not_iff_not, Option.not_isSome_iff_eq_none,
    IndexFormat.search_eq_none]
  push Not
  rfl

theorem orderedInsert_map {l : List (K × Rid)} (h : ∀ a ∈ l, a.1 ≠ k) :
    (l.map fun a => (⟨a.1, a.2⟩ : Entry K)).orderedInsert (fun a b => a.key ≤ b.key) ⟨k, p⟩ =
      (OrderedMap.insertEntry k p l).map fun a => ⟨a.1, a.2⟩ := by
  induction l with
  | nil => rfl
  | cons b l ih =>
    have hb : b.1 ≠ k := h b List.mem_cons_self
    have ih := ih fun a ha => h a (List.mem_cons_of_mem _ ha)
    rw [List.map_cons, List.orderedInsert_cons, OrderedMap.insertEntry]
    by_cases hlt : k < b.1
    · rw [if_pos (WithBot.coe_le_coe.mpr hlt.le), if_pos hlt]
      rfl
    · have hgt : b.1 < k := lt_of_le_of_ne (not_lt.mp hlt) hb
      rw [if_neg (by simpa using hgt), if_neg hlt, if_pos hgt, ih]
      rfl

theorem insert_leafEntries :
    IndexFormat.insert (k : WithBot K) p (leafEntries m) = leafEntries (m.insertNew k p) := by
  rw [IndexFormat.insert, OrderedMap.insertNew]
  by_cases h : (m.find? k).isSome
  · rw [if_pos (exists_key_leafEntries.mpr h), if_pos h]
  · rw [if_neg (exists_key_leafEntries.not.mpr h), if_neg h]
    exact orderedInsert_map (OrderedMap.find?_eq_none.mp (Option.not_isSome_iff_eq_none.mp h))

theorem eraseP_map {l : List (K × Rid)} (h : l.Pairwise fun a b => a.1 < b.1) :
    (l.map fun a => (⟨a.1, a.2⟩ : Entry K)).eraseP (fun e => e.key = (k : WithBot K)) =
      (l.filter (·.1 ≠ k)).map fun a => ⟨a.1, a.2⟩ := by
  induction l with
  | nil => rfl
  | cons b l ih =>
    obtain ⟨hb, hl⟩ := List.pairwise_cons.mp h
    rw [List.map_cons]
    by_cases hk : b.1 = k
    · have hrest : l.filter (·.1 ≠ k) = l := by
        apply List.filter_eq_self.mpr
        intro a ha
        simpa [← hk] using (hb a ha).ne'
      rw [List.eraseP_cons_of_pos (by simp [hk]), List.filter_cons_of_neg (by simp [hk]), hrest]
    · rw [List.eraseP_cons_of_neg (by simp [hk]), List.filter_cons_of_pos (by simp [hk]), ih hl]
      rfl

theorem remove_leafEntries :
    (IndexFormat.remove (k : WithBot K) p (leafEntries m)).2 = leafEntries (m.erase k) := by
  have herase := eraseP_map (k := k) m.sorted
  unfold IndexFormat.remove
  split
  · exact herase
  · rename_i h
    rw [← List.eraseP_of_forall_not (p := fun e : Entry K => e.key = (k : WithBot K))
      fun e he hk => h ⟨e, he, by simpa using hk⟩]
    exact herase

theorem told_of_mem {l : List (K × Rid)} {a : K × Rid} (hm : m.entries = l ++ [a])
    (hk : (k, p) ∈ l) : told m k = p := by
  have hsorted := m.sorted
  rw [hm] at hsorted
  have hlt : k < a.1 := (List.pairwise_append.mp hsorted).2.2 _ hk a (List.mem_singleton_self a)
  have hfind : m.find? k = some p :=
    OrderedMap.find?_eq_some.mpr (hm ▸ List.mem_append_left _ hk)
  simp [told, hm, hlt.ne', hfind]

theorem told_of_forall_ne {l : List (K × Rid)} {a : K × Rid} (hm : m.entries = l ++ [a])
    (hk : ∀ b ∈ l, b.1 ≠ k) : told m k = Rid.null := by
  by_cases ha : a.1 = k
  · simp [told, hm, ha]
  · have hfind : m.find? k = none := by
      rw [OrderedMap.find?_eq_none, hm]
      intro b hb
      rcases List.mem_append.mp hb with hb | hb
      · exact hk b hb
      · rwa [List.mem_singleton.mp hb]
    simp [told, hfind]

/-- `find_in_leaf` leads to what is told. -/
theorem findInLeaf_leafEntries (hm : m.entries ≠ []) :
    ∃ i, IndexFormat.findInLeaf (k : WithBot K) (leafEntries m) = some i ∧
      (if i = -1 then some Rid.null else (leafEntries m)[i.toNat]?.map Entry.id) =
        some (told m k) := by
  have hsplit := (List.dropLast_append_getLast hm).symm
  have hdrop : (leafEntries m).dropLast = m.entries.dropLast.map fun a => ⟨a.1, a.2⟩ :=
    List.map_dropLast.symm
  have ho : IndexFormat.Ordered (leafEntries m).dropLast :=
    (ordered_leafEntries m).sublist (List.dropLast_sublist _)
  rcases IndexFormat.findInLeaf_eq (k : WithBot K) ho with ⟨i, e, hi, hk, hfind⟩ | ⟨hne, hfind⟩
  · refine ⟨i, hfind, ?_⟩
    have hget : (leafEntries m)[i]? = some e := by
      obtain ⟨hlt, rfl⟩ := List.getElem?_eq_some_iff.mp hi
      rw [List.getElem_dropLast]
      exact List.getElem?_eq_getElem _
    have hmem := List.mem_of_getElem? hi
    rw [hdrop] at hmem
    obtain ⟨a, ha, rfl⟩ := List.mem_map.mp hmem
    obtain rfl := WithBot.coe_injective hk
    simp [hget, told_of_mem hsplit ha]
  · refine ⟨-1, hfind, ?_⟩
    rw [told_of_forall_ne hsplit]
    · rfl
    · intro b hb hk
      refine hne ⟨b.1, b.2⟩ ?_ (congrArg _ hk)
      rw [hdrop]
      exact List.mem_map.mpr ⟨b, hb, rfl⟩

/-- The tree holds the pairs of `m`: in its root leaf, or nowhere if there is none. -/
structure StandsFor (height : ℤ) (t : BPlusTree K) (m : OrderedMap K Rid) : Prop where
  height : t.height = height
  empty : m.entries = [] → t.root = none
  leaf : m.entries ≠ [] → ∃ r n, t.root = some r ∧ t.nodes r = some n ∧ n.parent = none ∧
    t.pages n.pageId.page = some ⟨true, leafEntries m⟩

variable {height : ℤ} {t : BPlusTree K} {arrayLe : WithBot K → Bool}

theorem StandsFor.leafTree (h : StandsFor 1 t m) (hm : m.entries ≠ []) :
    ∃ r n, LeafTree t r n (leafEntries m) := by
  obtain ⟨r, n, hr, hn, hparent, hp⟩ := h.leaf hm
  exact ⟨r, n, hr, hn, hparent, h.height, hp⟩

/-- With another height the leaf is not reached. -/
theorem StandsFor.findLeafNode_eq_none (arrayLe : WithBot K → Bool) (k : K)
    (h : StandsFor height t m) (hm : m.entries ≠ []) (hheight : height ≠ 1) :
    ∃ r, t.root = some r ∧ findLeafNode arrayLe (k : WithBot K) t = none := by
  obtain ⟨r, n, hr, hn, -, hp⟩ := h.leaf hm
  obtain ⟨r, -, hr, hleaf⟩ := RootLeaf.findLeafNode_eq arrayLe k ⟨r, n, hr, hn, hp⟩
  rw [h.height, if_neg hheight] at hleaf
  exact ⟨r, hr, hleaf⟩

theorem insertNew_ne_nil : (m.insertNew k p).entries ≠ [] := by
  rw [← leafEntries_eq_nil.ne, ← insert_leafEntries]
  exact IndexFormat.insert_ne_nil

/-- The first insertion makes the leaf. -/
theorem StandsFor.insert_empty (arrayLe : WithBot K → Bool) (k : K) (p : Rid)
    (h : StandsFor height t m) (hm : m.entries = []) :
    ∃ t', insert arrayLe (k : WithBot K) p t = some t' ∧ StandsFor height t' (m.insertNew k p) := by
  have hentries : leafEntries (m.insertNew k p) = [⟨k, p⟩] := by
    rw [← insert_leafEntries, leafEntries_eq_nil.mpr hm]
    rfl
  refine ⟨_, insert_root_none (h.empty hm), h.height, ?_, ?_⟩
  · intro hnil
    exact absurd hnil insertNew_ne_nil
  · intro _
    refine ⟨t.heap, _, rfl, Function.update_self _ _ _, rfl, ?_⟩
    rw [hentries]
    exact Function.update_self _ _ _

theorem StandsFor.insert_leaf (arrayLe : WithBot K → Bool) (k : K) (p : Rid)
    (h : StandsFor 1 t m) (hm : m.entries ≠ []) :
    ∃ t', insert arrayLe (k : WithBot K) p t =
      (if m.entries.length < maxSize true then some t' else none) ∧
      StandsFor 1 t' (m.insertNew k p) := by
  obtain ⟨r, n, hr, hn, hparent, hp⟩ := h.leaf hm
  rw [insert_rootLeaf hr hn hp]
  simp only [h.height, insert_leafEntries, length_leafEntries, true_and]
  refine ⟨_, rfl, rfl, ?_, ?_⟩
  · intro hnil
    exact absurd hnil insertNew_ne_nil
  · intro _
    exact ⟨r, n, hr, hn, hparent, Function.update_self _ _ _⟩

theorem StandsFor.find_eq (h : StandsFor 1 t m) (hm : m.entries ≠ []) :
    find arrayLe (k : WithBot K) t = some (told m k, t) := by
  obtain ⟨r, n, htree⟩ := h.leafTree hm
  obtain ⟨r, he, -, hleaf⟩ := htree.rootLeaf.findLeafNode_eq arrayLe k
  obtain ⟨i, hfind, htold⟩ := findInLeaf_leafEntries (k := k) hm
  rw [if_pos htree.height] at hleaf
  simp only [find, hleaf, he, hfind, Option.bind_eq_bind, Option.bind_some]
  split
  · rename_i hi
    rw [if_pos hi] at htold
    rw [Option.some.inj htold]
  · rename_i hi
    rw [if_neg hi] at htold
    obtain ⟨e, hget, hid⟩ := Option.map_eq_some_iff.mp htold
    rw [hget, Option.map_some, hid]

theorem StandsFor.remove_leaf (arrayLe : WithBot K → Bool) (k : K) (p : Rid)
    (h : StandsFor 1 t m) (hm : m.entries ≠ []) :
    ∃ t', remove arrayLe (k : WithBot K) p t =
      (if (m.find? k).getD Rid.null = p then some (true, t') else some (false, t)) ∧
      StandsFor 1 t' (m.erase k) := by
  obtain ⟨r, n, htree⟩ := h.leafTree hm
  refine ⟨shrink r n (leafEntries (m.erase k)) t, ?_, ?_⟩
  · rw [htree.remove_eq, search_leafEntries, remove_leafEntries, ite_not]
  · by_cases hnil : (m.erase k).entries = []
    · rw [leafEntries_eq_nil.mpr hnil]
      exact ⟨htree.height, fun _ => shrink_nil, fun hne => absurd hnil hne⟩
    · have hshrunk := htree.shrunk (leafEntries_eq_nil.not.mpr hnil)
      refine ⟨hshrunk.height, fun he => absurd he hnil, fun _ => ?_⟩
      exact ⟨r, n, hshrunk.root, hshrunk.node, hshrunk.parent, hshrunk.page⟩

/-- One answer, and a tree that stands for the map behind the call. -/
def Matches (height : ℤ) (x : Answer × BPlusTree K) (y : Answer × OrderedMap K Rid) : Prop :=
  x.1 = y.1 ∧ StandsFor height x.2 y.2

theorem StandsFor.serve_empty (c : BPlusTree.Call K) (h : StandsFor height t m)
    (hm : m.entries = []) :
    Option.Rel (Matches height) (BPlusTree.serve arrayLe c t) (serve height c m) := by
  have hr := h.empty hm
  cases c with
  | insert k p =>
    obtain ⟨t', hi, h'⟩ := h.insert_empty arrayLe k p hm
    simp only [BPlusTree.serve, hi, serve, if_pos hm]
    exact .some ⟨rfl, h'⟩
  | remove k p =>
    simp only [BPlusTree.serve, BPlusTree.remove, hr, serve, if_pos hm]
    exact .some ⟨rfl, h⟩
  | find k =>
    simp only [BPlusTree.serve, BPlusTree.find, findLeafNode, leafBy, hr, serve, if_pos hm]
    exact .none
  | update k oldp newp =>
    simp only [BPlusTree.serve, BPlusTree.update, BPlusTree.find, findLeafNode, leafBy, hr, serve,
      if_pos hm]
    exact .none

/-- With another height nothing is defined behind the first insertion. -/
theorem StandsFor.serve_unreached (c : BPlusTree.Call K) (h : StandsFor height t m)
    (hm : m.entries ≠ []) (hheight : height ≠ 1) : BPlusTree.serve arrayLe c t = none := by
  cases c with
  | insert k p =>
    obtain ⟨r, hr, hleaf⟩ := h.findLeafNode_eq_none arrayLe k hm hheight
    simp [BPlusTree.serve, BPlusTree.insert, hr, hleaf]
  | remove k p =>
    obtain ⟨r, hr, hleaf⟩ := h.findLeafNode_eq_none arrayLe k hm hheight
    simp [BPlusTree.serve, BPlusTree.remove, hr, hleaf]
  | find k =>
    obtain ⟨r, hr, hleaf⟩ := h.findLeafNode_eq_none arrayLe k hm hheight
    simp [BPlusTree.serve, BPlusTree.find, hleaf]
  | update k oldp newp =>
    obtain ⟨r, hr, hleaf⟩ := h.findLeafNode_eq_none arrayLe k hm hheight
    simp [BPlusTree.serve, BPlusTree.update, BPlusTree.find, hleaf]

theorem StandsFor.update_eq (h : StandsFor 1 t m) (hm : m.entries ≠ []) (oldp newp : Rid) :
    update arrayLe (k : WithBot K) oldp newp t =
      if told m k ≠ Rid.null ∧ m.find? k = some oldp then none else some (false, t) := by
  obtain ⟨t', hremove, -⟩ := h.remove_leaf arrayLe k oldp hm
  simp only [update, h.find_eq hm, Option.bind_eq_bind, Option.bind_some]
  by_cases hnull : told m k = Rid.null
  · simp [hnull]
  · -- what is told and is not null is what the map holds
    have hold : (m.find? k).getD Rid.null = oldp ↔ m.find? k = some oldp := by
      cases hfind : m.find? k with
      | none => exact absurd (by simp [told, hfind]) hnull
      | some p => simp
    by_cases hk : m.find? k = some oldp
    · simp [hnull, hremove, hk]
    · simp [hnull, hremove, hk, hold]

theorem StandsFor.serve_leaf (c : BPlusTree.Call K) (h : StandsFor 1 t m) (hm : m.entries ≠ []) :
    Option.Rel (Matches 1) (BPlusTree.serve arrayLe c t) (serve 1 c m) := by
  cases c with
  | insert k p =>
    obtain ⟨t', hi, h'⟩ := h.insert_leaf arrayLe k p hm
    simp only [BPlusTree.serve, hi, serve, if_neg hm, if_true]
    split
    · exact .some ⟨rfl, h'⟩
    · exact .none
  | remove k p =>
    obtain ⟨t', hremove, h'⟩ := h.remove_leaf arrayLe k p hm
    simp only [BPlusTree.serve, hremove, serve, if_neg hm, if_true]
    split
    · exact .some ⟨rfl, h'⟩
    · exact .some ⟨rfl, h⟩
  | find k =>
    simp only [BPlusTree.serve, h.find_eq hm, serve, if_neg hm, if_true]
    exact .some ⟨rfl, h⟩
  | update k oldp newp =>
    simp only [BPlusTree.serve, h.update_eq hm, serve, if_neg hm, if_true]
    split
    · exact .none
    · exact .some ⟨rfl, h⟩

/-- Call by call, the tree does what the map does. -/
theorem alike (arrayLe : WithBot K → Bool) (height : ℤ) :
    Trace.Alike (StandsFor height) (BPlusTree.serve arrayLe) (serve height) := by
  intro c t m h
  by_cases hm : m.entries = []
  · exact h.serve_empty c hm
  · by_cases hheight : height = 1
    · subst hheight
      exact h.serve_leaf c hm
    · simp only [h.serve_unreached c hm hheight, serve, if_neg hm, if_neg hheight]
      exact .none

end LeafMap

end AlphaDb.Index
