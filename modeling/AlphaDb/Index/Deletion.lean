import AlphaDb.Index.Insertion
import AlphaDb.Index.WellFormed

/-! What `remove` does to a well-formed B+ tree. -/
namespace AlphaDb.Index.BPlusTree

open Table (Rid)

variable {K : Type} {t : BPlusTree K} {es records dummy : List (Entry K)} {e : Entry K} {k : K}
  {p : Rid} {lo : WithBot K} {hi : WithTop K} {r : ℕ} {n : Node}

/-- The tree whose root leaf is left with the entries `es`. -/
def shrink (r : ℕ) (n : Node) (es : List (Entry K)) (t : BPlusTree K) : BPlusTree K :=
  let t := { t with pages := Function.update t.pages n.pageId.page (some ⟨true, es⟩) }
  if es = [] then { t.setNode r none with root := none } else t

/-- A tree of one leaf. -/
structure LeafTree (t : BPlusTree K) (r : ℕ) (n : Node) (es : List (Entry K)) : Prop where
  root : t.root = some r
  node : t.nodes r = some n
  parent : n.parent = none
  height : t.height = 1
  page : t.pages n.pageId.page = some ⟨true, es⟩

theorem LeafTree.rootLeaf (h : LeafTree t r n es) : RootLeaf es t := ⟨r, n, h.root, h.node, h.page⟩

theorem adjustRoot_eq (hr : t.root = some r) (hn : t.nodes r = some n)
    (hp : t.pages n.pageId.page = some ⟨true, es⟩) :
    adjustRoot t = some (if es = [] then { t.setNode r none with root := none } else t) := by
  by_cases hes : es = []
  · simp [adjustRoot, hr, hn, hp, hes]
  · simp [adjustRoot, hr, hn, hp, hes]

theorem LeafTree.shrunk {es' : List (Entry K)} (h : LeafTree t r n es) (hes : es' ≠ []) :
    LeafTree (shrink r n es' t) r n es' := by
  rw [shrink, if_neg hes]
  exact ⟨h.root, h.node, h.parent, h.height, Function.update_self _ _ _⟩

theorem shrink_nil : (shrink r n [] t).root = none := rfl

theorem RootLeaf.stored_iff (h : RootLeaf es t) : Stored t k p ↔ ⟨(k : WithBot K), p⟩ ∈ es := by
  obtain ⟨r, n, hr, hn, hp⟩ := h
  constructor
  · rintro ⟨r', n', hr', hn', hh⟩
    cases hr.symm.trans hr'
    cases hn.symm.trans hn'
    cases hh with
    | leaf hp' he =>
      cases hp.symm.trans hp'
      exact he
    | child hp' =>
      cases hp.symm.trans hp'
  · intro he
    exact ⟨r, n, hr, hn, .leaf hp he⟩

variable [LinearOrder K] {arrayLe : WithBot K → Bool}

/-- `t'` is `t` without the pair, and `b` says whether there was one. -/
structure Deleted (arrayLe : WithBot K → Bool) (t : BPlusTree K) (k : K) (p : Rid) (b : Bool)
    (t' : BPlusTree K) : Prop where
  stored : b = true ↔ Stored t k p
  gone : b = true → ¬ Stored t' k p
  others : b = true → ∀ k' p', Stored t k' p' → (k', p') ≠ (k, p) → Found arrayLe t' k' p'
  wellFormed : b = true → WellFormed t'
  unchanged : b = false → t'.root = t.root ∧ t'.height = t.height ∧ t'.pages = t.pages

/-- The root is a leaf or null. A stored pair is the only one, or a dummy entry ends the leaf; a
pair that is not stored is not the null rid with a key that is not there. -/
def Deletable (t : BPlusTree K) (k : K) (p : Rid) : Prop :=
  ∀ r ∈ t.root, ∃ es, t.entries true r = some es ∧
    if ⟨(k : WithBot K), p⟩ ∈ es then es = [⟨k, p⟩] ∨ ∃ id, es.getLast? = some ⟨⊥, id⟩
    else p ≠ Rid.null ∨ ∃ e ∈ es, e.key = k

namespace LeafEntries

theorem dummy_key (hl : LeafEntries lo hi records dummy) (he : e ∈ dummy) :
    e.key ≠ (k : WithBot K) := by
  rcases hl.dummy with rfl | ⟨id, rfl⟩
  · cases he
  · cases List.mem_singleton.mp he
    exact WithBot.bot_ne_coe

theorem mem_iff (hl : LeafEntries lo hi records dummy) :
    ⟨(k : WithBot K), p⟩ ∈ records ++ dummy ↔ ⟨(k : WithBot K), p⟩ ∈ records := by
  constructor
  · intro h
    rcases List.mem_append.mp h with h | h
    · exact h
    · exact absurd rfl (hl.dummy_key h)
  · exact List.mem_append_left _

theorem search_eq (hl : LeafEntries lo hi records dummy) :
    IndexFormat.search (k : WithBot K) (records ++ dummy) = IndexFormat.search k records :=
  IndexFormat.search_append fun _ he => hl.dummy_key he

/-- The records without the one under `k`. -/
theorem erase (hl : LeafEntries lo hi records dummy) :
    LeafEntries lo hi (records.eraseP fun e => e.key = (k : WithBot K)) dummy where
  ordered := hl.ordered.sublist List.eraseP_sublist
  record e he := hl.record e (List.eraseP_subset he)
  dummy := hl.dummy

theorem remove_eq (hk : ⟨(k : WithBot K), p⟩ ∈ records) :
    IndexFormat.remove (k : WithBot K) p (records ++ dummy) =
      (true, (records.eraseP fun e => e.key = (k : WithBot K)) ++ dummy) := by
  rw [IndexFormat.remove, if_pos ⟨_, List.mem_append_left _ hk, rfl⟩,
    List.eraseP_append_left (by simp) _ hk]

/-- Before a dummy entry, every record is found. -/
theorem found {id : Rid} (hl : LeafEntries lo hi records [⟨⊥, id⟩])
    (hr : RootLeaf (records ++ [⟨⊥, id⟩]) t) (hh : t.height = 1)
    (hk : ⟨(k : WithBot K), p⟩ ∈ records) : Found arrayLe t k p := by
  obtain ⟨r, he, -, hleaf⟩ := hr.findLeafNode_eq arrayLe k
  rw [if_pos hh] at hleaf
  have hdrop : (records ++ [⟨⊥, id⟩] : List (Entry K)).dropLast = records := List.dropLast_concat
  have ho : IndexFormat.Ordered (records ++ [⟨⊥, id⟩] : List (Entry K)).dropLast := by
    rw [hdrop]
    exact hl.ordered
  refine ⟨(hl.record _ hk).1, t, ?_⟩
  rcases IndexFormat.findInLeaf_eq (k : WithBot K) ho with ⟨i, e, hi, hkey, hfind⟩ | ⟨hne, -⟩
  · rw [hdrop] at hi
    have hid : e.id = p := by
      have hmem : ⟨(k : WithBot K), e.id⟩ ∈ records := hkey ▸ List.mem_of_getElem? hi
      have hs := hl.ordered.search_eq_some.mpr hmem
      rw [hl.ordered.search_eq_some.mpr hk] at hs
      exact (Option.some.inj hs).symm
    have hget : (records ++ [⟨⊥, id⟩])[i]? = some e := by
      rw [List.getElem?_append_left (List.getElem?_eq_some_iff.mp hi).1, hi]
    have hpos : ¬ (i : ℤ) = -1 := by omega
    simp [find, hleaf, he, hfind, hpos, hget, hid]
  · rw [hdrop] at hne
    exact absurd rfl (hne _ hk)

end LeafEntries

theorem LeafTree.remove_eq (h : LeafTree t r n es) :
    remove arrayLe (k : WithBot K) p t =
      if (IndexFormat.search (k : WithBot K) es).getD Rid.null ≠ p then some (false, t)
      else some (true, shrink r n (IndexFormat.remove (k : WithBot K) p es).2 t) := by
  have he : t.entries true r = some es := entries_eq_some.mpr ⟨n, h.node, h.page⟩
  have hsize (b : Bool) : b.toNat < minSize true := lt_of_le_of_lt b.toNat_le (by decide)
  have hadjust (es' : List (Entry K)) : adjustRoot { t with
      pages := Function.update t.pages n.pageId.page (some ⟨true, es'⟩) } =
      some (shrink r n es' t) := adjustRoot_eq h.root h.node (Function.update_self _ _ _)
  have hleaf : findLeafNode arrayLe (k : WithBot K) t = some (some r, t) := by
    simp [findLeafNode, leafBy, h.root, h.height]
  simp only [remove, h.root, hleaf, removeEntry, LeafNode.lookup, he, Option.map_some,
    Option.bind_eq_bind, Option.bind_some]
  split
  · rfl
  · simp [LeafNode.remove, removeEntryAt, he, setEntries, h.node, hsize, coalesceOrRedistribute,
      h.parent, hadjust]

/-- In a tree of more than one level, the leaf is not reached. -/
theorem Subtree.remove_eq_none {h : ℕ} (hr : t.root = some r) (hn : t.nodes r = some n)
    (hh : t.height = (h : ℤ) + 1 + 1) (hs : Subtree t.pages (h + 1) ⊥ ⊤ n.pageId.page) :
    remove arrayLe (k : WithBot K) p t = none := by
  have hleaf : findLeafNode arrayLe (k : WithBot K) t = none :=
    hs.leafBy_eq_none (stepsDown_lookup arrayLe k) hr hn hh
  simp [remove, hr, hleaf]

/-- The last pair of a leaf is found only where there is a dummy behind it. -/
theorem LeafEntries.not_found (arrayLe : WithBot K → Bool) (hl : LeafEntries lo hi records [])
    (hr : RootLeaf records t) (hes : records ≠ []) :
    ∃ k p, ⟨(k : WithBot K), p⟩ ∈ records ∧ ¬ Found arrayLe t k p := by
  have hmem := List.getLast_mem hes
  have heq := List.dropLast_append_getLast hes
  obtain ⟨-, k, hk, -⟩ := hl.record _ hmem
  have hlast : records.getLast hes = ⟨k, (records.getLast hes).id⟩ := by rw [← hk]
  rw [hlast] at hmem heq
  refine ⟨k, _, hmem, ?_⟩
  have ho := hl.ordered
  rw [← heq] at hr ho
  exact hr.not_found ho

theorem LeafTree.wellFormed (h : LeafTree t r n (records ++ dummy))
    (hl : LeafEntries ⊥ ⊤ records dummy) : WellFormed t := by
  intro r' hr'
  cases h.root.symm.trans hr'
  exact ⟨n, 0, h.node, h.parent, by simpa using h.height, records, dummy, h.page, hl⟩

/-- With a dummy entry at its end, a leaf loses the pair and nothing else. -/
theorem LeafTree.deleted_of_dummy {id : Rid} (h : LeafTree t r n (records ++ [⟨⊥, id⟩]))
    (hl : LeafEntries ⊥ ⊤ records [⟨⊥, id⟩]) (hk : ⟨(k : WithBot K), p⟩ ∈ records) :
    Deleted arrayLe t k p true
      (shrink r n ((records.eraseP fun e => e.key = (k : WithBot K)) ++ [⟨⊥, id⟩]) t) := by
  have hl' := hl.erase (k := k)
  have hne : (records.eraseP fun e => e.key = (k : WithBot K)) ++ [⟨⊥, id⟩] ≠ [] := by simp
  have h' := h.shrunk hne
  constructor
  · simp [h.rootLeaf.stored_iff, hk]
  · intro _ hs
    rw [h'.rootLeaf.stored_iff, hl'.mem_iff, hl.ordered.mem_eraseP] at hs
    exact hs.2 rfl
  · intro _ k' p' hs hne
    rw [h.rootLeaf.stored_iff, hl.mem_iff] at hs
    apply hl'.found h'.rootLeaf h'.height
    refine hl.ordered.mem_eraseP.mpr ⟨hs, ?_⟩
    intro he
    cases WithBot.coe_injective he
    have heq := (hl.ordered.search_eq_some.mpr hs).symm.trans (hl.ordered.search_eq_some.mpr hk)
    cases heq
    exact hne rfl
  · intro _
    exact h'.wellFormed hl'
  · simp

/-- The only pair leaves the tree empty. -/
theorem LeafTree.deleted_of_singleton (h : LeafTree t r n [⟨(k : WithBot K), p⟩]) :
    Deleted arrayLe t k p true (shrink r n [] t) := by
  constructor
  · simp [h.rootLeaf.stored_iff]
  · rintro _ ⟨r', n', hr', -⟩
    cases (shrink_nil (r := r) (n := n) (t := t)).symm.trans hr'
  · intro _ k' p' hs hne
    rw [h.rootLeaf.stored_iff, List.mem_singleton] at hs
    cases hs
    exact absurd rfl hne
  · intro _ r' hr'
    cases (shrink_nil (r := r) (n := n) (t := t)).symm.trans hr'
  · simp

theorem LeafTree.deleted_iff_of_mem (arrayLe : WithBot K → Bool)
    (h : LeafTree t r n (records ++ dummy))
    (hl : LeafEntries ⊥ ⊤ records dummy) (hk : ⟨(k : WithBot K), p⟩ ∈ records) :
    Deleted arrayLe t k p true
        (shrink r n ((records.eraseP fun e => e.key = (k : WithBot K)) ++ dummy) t) ↔
      (records ++ dummy = [⟨k, p⟩] ∨ ∃ id, (records ++ dummy).getLast? = some ⟨⊥, id⟩) := by
  rcases hl.dummy with rfl | ⟨id, rfl⟩
  · simp only [List.append_nil] at h ⊢
    by_cases hes : records.eraseP (fun e => e.key = (k : WithBot K)) = []
    · obtain ⟨x, rfl⟩ : ∃ x, records = [x] := by
        have hlen := List.length_eraseP_of_mem hk (p := fun e => e.key = (k : WithBot K)) (by simp)
        have hpos := List.length_pos_of_mem hk
        rw [hes, List.length_nil] at hlen
        exact List.length_eq_one_iff.mp (by omega)
      cases List.mem_singleton.mp hk
      rw [hes]
      exact iff_of_true h.deleted_of_singleton (.inl rfl)
    · apply iff_of_false
      · intro hd
        obtain ⟨k', p', hmem, hnot⟩ := hl.erase.not_found arrayLe (h.shrunk hes).rootLeaf hes
        obtain ⟨hmem, hne⟩ := hl.ordered.mem_eraseP.mp hmem
        refine hnot (hd.others rfl k' p' (h.rootLeaf.stored_iff.mpr hmem) ?_)
        rintro ⟨⟩
        exact hne rfl
      · rintro (rfl | ⟨id, hlast⟩)
        · simp at hes
        · obtain ⟨-, k', hk', -⟩ := hl.record _ (List.mem_of_getLast? hlast)
          exact WithBot.bot_ne_coe hk'
  · exact iff_of_true (h.deleted_of_dummy hl hk) (.inr ⟨id, by simp⟩)

theorem LeafTree.deleted_iff_of_not_mem (h : LeafTree t r n (records ++ dummy))
    (hl : LeafEntries ⊥ ⊤ records dummy) (hk : ⟨(k : WithBot K), p⟩ ∉ records ++ dummy) :
    (∃ b t', remove arrayLe (k : WithBot K) p t = some (b, t') ∧ Deleted arrayLe t k p b t') ↔
      p ≠ Rid.null ∨ ∃ e ∈ records ++ dummy, e.key = k := by
  have hstored : ¬ Stored t k p := h.rootLeaf.stored_iff.not.mpr hk
  have hfalse : Deleted arrayLe t k p false t := by constructor <;> simp [hstored]
  rw [h.remove_eq]
  cases hs : IndexFormat.search (k : WithBot K) (records ++ dummy) with
  | none =>
    have hnone := IndexFormat.search_eq_none.mp hs
    by_cases hnull : Rid.null = p
    · constructor
      · rintro ⟨b, t', hrem, hd⟩
        simp [hnull] at hrem
        exact absurd (hd.stored.mp hrem.1) hstored
      · rintro (hp | ⟨e, he, hkey⟩)
        · exact absurd hnull.symm hp
        · exact absurd hkey (hnone e he)
    · exact iff_of_true ⟨false, t, by simp [hnull], hfalse⟩ (.inl (Ne.symm hnull))
  | some p' =>
    rw [hl.search_eq] at hs
    have hmem := List.mem_append_left dummy (hl.ordered.search_eq_some.mp hs)
    have hne : p' ≠ p := by
      rintro rfl
      exact hk hmem
    exact iff_of_true ⟨false, t, by simp [hne], hfalse⟩ (.inr ⟨_, hmem, rfl⟩)

end AlphaDb.Index.BPlusTree
