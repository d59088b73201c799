import AlphaDb.Index.IndexManager
import AlphaDb.Index.Insertion

/-! Whether the entries of a node fit its page. The limit that `create_index` works out stays in the
header, and the tree splits its nodes at a limit of its own. -/
namespace AlphaDb.Index.BPlusTree

open Table (Rid)

variable {K : Type} {height : ℤ} {attrType attrLen numPages : BitVec 32}

/-- The constructor, on a header and the pages of its file. `height_` has what its memory held, and
`fanout_` is the same whatever the header says. -/
def ofHeader (hdr : IndexHeader) (height : ℤ) (pages : ℤ → Option (Page K)) (nextPage : ℤ) :
    BPlusTree K :=
  if 0 < hdr.height.toInt then
    { height := height
      root := some 0
      nodes := Function.update (fun _ => none) 0 (some ⟨⟨hdr.rootPage.toInt, -1⟩, none, .uninit⟩)
      heap := 1
      pages := pages
      nextPage := nextPage
      numPages := hdr.numPages.toInt }
  else { (empty height hdr.numPages.toInt : BPlusTree K) with
      pages := pages
      nextPage := nextPage }

/-- A rid and a key. -/
def entrySize (attrLen : BitVec 32) : ℕ := 8 + attrLen.toInt.toNat

/-- What is left of a page behind `page_header` and `index_page_hdr`. -/
def pageRoom : ℕ := 4096 - 4 - 16

/-- The entries of every node fit its page. -/
def NodesFit (attrLen : BitVec 32) (t : BPlusTree K) : Prop :=
  ∀ pg page, t.pages pg = some page → page.entries.length * entrySize attrLen ≤ pageRoom

/-- What `open_index` makes of a new index has no root. -/
theorem ofHeader_new {page : List UInt8} {h : IndexHandle K} {height₀ used : ℤ}
    {stored : ℤ → K → Option Rid}
    (hc : IndexManager.createIndex attrType attrLen numPages = some page)
    (ho : IndexManager.openIndex page height₀ stored used = some h) :
    (ofHeader h.header height (fun _ => none) 1 : BPlusTree K) = empty height numPages.toInt := by
  obtain ⟨hdr, rest, rfl, -, hheight, rfl⟩ := IndexManager.createIndex_eq_some hc
  rw [IndexManager.openIndex_words] at ho
  obtain rfl := Option.some.inj ho
  simp [ofHeader, hheight, empty]

variable [LinearOrder K] {arrayLe : WithBot K → Bool} {t t' : BPlusTree K} {es : List (Entry K)}
  {k : K} {p : Rid} {ks : List K} {xs : List (K × Rid)}

/-- The nodes fit their pages in every state that the insertions of `xs` go through. -/
def AlwaysFit (arrayLe : WithBot K → Bool) (attrLen : BitVec 32) (xs : List (K × Rid))
    (t : BPlusTree K) : Prop :=
  ∀ ys u, ys <+: xs → insertAll arrayLe ys t = some u → NodesFit attrLen u

/-- The only page of a node is the leaf at the root, which has an entry for each of the keys. -/
def LonePage (ks : List K) (t : BPlusTree K) : Prop :=
  ∃ r n es, t.root = some r ∧ t.nodes r = some n ∧
    t.pages = Function.update (fun _ => none) n.pageId.page (some ⟨true, es⟩) ∧
    (∀ k : K, (∃ e ∈ es, e.key = k) ↔ k ∈ ks) ∧ es.length = ks.toFinset.card

theorem LonePage.nodesFit_iff (h : LonePage ks t) :
    NodesFit attrLen t ↔ ks.toFinset.card * entrySize attrLen ≤ pageRoom := by
  obtain ⟨r, n, es, -, -, hpages, -, hlen⟩ := h
  rw [NodesFit, hpages, ← hlen]
  constructor
  · intro hfit
    exact hfit n.pageId.page ⟨true, es⟩ (Function.update_self _ _ _)
  · intro hfit pg page hpage
    by_cases hpg : pg = n.pageId.page
    · subst hpg
      rw [Function.update_self] at hpage
      obtain rfl := Option.some.inj hpage
      exact hfit
    · rw [Function.update_of_ne hpg] at hpage
      cases hpage

/-- The keys of a leaf after an insertion. -/
theorem insert_keys (hkeys : ∀ k : K, (∃ e ∈ es, e.key = k) ↔ k ∈ ks)
    (hlen : es.length = ks.toFinset.card) :
    (∀ k' : K, (∃ e ∈ IndexFormat.insert (k : WithBot K) p es, e.key = k') ↔ k' ∈ ks ++ [k]) ∧
      (IndexFormat.insert (k : WithBot K) p es).length = (ks ++ [k]).toFinset.card := by
  constructor
  · intro k'
    rw [IndexFormat.exists_key_insert, hkeys, WithBot.coe_inj, List.mem_append,
      List.mem_singleton]
    exact or_comm
  · have hinsert : (ks ++ [k]).toFinset = Insert.insert k ks.toFinset := by
      ext x
      simp
    rw [IndexFormat.length_insert, hinsert]
    simp only [hkeys]
    split
    · next hmem => rw [Finset.insert_eq_of_mem (List.mem_toFinset.mpr hmem), hlen]
    · next hmem => rw [Finset.card_insert_of_notMem (mt List.mem_toFinset.mp hmem), hlen]

theorem lonePage_of_insert (hr : t.root = none) (hp : t.pages = fun _ => none)
    (hi : insert arrayLe (k : WithBot K) p t = some t') : LonePage [k] t' := by
  rw [insert_root_none hr] at hi
  obtain rfl := Option.some.inj hi
  refine ⟨t.heap, _, [⟨k, p⟩], rfl, Function.update_self _ _ _, by rw [hp], ?_, by simp⟩
  simp [WithBot.coe_inj, eq_comm]

theorem LonePage.insert (h : LonePage ks t)
    (hi : BPlusTree.insert arrayLe (k : WithBot K) p t = some t') : LonePage (ks ++ [k]) t' := by
  obtain ⟨r, n, es, hr, hn, hpages, hkeys, hlen⟩ := h
  have hp : t.pages n.pageId.page = some ⟨true, es⟩ := by rw [hpages, Function.update_self]
  rw [insert_rootLeaf hr hn hp] at hi
  split at hi
  · obtain rfl := Option.some.inj hi
    obtain ⟨hkeys', hlen'⟩ := insert_keys (k := k) (p := p) hkeys hlen
    refine ⟨r, n, _, hr, hn, ?_, hkeys', hlen'⟩
    rw [hpages, Function.update_idem]
  · cases hi

/-- After insertions into a tree without pages, all their keys are in one page. -/
theorem insertAll_nodesFit_iff (hr : t.root = none) (hp : t.pages = fun _ => none)
    (hi : BPlusTree.insertAll arrayLe xs t = some t') :
    NodesFit attrLen t' ↔
      (xs.map Prod.fst).toFinset.card * entrySize attrLen ≤ pageRoom := by
  cases xs with
  | nil =>
    obtain rfl := Option.some.inj hi
    simp [NodesFit, hp]
  | cons x xs =>
    obtain ⟨u, hu, hi⟩ := Option.bind_eq_some_iff.mp hi
    have hlone : LonePage (([x] ++ xs).map Prod.fst) t' := by
      refine insertAll_inv (P := fun xs t => LonePage (xs.map Prod.fst) t) ?_
        (lonePage_of_insert hr hp hu) hi
      intro xs t t' k p h hi
      simpa using h.insert hi
    exact hlone.nodesFit_iff

/-- Insertions go through where the height says that the root is a leaf and the leaf stays below its
limit. -/
theorem LonePage.insertAll_isSome (h : LonePage ks t) (hheight : t.height = 1)
    (hlen : ks.length + xs.length ≤ maxSize true) :
    ∃ t', BPlusTree.insertAll arrayLe xs t = some t' := by
  induction xs generalizing ks t with
  | nil => exact ⟨t, rfl⟩
  | cons x xs ih =>
    obtain ⟨r, n, es, hr, hn, hpages, -, hes⟩ := id h
    have hp : t.pages n.pageId.page = some ⟨true, es⟩ := by rw [hpages, Function.update_self]
    have hle : es.length ≤ ks.length := hes ▸ List.toFinset_card_le ks
    rw [List.length_cons] at hlen
    have hu : BPlusTree.insert arrayLe (x.1 : WithBot K) x.2 t = some _ :=
      (insert_rootLeaf hr hn hp).trans (if_pos ⟨hheight, by omega⟩)
    have hlen' : (ks ++ [x.1]).length + xs.length ≤ maxSize true := by
      rw [List.length_append, List.length_singleton]
      omega
    obtain ⟨t', ht'⟩ := ih (h.insert hu) hheight hlen'
    exact ⟨t', Option.bind_eq_some_iff.mpr ⟨_, hu, ht'⟩⟩

theorem insertAll_isSome (hr : t.root = none) (hp : t.pages = fun _ => none)
    (hheight : t.height = 1) (hlen : xs.length ≤ maxSize true) :
    ∃ t', BPlusTree.insertAll arrayLe xs t = some t' := by
  cases xs with
  | nil => exact ⟨t, rfl⟩
  | cons x xs =>
    have hu : BPlusTree.insert arrayLe (x.1 : WithBot K) x.2 t = some _ := insert_root_none hr
    have hlen' : [x.1].length + xs.length ≤ maxSize true := by
      rwa [List.length_singleton, Nat.add_comm]
    obtain ⟨t', ht'⟩ := (lonePage_of_insert hr hp hu).insertAll_isSome hheight hlen'
    exact ⟨t', Option.bind_eq_some_iff.mpr ⟨_, hu, ht'⟩⟩

theorem openIndex_four : ∃ (page : List UInt8) (h : IndexHandle ℤ),
    IndexManager.createIndex 0 4 1 = some page ∧
    IndexManager.openIndex page 1 (fun _ _ => none) 1 = some h := by
  obtain ⟨page, hc⟩ := IndexManager.createIndex_four
  obtain ⟨hdr, rest, rfl, -⟩ := IndexManager.createIndex_eq_some hc
  exact ⟨_, _, hc, IndexManager.openIndex_words ..⟩

/-- Pairs of different keys all take their room. -/
theorem insertAll_nodup_nodesFit_iff (hr : t.root = none) (hp : t.pages = fun _ => none)
    (hnodup : (xs.map Prod.fst).Nodup) (hi : BPlusTree.insertAll arrayLe xs t = some t') :
    NodesFit attrLen t' ↔ xs.length * entrySize attrLen ≤ pageRoom := by
  rw [insertAll_nodesFit_iff hr hp hi, List.toFinset_card_of_nodup hnodup, List.length_map]

/-- The pairs of the keys below `n`. -/
def keysBelow (n : ℕ) : List (ℤ × Rid) := (List.range n).map fun i : ℕ => (i, ⟨1, i⟩)

theorem length_keysBelow (n : ℕ) : (keysBelow n).length = n := by
  rw [keysBelow, List.length_map, List.length_range]

theorem nodup_keysBelow (n : ℕ) : ((keysBelow n).map Prod.fst).Nodup := by
  rw [keysBelow, List.map_map]
  exact List.nodup_range.map Nat.cast_injective

end AlphaDb.Index.BPlusTree
