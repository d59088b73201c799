import AlphaDb.Index.BPlusTree

/-! What a B+ tree holds after a sequence of insertions. -/
namespace AlphaDb.Index.BPlusTree

open Table (Rid)

variable {K : Type} [LinearOrder K] {arrayLe : WithBot K → Bool} {t t' : BPlusTree K}
  {es : List (Entry K)} {k : K} {p : Rid} {xs : List (K × Rid)}

def insertAll (arrayLe : WithBot K → Bool) (xs : List (K × Rid)) (t : BPlusTree K) :
    Option (BPlusTree K) :=
  xs.foldlM (fun t x => insert arrayLe (x.1 : WithBot K) x.2 t) t

/-- `find` answers `k` with `p`. The null rid is the sign of a failure. -/
def Found (arrayLe : WithBot K → Bool) (t : BPlusTree K) (k : K) (p : Rid) : Prop :=
  p ≠ Rid.null ∧ ∃ t', find arrayLe (k : WithBot K) t = some (p, t')

/-- The keys of the leaves from `l` on, followed through `next()`. -/
inductive Chain (t : BPlusTree K) : Link → List (WithBot K) → Prop
  | null : Chain t .null []
  | node {a : ℕ} {n : Node} {es : List (Entry K)} {ks : List (WithBot K)} (hn : t.nodes a = some n)
      (he : t.entries true a = some es) (hc : Chain t n.next ks) :
      Chain t (.node a) (es.map Entry.key ++ ks)

/-- Below page `pg` there is a leaf at depth `d`. -/
inductive LeafDepth (t : BPlusTree K) : ℤ → ℕ → Prop
  | leaf {pg : ℤ} {es : List (Entry K)} (hp : t.pages pg = some ⟨true, es⟩) : LeafDepth t pg 0
  | child {pg : ℤ} {es : List (Entry K)} {e : Entry K} {d : ℕ}
      (hp : t.pages pg = some ⟨false, es⟩) (he : e ∈ es) (hd : LeafDepth t e.id.page d) :
      LeafDepth t pg (d + 1)

/-- The pairs `xs` are in the tree, in the order of their keys, with all leaves at one depth. -/
structure Complete (arrayLe : WithBot K → Bool) (xs : List (K × Rid)) (t : BPlusTree K) :
    Prop where
  found : ∀ x ∈ xs, Found arrayLe t x.1 x.2
  chain : ∃ l t' ks, findSmallestLeafNode t = some (l, t') ∧ Chain t' (l.elim .null .node) ks ∧
    ks.Pairwise (· < ·) ∧ ks.Perm (xs.map fun x => (x.1 : WithBot K))
  depth : ∀ r n d d', t.root = some r → t.nodes r = some n → LeafDepth t n.pageId.page d →
    LeafDepth t n.pageId.page d' → d = d'

/-- The root is a leaf, with the entries `es`. -/
def RootLeaf (es : List (Entry K)) (t : BPlusTree K) : Prop :=
  ∃ r n, t.root = some r ∧ t.nodes r = some n ∧ t.pages n.pageId.page = some ⟨true, es⟩

/-- Shortening a node runs past its end. -/
theorem popBack_eq_none {min i : ℕ} (h : min ≤ i) : popBack min i es = none := by
  fun_induction popBack min i es with
  | case1 i es _ hlt ih => exact ih (by omega)
  | case2 => rfl
  | case3 i es hlt => exact absurd h hlt

/-- A node that is empty or over its minimum cannot be halved. -/
theorem moveHalfTo_eq_none {leaf : Bool} {n receiver : ℕ}
    (h : ∀ es, t.entries leaf n = some es → es = [] ∨ minSize leaf < es.length) :
    moveHalfTo leaf n receiver t = none := by
  cases he : t.entries leaf n with
  | none => simp [moveHalfTo, he]
  | some es =>
    have hpop (hne : es ≠ []) : popBack (minSize leaf) (es.length - 1) es = none := by
      have := (h es he).resolve_left hne
      exact popBack_eq_none (by omega)
    by_cases hne : es = []
    · simp [moveHalfTo, he, hne]
    · simp [moveHalfTo, he, hne, hpop hne]

/-- A node over its minimum cannot be split. -/
theorem split_eq_none {leaf : Bool} {n : ℕ} (he : t.entries leaf n = some es)
    (hlen : minSize leaf < es.length) : split leaf n t = none := by
  have hhalf (node : Node) : moveHalfTo leaf n (t.newPageNode leaf node.parent).1
      (t.newPageNode leaf node.parent).2 = none := by
    apply moveHalfTo_eq_none
    intro es' he'
    rcases entries_newPageNode he' with rfl | he'
    · exact .inl rfl
    · cases he.symm.trans he'
      exact .inr hlen
  cases hn : t.nodes n with
  | none => simp [split, hn]
  | some node => simp [split, hn, hhalf]

/-- The descent to a leaf makes no step from a leaf. -/
theorem RootLeaf.findLeafNode_eq (arrayLe : WithBot K → Bool) (k : K) (h : RootLeaf es t) :
    ∃ r, t.entries true r = some es ∧ t.root = some r ∧ findLeafNode arrayLe k t =
      if t.height = 1 then some (some r, t) else none := by
  obtain ⟨r, n, hr, hn, hp⟩ := h
  refine ⟨r, entries_eq_some.mpr ⟨n, hn, hp⟩, hr, ?_⟩
  have hlookup : InternalNode.lookup arrayLe r (k : WithBot K) t = none := by
    simp [InternalNode.lookup, entries, hn, hp]
  simp only [findLeafNode, leafBy, hr]
  split
  · rfl
  · cases rounds t.height with
    | zero => rfl
    | succ m => simp [descend, hlookup]

/-- The largest key of a leaf is not found. -/
theorem RootLeaf.not_found (h : RootLeaf (es ++ [⟨k, p⟩]) t)
    (ho : IndexFormat.Ordered (es ++ [⟨k, p⟩])) : ¬ Found arrayLe t k p := by
  rintro ⟨hnull, t', hfind⟩
  obtain ⟨r, he, -, hleaf⟩ := h.findLeafNode_eq arrayLe k
  by_cases hheight : t.height = 1
  · have hdrop : (es ++ [⟨k, p⟩] : List (Entry K)).dropLast = es := List.dropLast_concat
    have hes : IndexFormat.Ordered (es ++ [⟨k, p⟩] : List (Entry K)).dropLast := by
      rw [hdrop]
      exact (List.pairwise_append.mp ho).1
    rcases IndexFormat.findInLeaf_eq (k : WithBot K) hes with ⟨i, e, hi, hk, -⟩ | ⟨-, hi⟩
    · rw [hdrop] at hi
      exact ho.key_ne (List.mem_of_getElem? hi) (List.mem_singleton_self _) hk
    · rw [if_pos hheight] at hleaf
      simp only [find, hleaf, he, hi, Option.bind_eq_bind, Option.bind_some, if_true] at hfind
      cases hfind
      exact hnull rfl
  · rw [if_neg hheight] at hleaf
    simp only [find, hleaf, Option.bind_eq_bind, Option.bind_none, reduceCtorEq] at hfind

/-- All that was inserted is in one leaf. -/
def LoneLeaf (xs : List (K × Rid)) (t : BPlusTree K) : Prop :=
  ∃ es : List (Entry K), RootLeaf es t ∧ IndexFormat.Ordered es ∧ es ≠ [] ∧
    ∀ e ∈ es, ∃ x ∈ xs, e = ⟨x.1, x.2⟩

/-- An insertion goes into the leaf at the root, where the height says that the root is a leaf and
the leaf need not be split. -/
theorem insert_rootLeaf {r : ℕ} {n : Node} (hr : t.root = some r) (hn : t.nodes r = some n)
    (hp : t.pages n.pageId.page = some ⟨true, es⟩) :
    BPlusTree.insert arrayLe (k : WithBot K) p t =
      if t.height = 1 ∧ es.length < maxSize true then
        some { t with
          pages := Function.update t.pages n.pageId.page
            (some ⟨true, IndexFormat.insert (k : WithBot K) p es⟩) }
      else none := by
  obtain ⟨r', he, hr', hleaf⟩ := RootLeaf.findLeafNode_eq arrayLe k ⟨r, n, hr, hn, hp⟩
  obtain rfl : r = r' := Option.some.inj (hr.symm.trans hr')
  simp only [BPlusTree.insert, hr, hleaf]
  by_cases hheight : t.height = 1
  · simp only [hheight, if_true, true_and, he, Option.bind_eq_bind, Option.bind_some]
    by_cases hlt : es.length < maxSize true
    · simp only [if_pos hlt, insertInLeaf, LeafNode.insert, insertEntry, he, setEntries, hn,
        Option.bind_eq_bind, Option.bind_some]
      rw [hr, hheight]
    · have hsplit := split_eq_none he
        (show minSize true < es.length from lt_of_lt_of_le (by decide) (not_lt.mp hlt))
      simp [hlt, hsplit]
  · simp [hheight]

/-- The first insertion makes a leaf on a new page. -/
theorem insert_root_none (hr : t.root = none) :
    BPlusTree.insert arrayLe (k : WithBot K) p t =
      some { t with
        root := some t.heap
        nodes := Function.update t.nodes t.heap (some ⟨⟨t.nextPage, -1⟩, none, .uninit⟩)
        heap := t.heap + 1
        pages := Function.update t.pages t.nextPage (some ⟨true, [⟨k, p⟩]⟩)
        nextPage := t.nextPage + 1 } := by
  simp [BPlusTree.insert, hr, LeafNode.insert, insertEntry, entries, setEntries, newPageNode,
    newNode, setNode, IndexFormat.insert]

theorem LoneLeaf.of_insert (hr : t.root = none)
    (hi : BPlusTree.insert arrayLe (k : WithBot K) p t = some t') : LoneLeaf [(k, p)] t' := by
  rw [insert_root_none hr] at hi
  obtain rfl := Option.some.inj hi
  refine ⟨[⟨k, p⟩], ⟨t.heap, _, rfl, Function.update_self _ _ _, Function.update_self _ _ _⟩,
    ?_, ?_, ?_⟩
  · exact List.pairwise_singleton _ _
  · simp
  · simp

/-- A full leaf cannot be split, so all that is inserted goes into the leaf at the root. -/
theorem LoneLeaf.insert (h : LoneLeaf xs t)
    (hi : BPlusTree.insert arrayLe (k : WithBot K) p t = some t') :
    LoneLeaf (xs ++ [(k, p)]) t' := by
  obtain ⟨es, ⟨r, n, hr, hn, hp⟩, ho, hne, hes⟩ := h
  rw [insert_rootLeaf hr hn hp] at hi
  split at hi
  · obtain rfl := Option.some.inj hi
    refine ⟨IndexFormat.insert k p es, ⟨r, n, hr, hn, Function.update_self _ _ _⟩, ho.insert,
      IndexFormat.insert_ne_nil, ?_⟩
    intro e hmem
    obtain rfl | hmem := IndexFormat.mem_of_mem_insert hmem
    · exact ⟨(k, p), by simp, rfl⟩
    · obtain ⟨x, hx, rfl⟩ := hes e hmem
      exact ⟨x, by simp [hx], rfl⟩
  · cases hi

/-- What an insertion keeps, of the pairs so far and the tree, is kept by all of them. -/
theorem insertAll_inv {P : List (K × Rid) → BPlusTree K → Prop} {ys : List (K × Rid)}
    (hstep : ∀ xs t t' (k : K) p, P xs t →
      BPlusTree.insert arrayLe (k : WithBot K) p t = some t' → P (xs ++ [(k, p)]) t')
    (h : P xs t) (hi : insertAll arrayLe ys t = some t') : P (xs ++ ys) t' := by
  induction ys generalizing xs t with
  | nil =>
    obtain rfl := Option.some.inj hi
    rwa [List.append_nil]
  | cons y ys ih =>
    obtain ⟨u, hu, hi⟩ := Option.bind_eq_some_iff.mp hi
    simpa using ih (hstep xs t u y.1 y.2 h hu) hi

/-- Something that was inserted is not found. -/
theorem LoneLeaf.not_complete (h : LoneLeaf xs t) : ¬ Complete arrayLe xs t := by
  obtain ⟨es, hroot, ho, hne, hes⟩ := h
  obtain ⟨x, hx, hlast⟩ := hes _ (List.getLast_mem hne)
  have heq := List.dropLast_append_getLast hne
  rw [hlast] at heq
  rw [← heq] at hroot ho
  intro hc
  exact hroot.not_found ho (hc.found x hx)

/-- Insertions into an empty tree keep all pairs in order only if there are none. -/
theorem insertAll_complete_iff (ht : t.root = none) :
    (∃ t', insertAll arrayLe xs t = some t' ∧ Complete arrayLe xs t') ↔ xs = [] := by
  constructor
  · rintro ⟨t', hi, hc⟩
    cases xs with
    | nil => rfl
    | cons x xs =>
      obtain ⟨u, hu, hi⟩ := Option.bind_eq_some_iff.mp hi
      have hlone : LoneLeaf ([(x.1, x.2)] ++ xs) t' :=
        insertAll_inv (fun _ _ _ _ _ h hi => h.insert hi) (LoneLeaf.of_insert ht hu) hi
      exact absurd hc hlone.not_complete
  · rintro rfl
    refine ⟨t, rfl, ?_, ?_, ?_⟩
    · simp
    · refine ⟨none, t, [], ?_, .null, ?_⟩
      · simp [findSmallestLeafNode, leafBy, ht]
      · simp
    · intro r n d d' hr
      simp [ht] at hr

theorem insertAll_not_complete_two :
    ¬ ∃ t', insertAll (fun _ => true) [((5 : ℤ), ⟨1, 0⟩), (7, ⟨1, 1⟩)] (empty 1 1) = some t' ∧
      Complete (fun _ => true) [(5, ⟨1, 0⟩), (7, ⟨1, 1⟩)] t' :=
  (insertAll_complete_iff rfl).not.mpr (by simp)

theorem find_only_key : ((insertAll (fun _ => true) [((5 : ℤ), ⟨1, 0⟩)] (empty 1 1)).bind
    (find (fun _ => true) ((5 : ℤ) : WithBot ℤ))).map Prod.fst = some Rid.null := by
  simp [find, findLeafNode, leafBy, insertAll, insert, empty, newPageNode, newNode, setNode,
    LeafNode.insert, insertEntry, entries, setEntries, IndexFormat.insert,
    IndexFormat.findInLeaf_singleton]

/-- One key is inserted, and is not found. -/
theorem only_key_not_complete :
    ¬ ∃ t, insertAll (fun _ => true) [((5 : ℤ), ⟨1, 0⟩)] (empty 1 1) = some t ∧
      Complete (fun _ => true) [(5, ⟨1, 0⟩)] t := by
  rintro ⟨t, hi, hc⟩
  obtain ⟨-, t', hf⟩ := hc.found _ (List.mem_singleton_self _)
  have hnull := find_only_key
  rw [hi, Option.bind_some, hf, Option.map_some] at hnull
  cases hnull

end AlphaDb.Index.BPlusTree
