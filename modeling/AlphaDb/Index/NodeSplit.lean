import AlphaDb.Index.Insertion

/-! Splitting a node: the two loops of `move_half_to`, the same for both classes of nodes. -/
namespace AlphaDb.Index.BPlusTree

open Table (Rid)

variable {K : Type} [LinearOrder K] {t : BPlusTree K} {es rs : List (Entry K)} {e : Entry K}
  {leaf : Bool} {n receiver min i : ℕ}

theorem length_remove_le (key : WithBot K) (id : Rid) (es : List (Entry K)) :
    (IndexFormat.remove key id es).2.length ≤ es.length := by
  unfold IndexFormat.remove
  split
  · exact List.length_eraseP_le
  · exact le_rfl

/-- The positions that the loop reads that shortens a node, each with the number of entries at the
time; the loop of `popBack`, up to a position behind the entries. -/
def popReads (min i : ℕ) (es : List (Entry K)) : List (ℕ × ℕ) :=
  if min ≤ i then
    if h : i < es.length then
      (i, es.length) :: popReads min (i + 1) (IndexFormat.remove es[i].key es[i].id es).2
    else [(i, es.length)]
  else []
termination_by es.length - i
decreasing_by
  have := length_remove_le es[i].key es[i].id es
  omega

/-- The positions that `move_half_to` reads in the node, each with the number of its entries. -/
def halfReads (min : ℕ) (es : List (Entry K)) : List (ℕ × ℕ) :=
  (List.range' min (es.length - min)).map (fun i => (i, es.length)) ++
    popReads min (es.length - 1) es

/-- A node with more than `min_size()` entries, sorted and distinct, and an empty receiver. -/
structure Splittable (leaf : Bool) (n receiver : ℕ) (es : List (Entry K)) (t : BPlusTree K) :
    Prop where
  entries : t.entries leaf n = some es
  ordered : IndexFormat.Ordered es
  large : minSize leaf < es.length
  receiver : t.entries leaf receiver = some []

/-- `move_half_to` leaves the first `min_size()` entries of a node in it, puts the others into the
receiver, and reads entries of the node only. -/
structure Splits (leaf : Bool) (n receiver : ℕ) (es : List (Entry K)) (t : BPlusTree K) : Prop where
  inside : ∀ x ∈ halfReads (minSize leaf) es, x.1 < x.2
  halves : ∃ t', moveHalfTo leaf n receiver t = some t' ∧
    t'.entries leaf n = some (es.take (minSize leaf)) ∧
    t'.entries leaf receiver = some (es.drop (minSize leaf))

/-- A key above all others goes to the end. -/
theorem insert_append (h : IndexFormat.Ordered (rs ++ [e])) :
    IndexFormat.insert e.key e.id rs = rs ++ [e] := by
  have hlt : ∀ a ∈ rs, a.key < e.key := fun a ha =>
    (List.pairwise_append.mp h).2.2 a ha e (List.mem_singleton_self e)
  have hnot : ¬ ∃ a ∈ rs, a.key = e.key := by
    rintro ⟨a, ha, hk⟩
    exact (hlt a ha).ne hk
  rw [IndexFormat.insert, if_neg hnot]
  clear h hnot
  induction rs with
  | nil => rfl
  | cons a rs ih =>
    have hle : ¬ e.key ≤ a.key := not_le.mpr (hlt a List.mem_cons_self)
    rw [List.orderedInsert_cons, if_neg hle, ih fun b hb => hlt b (List.mem_cons_of_mem _ hb)]
    rfl

theorem insertAllInto_append (h : IndexFormat.Ordered (rs ++ es)) :
    insertAllInto rs es = rs ++ es := by
  induction es generalizing rs with
  | nil => exact (List.append_nil rs).symm
  | cons e es ih =>
    have h' : IndexFormat.Ordered (rs ++ [e] ++ es) := by simpa using h
    have he : IndexFormat.Ordered (rs ++ [e]) := (List.pairwise_append.mp h').1
    change insertAllInto (IndexFormat.insert e.key e.id rs) es = _
    rw [insert_append he, ih h', List.append_assoc, List.singleton_append]

/-- The loop that copies puts the entries in order into an empty receiver. -/
theorem receiver_entries (h : IndexFormat.Ordered es) :
    insertAllInto [] (es.drop min) = es.drop min := by
  have hdrop : IndexFormat.Ordered ([] ++ es.drop min) := h.sublist (List.drop_sublist min es)
  exact insertAllInto_append hdrop

theorem length_remove_getElem (h : i < es.length) :
    (IndexFormat.remove es[i].key es[i].id es).2.length = es.length - 1 := by
  have hex : ∃ e ∈ es, e.key = es[i].key := ⟨es[i], List.getElem_mem h, rfl⟩
  rw [IndexFormat.remove, if_pos hex]
  exact List.length_eraseP_of_mem (List.getElem_mem h) (by simp)

/-- In its second round the loop that shortens a node reads behind the entries. -/
theorem popReads_behind (h : min < es.length) :
    (es.length, es.length - 1) ∈ popReads min (es.length - 1) es := by
  have hlt : es.length - 1 < es.length := by omega
  rw [popReads, if_pos (by omega), dif_pos hlt]
  apply List.mem_cons_of_mem
  have hlen := length_remove_getElem hlt
  generalize (IndexFormat.remove es[es.length - 1].key es[es.length - 1].id es).2 = es' at hlen ⊢
  rw [show es.length - 1 + 1 = es.length by omega, popReads, if_pos h.le, dif_neg (by omega), hlen]
  exact List.mem_singleton_self _

theorem halfReads_behind (h : min < es.length) :
    (es.length, es.length - 1) ∈ halfReads min es :=
  List.mem_append_right _ (popReads_behind h)

theorem Splits.le_minSize (h : Splits leaf n receiver es t) : es.length ≤ minSize leaf := by
  by_contra hlt
  have hread := h.inside _ (halfReads_behind (not_le.mp hlt))
  omega

/-- No leaf and no internal node is split. -/
theorem not_splits (h : Splittable leaf n receiver es t) : ¬ Splits leaf n receiver es t :=
  fun hs => absurd hs.le_minSize (not_le.mpr h.large)

/-- A node with the entries `es` and an empty one. -/
def twoNodes (leaf : Bool) (es : List (Entry ℕ)) : BPlusTree ℕ where
  height := 1
  root := some 0
  nodes a := some ⟨⟨a, -1⟩, none, .uninit⟩
  heap := 2
  pages pg := some ⟨leaf, if pg = 0 then es else []⟩
  nextPage := 2
  numPages := 2

/-- The entries of the keys below `m`. -/
def entriesBelow (m : ℕ) : List (Entry ℕ) := (List.range m).map fun k : ℕ => ⟨k, ⟨1, k⟩⟩

theorem splittable_twoNodes (leaf : Bool) {m : ℕ} (hm : minSize leaf < m) :
    Splittable leaf 0 1 (entriesBelow m) (twoNodes leaf (entriesBelow m)) where
  entries := entries_eq_some.mpr ⟨_, rfl, rfl⟩
  ordered := by
    rw [IndexFormat.Ordered, entriesBelow, List.pairwise_map]
    exact List.pairwise_lt_range.imp WithBot.coe_lt_coe.mpr
  large := by simpa [entriesBelow] using hm
  receiver := entries_eq_some.mpr ⟨_, rfl, rfl⟩

theorem not_splits_internal :
    ¬ Splits false 0 1 (entriesBelow 32769) (twoNodes false (entriesBelow 32769)) :=
  not_splits (splittable_twoNodes false (by decide))

/-- A leaf with one entry more than `min_size()` is read behind its end. -/
theorem full_leaf_not_split : ∃ es : List (Entry ℕ), es.length = 32768 ∧
    Splittable true 0 1 es (twoNodes true es) ∧ (32768, 32767) ∈ halfReads (minSize true) es ∧
      ¬ Splits true 0 1 es (twoNodes true es) := by
  have hlen : (entriesBelow 32768).length = 32768 := by simp [entriesBelow]
  have hs := splittable_twoNodes true (show minSize true < 32768 by decide)
  have hread := halfReads_behind hs.large
  rw [hlen] at hread
  refine ⟨entriesBelow 32768, hlen, hs, hread, ?_⟩
  intro h
  exact absurd h.le_minSize (not_le.mpr hs.large)

end AlphaDb.Index.BPlusTree
