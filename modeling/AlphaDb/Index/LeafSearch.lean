import AlphaDb.Index.Comparator
import AlphaDb.Index.IndexFormat

/-! `index_format::find_in_leaf` on an array of keys and any comparator, with the positions that it
reads. A page holds fewer than `2 ^ 30` entries, so the sum of two positions is an `int`. -/
namespace AlphaDb.Index

open Comparator

variable {K : Type*} {compare : K → K → Option ℤ} {keys : ℤ → Option K} {key : K} {s : Set K}
  {count left right : ℤ}

/-- The answer of a search, if it is defined, and the positions of `keys` that it read. -/
structure Search where
  answer : Option ℤ
  reads : List ℤ
deriving DecidableEq

/-- The loop of `find_in_leaf`; nothing where a position has no key or the comparator no answer. -/
def searchLoop (compare : K → K → Option ℤ) (keys : ℤ → Option K) (key : K) (left right : ℤ) :
    Search :=
  if left ≤ right then
    match (keys ((left + right) / 2)).bind fun k => compare k key with
    | none => ⟨none, [(left + right) / 2]⟩
    | some result =>
      if result < 0 then
        let rest := searchLoop compare keys key ((left + right) / 2 + 1) right
        ⟨rest.answer, (left + right) / 2 :: rest.reads⟩
      else if 0 < result then
        let rest := searchLoop compare keys key left ((left + right) / 2 - 1)
        ⟨rest.answer, (left + right) / 2 :: rest.reads⟩
      else ⟨some ((left + right) / 2), [(left + right) / 2]⟩
  else ⟨some (-1), []⟩
termination_by (right - left + 1).toNat

/-- The last entry is the dummy and is left out. -/
def findInLeaf (compare : K → K → Option ℤ) (keys : ℤ → Option K) (count : ℤ) (key : K) : Search :=
  if 0 > count - 2 then ⟨some (-1), []⟩ else searchLoop compare keys key 0 (count - 2)

/-- The positions before the dummy hold keys of `s`, strictly increasing. -/
structure Increasing (compare : K → K → Option ℤ) (s : Set K) (keys : ℤ → Option K) (count : ℤ) :
    Prop where
  held : ∀ i, 0 ≤ i → i ≤ count - 2 → ∃ k ∈ s, keys i = some k
  lt : ∀ i j k k', 0 ≤ i → i < j → j ≤ count - 2 → keys i = some k → keys j = some k' →
    Lt compare k k'

/-- How the sign of the comparator's answer is read. -/
def ordering (result : ℤ) : Ordering := if result < 0 then .lt else if 0 < result then .gt else .eq

/-- Different positions between `left` and `right`. -/
def Within (left right : ℤ) (reads : List ℤ) : Prop :=
  (∀ i ∈ reads, left ≤ i ∧ i ≤ right) ∧ reads.Nodup

theorem within_singleton {mid : ℤ} (hl : left ≤ mid) (hr : mid ≤ right) :
    Within left right [mid] := by
  refine ⟨?_, List.nodup_singleton _⟩
  intro i hi
  obtain rfl := List.mem_singleton.mp hi
  exact ⟨hl, hr⟩

/-- A position goes before others that leave it out. -/
theorem within_cons {mid left' right' : ℤ} {reads : List ℤ} (h : Within left' right' reads)
    (hl : left ≤ mid) (hr : mid ≤ right) (hl' : left ≤ left') (hr' : right' ≤ right)
    (hout : mid < left' ∨ right' < mid) : Within left right (mid :: reads) := by
  obtain ⟨hmem, hnodup⟩ := h
  refine ⟨?_, List.nodup_cons.mpr ⟨?_, hnodup⟩⟩
  · intro i hi
    rcases List.mem_cons.mp hi with rfl | hi
    · exact ⟨hl, hr⟩
    · have := hmem i hi
      omega
  · intro hi
    have := hmem mid hi
    omega

theorem searchLoop_within :
    Within left right (searchLoop compare keys key left right).reads := by
  fun_induction searchLoop compare keys key left right with
  | case1 left right hle _ => exact within_singleton (by omega) (by omega)
  | case2 left right hle result _ _ rest ih =>
    exact within_cons ih (by omega) (by omega) (by omega) le_rfl (.inl (by omega))
  | case3 left right hle result _ _ _ rest ih =>
    exact within_cons ih (by omega) (by omega) le_rfl (by omega) (.inr (by omega))
  | case4 left right hle result _ _ _ => exact within_singleton (by omega) (by omega)
  | case5 left right hle => exact ⟨by simp, List.nodup_nil⟩

/-- The answer is that of a binary search. -/
theorem searchLoop_answer :
    (searchLoop compare keys key left right).answer =
      BinarySearch.search (fun i => ((keys i).bind fun k => compare k key).map ordering) left
        right := by
  fun_induction searchLoop compare keys key left right with
  | case1 left right hle h => rw [BinarySearch.search, if_pos hle, h]; rfl
  | case2 left right hle result h hlt rest ih =>
    rw [BinarySearch.search, if_pos hle, h]
    simpa [ordering, hlt] using ih
  | case3 left right hle result h hlt hgt rest ih =>
    rw [BinarySearch.search, if_pos hle, h]
    simpa [ordering, hlt, hgt] using ih
  | case4 left right hle result h hlt hgt =>
    rw [BinarySearch.search, if_pos hle, h]
    simp [ordering, hlt, hgt]
  | case5 left right hle => rw [BinarySearch.search, if_neg hle]

theorem findInLeaf_eq :
    findInLeaf compare keys count key = searchLoop compare keys key 0 (count - 2) := by
  unfold findInLeaf
  split
  · rw [searchLoop, if_neg (by omega)]
  · rfl

theorem ordering_eq {β : Type*} [LinearOrder β] {m : ℤ} {x y : β} (h : Compares m x y) :
    ordering m = cmp x y := by
  unfold ordering
  rcases h with ⟨hm, hxy⟩ | ⟨rfl, rfl⟩ | ⟨hm, hxy⟩
  · rw [if_pos hm, (cmp_eq_lt_iff x y).mpr hxy]
  · rw [if_neg (lt_irrefl _), if_neg (lt_irrefl _), (cmp_eq_eq_iff x x).mpr rfl]
  · rw [if_neg (by omega), if_pos hm, (cmp_eq_gt_iff x y).mpr hxy]

/-- In the order that the comparator makes, the loop is a binary search through increasing keys. -/
theorem Increasing.probes (hk : Increasing compare s keys count) (hc : TotalOrderOn compare s)
    (key : s) : ∃ f : ℤ → s, (∀ i, 0 ≤ i → i ≤ count - 2 → keys i = some ↑(f i)) ∧
      let := hc.linearOrder
      BinarySearch.Probes (fun i => ((keys i).bind fun k => compare k key).map ordering) f key 0
        (count - 2) := by
  have hex : ∀ i : ℤ, ∃ k : s, 0 ≤ i → i ≤ count - 2 → keys i = some ↑k := by
    intro i
    by_cases hi : 0 ≤ i ∧ i ≤ count - 2
    · obtain ⟨k, hks, hki⟩ := hk.held i hi.1 hi.2
      exact ⟨⟨k, hks⟩, fun _ _ => hki⟩
    · exact ⟨key, fun h0 h1 => absurd ⟨h0, h1⟩ hi⟩
  choose f hf using hex
  let := hc.linearOrder
  refine ⟨f, hf, ?_, ?_⟩
  · intro i h0 h1
    obtain ⟨m, hm, hcmp⟩ := hc.compares (f i) key
    simp only [hf i h0 h1, Option.bind_some, hm, Option.map_some, ordering_eq hcmp]
  · intro i j h0 hij h1
    obtain ⟨m, hm, hneg⟩ := hk.lt i j _ _ h0 hij h1 (hf i h0 (by omega)) (hf j (by omega) h1)
    obtain ⟨m', hm', hcmp⟩ := hc.compares (f i) (f j)
    obtain rfl := Option.some.inj (hm.symm.trans hm')
    exact hcmp.lt_iff.mp hneg

/-- For every count, `find_in_leaf` reads positions before the dummy only, each at most once, and
answers with the one that holds the key, or with `-1` if none does. -/
theorem findInLeaf_spec (hc : TotalOrderOn compare s) (hk : Increasing compare s keys count)
    (hkey : key ∈ s) :
    (∀ i ∈ (findInLeaf compare keys count key).reads, 0 ≤ i ∧ i ≤ count - 2) ∧
      (findInLeaf compare keys count key).reads.Nodup ∧
      ((∃ i, 0 ≤ i ∧ i ≤ count - 2 ∧ keys i = some key ∧
          (findInLeaf compare keys count key).answer = some i) ∨
        (∀ i, 0 ≤ i → i ≤ count - 2 → keys i ≠ some key) ∧
          (findInLeaf compare keys count key).answer = some (-1)) := by
  rw [findInLeaf_eq, searchLoop_answer]
  obtain ⟨hwithin, hnodup⟩ :
      Within 0 (count - 2) (searchLoop compare keys key 0 (count - 2)).reads :=
    searchLoop_within
  refine ⟨hwithin, hnodup, ?_⟩
  obtain ⟨f, hf, hprobes⟩ := hk.probes hc ⟨key, hkey⟩
  let := hc.linearOrder
  rcases hprobes.search_eq with ⟨i, h0, h1, hi, hs⟩ | ⟨hne, hs⟩
  · left
    refine ⟨i, h0, h1, ?_, hs⟩
    rw [hf i h0 h1, hi]
  · right
    refine ⟨?_, hs⟩
    intro i h0 h1 hi
    rw [hf i h0 h1] at hi
    exact hne i h0 h1 (Subtype.ext (Option.some.inj hi))

/-- A leaf with three keys of type `INT` and the dummy. -/
def threeKeys (i : ℤ) : Option (List UInt8) :=
  if i = 0 then some [1, 0, 0, 0] else if i = 1 then some [5, 0, 0, 0]
  else if i = 2 then some [0, 1, 0, 0] else if i = 3 then some [255, 255, 255, 255] else none

theorem threeKeys_increasing : Increasing (compareSigned 4) (values .int) threeKeys 4 := by
  constructor
  · intro i h0 h1
    have h1 : i ≤ 2 := h1
    interval_cases i <;> exact ⟨_, rfl, rfl⟩
  · intro i j k k' h0 hij h1 hk hk'
    have h1 : j ≤ 2 := h1
    obtain ⟨rfl, rfl⟩ | ⟨rfl, rfl⟩ | ⟨rfl, rfl⟩ :
        (i = 0 ∧ j = 1) ∨ (i = 0 ∧ j = 2) ∨ (i = 1 ∧ j = 2) := by omega
    all_goals
      cases hk
      cases hk'
      exact ⟨-1, by decide, by decide⟩

theorem findInLeaf_three_keys :
    (findInLeaf (compareSigned 4) threeKeys 4 [0, 1, 0, 0]).answer = some 2 := by
  obtain ⟨-, -, ⟨i, h0, h1, hi, ha⟩ | ⟨hne, -⟩⟩ :=
    findInLeaf_spec (compareSigned_totalOrderOn fun _ ht => ht) threeKeys_increasing
      (show [0, 1, 0, 0] ∈ values .int from rfl)
  · rw [ha]
    have h1 : i ≤ 2 := h1
    interval_cases i <;> first | rfl | (cases hi)
  · exact absurd rfl (hne 2 (by decide) (by decide))

/-! ### The search through the entries of a page -/

/-- The comparator that answers as a linear order does. -/
def answers {K : Type*} [LinearOrder K] (a b : K) : Option ℤ :=
  some (if a < b then -1 else if a = b then 0 else 1)

/-- With such a comparator the keys of a page are searched as its entries are. -/
theorem findInLeaf_entries {K : Type*} [LinearOrder K] (key : WithBot K) (es : List (Entry K)) :
    (findInLeaf answers (fun i => es[i.toNat]?.map Entry.key) es.length key).answer =
      IndexFormat.findInLeaf key es := by
  rw [findInLeaf_eq, searchLoop_answer, IndexFormat.findInLeaf]
  congr 1
  funext i
  cases es[i.toNat]? with
  | none => rfl
  | some e => exact congrArg some (ordering_eq (compares_ite e.key key))

end AlphaDb.Index
