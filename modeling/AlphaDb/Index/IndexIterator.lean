import AlphaDb.Index.Descent
import AlphaDb.Lib.Trace

/-! Scans of an index (`index/b+tree/index_iterator`, `io/iterator`). -/
namespace AlphaDb.Index

open Table (Rid)
open Trace BPlusTree

inductive CriterionType
  | notEqual
  | equal
  | lessThan
  | lessEqual
  | greaterThan
  | greaterEqual
deriving DecidableEq

structure Criterion (K : Type) where
  type : CriterionType
  val : K

namespace Criterion

variable {K : Type} [LinearOrder K] {cri : Criterion K} {k : K}

/-- `internal_eval`. For `NOT_EQUAL` it ends without a `return`. -/
def internalEval (cri : Criterion K) (k : K) : Option Bool :=
  match cri.type with
  | .lessThan => some (decide (k < cri.val))
  | .greaterThan => some (decide (cri.val < k))
  | .equal => some (decide (k = cri.val))
  | .greaterEqual => some (decide (cri.val < k) || decide (k = cri.val))
  | .lessEqual => some (decide (k < cri.val) || decide (k = cri.val))
  | .notEqual => none

/-- `eval` on a key by its pointer. -/
def eval (cri : Criterion K) (key : WithBot K) : Option Bool :=
  key.recBotCoe none cri.internalEval

/-- What the criterion means. -/
def Satisfied (cri : Criterion K) (k : K) : Prop :=
  match cri.type with
  | .lessThan => k < cri.val
  | .lessEqual => k ≤ cri.val
  | .greaterThan => cri.val < k
  | .greaterEqual => cri.val ≤ k
  | .equal => k = cri.val
  | .notEqual => k ≠ cri.val

theorem satisfied_of_eval {key : WithBot K} (h : cri.eval key = some true) :
    ∃ k : K, key = k ∧ cri.Satisfied k := by
  induction key using WithBot.recBotCoe with
  | bot => cases h
  | coe k =>
    refine ⟨k, rfl, ?_⟩
    change cri.internalEval k = some true at h
    obtain ⟨type, val⟩ := cri
    cases type with
    | notEqual => cases h
    | equal => exact of_decide_eq_true (p := k = val) (Option.some.inj h)
    | lessThan => exact of_decide_eq_true (p := k < val) (Option.some.inj h)
    | greaterThan => exact of_decide_eq_true (p := val < k) (Option.some.inj h)
    | lessEqual =>
      have hle : k < val ∨ k = val := by simpa [internalEval] using h
      exact le_iff_lt_or_eq.mpr hle
    | greaterEqual =>
      have hle : val < k ∨ k = val := by simpa [internalEval] using h
      exact le_iff_lt_or_eq.mpr (hle.imp_right Eq.symm)

end Criterion

/-- The iterator with its tree. `start_` and `end_` are addresses of nodes. -/
structure IndexIterator (K : Type) where
  criterion : Criterion K
  descending : Bool
  tree : BPlusTree K
  start : ℕ
  «end» : Option ℕ
  now : Rid
  nextIsNull : Bool
  foundOne : Bool

/-- What the loop over the keys of a leaf ends with. -/
inductive KeyScan
  | found (j : ℕ)
  | stop (j : ℕ)
  | through

namespace IndexIterator

variable {K : Type} [LinearOrder K]

/-- The leaves that the constructor looks for. For `EQUAL` and `NOT_EQUAL`, `start_` is not set. -/
def bounds (arrayLe : WithBot K → Bool) (cri : Criterion K) (desc : Bool) (t : BPlusTree K) :
    Option (Option ℕ × Option ℕ × BPlusTree K) :=
  if cri.type = .greaterEqual ∨ cri.type = .greaterThan then do
    let (start, t) ← if desc then findLargestLeafNode t else findLeafNode arrayLe cri.val t
    let (stop, t) ← if desc then findLeafNode arrayLe cri.val t else findLargestLeafNode t
    some (start, stop, t)
  else if cri.type = .lessEqual ∨ cri.type = .lessThan then do
    let (start, t) ← findSmallestLeafNode t
    let (stop, t) ← findLeafNode arrayLe cri.val t
    some (start, stop, t)
  else none

/-- The slot to start with. -/
def startSlot (desc : Bool) (start : ℕ) (t : BPlusTree K) : Option ℤ :=
  if desc then (t.entries true start).map fun es => (es.length : ℤ) - 2 else some 0

/-- The constructor. -/
def create (arrayLe : WithBot K → Bool) (cri : Criterion K) (desc : Bool) (t : BPlusTree K) :
    Option (IndexIterator K) := do
  let (start, stop, t) ← bounds arrayLe cri desc t
  let start ← start
  let n ← t.nodes start
  let slot ← startSlot desc start t
  some {
    criterion := cri
    descending := desc
    tree := t
    start := start
    «end» := stop
    now := ⟨n.pageId.page, slot⟩
    nextIsNull := true
    foundOne := false }

/-- `end`. -/
def endRid : Rid := ⟨-1, -1⟩

/-- What `next` returns where it stops early. -/
def stopRid : Rid := ⟨-2, -2⟩

/-- `can_stop_now`. Behind the last test there is no `return`. -/
def canStopNow (cri : Criterion K) (desc : Bool) (key : WithBot K) : Option Bool :=
  if cri.type = .notEqual then some false
  else key.recBotCoe none fun k =>
    let c := cmp k cri.val
    if cri.type = .equal ∧ c ≠ .eq then some true
    else if cri.type = .greaterEqual ∧ c = .lt ∧ desc then some true
    else if cri.type = .greaterThan ∧ c ≠ .gt ∧ desc then some true
    else if cri.type = .lessEqual ∧ c = .gt ∧ !desc then some true
    else if cri.type = .lessThan ∧ c ≠ .lt ∧ !desc then some true
    else none

/-- The loop over the keys of a leaf, from slot `j` on. -/
def scanKeys (cri : Criterion K) (desc foundOne : Bool) : ℕ → List (Entry K) → Option KeyScan
  | _, [] => some .through
  | j, e :: es => do
    if ← cri.eval e.key then some (.found j)
    else if foundOne then do
      if ← canStopNow cri desc e.key then some (.stop j)
      else scanKeys cri desc foundOne (j + 1) es
    else scanKeys cri desc foundOne (j + 1) es

/-- The loop of `next` over so many leaves, with `a` for `current_`. The slot is converted to
`size_t`, and the last entry of a leaf is left out. -/
def nextFrom : ℕ → ℕ → IndexIterator K → Option (Rid × IndexIterator K)
  | 0, _, _ => none
  | leaves + 1, a, it =>
    if it.nextIsNull then some (endRid, it)
    else do
      let n ← it.tree.nodes a
      let stop ← it.tree.nodes (← it.end)
      let it := { it with nextIsNull := decide (n.pageId.page = stop.pageId.page) }
      let es ← it.tree.entries true a
      let last ← es.getLast?
      let j := (BitVec.ofInt 64 it.now.slot).toNat
      match ← scanKeys it.criterion it.descending it.foundOne j (es.dropLast.drop j) with
      | .found j =>
        some (⟨n.pageId.page, j⟩, { it with foundOne := true, now := ⟨it.now.page, j⟩ })
      | .stop j => some (stopRid, { it with now := ⟨it.now.page, j⟩ })
      | .through =>
        -- `current_` is deleted, also where it is the node of `start_`
        let (a, t) := (it.tree.setNode a none).newNode none last.id
        nextFrom leaves a { it with tree := t, now := last.id }

def next (leaves : ℕ) (it : IndexIterator K) : Option (Rid × IndexIterator K) :=
  nextFrom leaves it.start it

/-- A call of `next` returns after some leaves. -/
def Returns (it : IndexIterator K) (r : Rid) (it' : IndexIterator K) : Prop :=
  ∃ leaves, it.next leaves = some (r, it')

/-- Below page `pg`, the leaf and the slot of the key `k`. -/
inductive Position (pages : ℤ → Option (Page K)) (k : K) (r : Rid) : ℤ → Prop
  | leaf {pg : ℤ} {es : List (Entry K)} {e : Entry K} {i : ℕ} (hp : pages pg = some ⟨true, es⟩)
      (he : es[i]? = some e) (hk : e.key = k) (hr : r = ⟨pg, i⟩) : Position pages k r pg
  | child {pg : ℤ} {es : List (Entry K)} {e : Entry K} (hp : pages pg = some ⟨false, es⟩)
      (he : e ∈ es) (hr : Position pages k r e.id.page) : Position pages k r pg

def At (t : BPlusTree K) (k : K) (r : Rid) : Prop :=
  ∃ root n, t.root = some root ∧ t.nodes root = some n ∧ Position t.pages k r n.pageId.page

/-- Successive calls return the positions of exactly the keys that satisfy the criterion, in
increasing order of the keys, and then an end marker. -/
def Scans (arrayLe : WithBot K → Bool) (cri : Criterion K) (t : BPlusTree K) : Prop :=
  ∃ it it' marker, ∃ found : List (K × Rid), create arrayLe cri false t = some it ∧
    found.Pairwise (fun x y => x.1 < y.1) ∧
    (∀ x, x ∈ found ↔ At t x.1 x.2 ∧ cri.Satisfied x.1) ∧
    (marker = endRid ∨ marker = stopRid) ∧
    MTr Returns it (found.map Prod.snd ++ [marker]) it'

variable {arrayLe : WithBot K → Bool} {cri : Criterion K} {desc foundOne : Bool} {t u : BPlusTree K}
  {it it' : IndexIterator K} {r : Rid} {rs : List Rid} {k : K}

/-- A key that ends the loop satisfies the criterion. -/
theorem scanKeys_found {j i : ℕ} {es : List (Entry K)}
    (h : scanKeys cri desc foundOne j es = some (.found i)) :
    ∃ e, j ≤ i ∧ es[i - j]? = some e ∧ cri.eval e.key = some true := by
  induction es generalizing j with
  | nil => cases h
  | cons e es ih =>
    have hbehind : scanKeys cri desc foundOne (j + 1) es = some (.found i) →
        ∃ e', j ≤ i ∧ (e :: es)[i - j]? = some e' ∧ cri.eval e'.key = some true := by
      intro h
      obtain ⟨e', hle, he, heval⟩ := ih h
      refine ⟨e', by omega, ?_, heval⟩
      rw [show i - j = i - (j + 1) + 1 by omega, List.getElem?_cons_succ, he]
    obtain ⟨fits, heval, h⟩ := Option.bind_eq_some_iff.mp h
    cases fits with
    | true =>
      cases h
      exact ⟨e, le_rfl, by rw [Nat.sub_self, List.getElem?_cons_zero], heval⟩
    | false =>
      rw [if_neg Bool.false_ne_true] at h
      split at h
      · obtain ⟨stops, -, h⟩ := Option.bind_eq_some_iff.mp h
        split at h
        · cases h
        · exact hbehind h
      · exact hbehind h

/-- A call returns the position of a key that satisfies the criterion, or an end marker. -/
theorem nextFrom_returns {leaves a : ℕ} (h : nextFrom leaves a it = some (r, it')) :
    r = endRid ∨ r = stopRid ∨ ∃ (es : List (Entry K)) (e : Entry K) (i : ℕ) (k : K),
      it.tree.pages r.page = some ⟨true, es⟩ ∧ r.slot = i ∧ es[i]? = some e ∧ e.key = k ∧
        it.criterion.Satisfied k := by
  induction leaves generalizing a it with
  | zero => cases h
  | succ leaves ih =>
    rw [nextFrom] at h
    split at h
    · cases h
      exact .inl rfl
    obtain ⟨n, hn, h⟩ := Option.bind_eq_some_iff.mp h
    obtain ⟨b, -, h⟩ := Option.bind_eq_some_iff.mp h
    obtain ⟨stop, -, h⟩ := Option.bind_eq_some_iff.mp h
    obtain ⟨es, hes, h⟩ := Option.bind_eq_some_iff.mp h
    obtain ⟨last, -, h⟩ := Option.bind_eq_some_iff.mp h
    obtain ⟨scan, hscan, h⟩ := Option.bind_eq_some_iff.mp h
    cases scan with
    | found i =>
      cases h
      obtain ⟨e, hle, he, heval⟩ := scanKeys_found hscan
      obtain ⟨n', hn', hp⟩ := entries_eq_some.mp hes
      obtain rfl := Option.some.inj (hn.symm.trans hn')
      obtain ⟨k, hk, hsat⟩ := Criterion.satisfied_of_eval heval
      rw [List.getElem?_drop, Nat.add_sub_of_le hle] at he
      obtain ⟨hlt, he⟩ := List.getElem?_eq_some_iff.mp he
      rw [List.getElem_dropLast] at he
      exact .inr (.inr ⟨es, e, i, k, hp, rfl, List.getElem?_eq_some_iff.mpr ⟨_, he⟩, hk, hsat⟩)
    | stop i =>
      cases h
      exact .inr (.inl rfl)
    | through =>
      have hrest := ih h
      exact hrest

/-- `next_is_null_` is set from the start, and then a call returns the end and changes nothing. -/
theorem returns_of_nextIsNull (hnull : it.nextIsNull = true) :
    Returns it r it' ↔ r = endRid ∧ it' = it := by
  have hnext : ∀ leaves, it.next (leaves + 1) = some (endRid, it) := fun leaves => if_pos hnull
  constructor
  · rintro ⟨leaves, h⟩
    cases leaves with
    | zero => cases h
    | succ leaves =>
      rw [hnext] at h
      cases h
      exact ⟨rfl, rfl⟩
  · rintro ⟨rfl, rfl⟩
    exact ⟨1, hnext 0⟩

/-- Successive calls return nothing but the end. -/
theorem calls_eq_end (h : MTr Returns it rs it') (hnull : it.nextIsNull = true) :
    ∀ r ∈ rs, r = endRid := by
  induction h with
  | refl => simp
  | stepL hstep _ ih =>
    obtain ⟨rfl, rfl⟩ := (returns_of_nextIsNull hnull).mp hstep
    exact List.forall_mem_cons.mpr ⟨rfl, ih hnull⟩

theorem create_nextIsNull (h : create arrayLe cri desc t = some it) : it.nextIsNull = true := by
  obtain ⟨⟨start, stop, u⟩, -, h⟩ := Option.bind_eq_some_iff.mp h
  obtain ⟨a, -, h⟩ := Option.bind_eq_some_iff.mp h
  obtain ⟨n, -, h⟩ := Option.bind_eq_some_iff.mp h
  obtain ⟨slot, -, h⟩ := Option.bind_eq_some_iff.mp h
  cases h
  rfl

/-- A descent in a well-formed tree comes back only where there is at most one leaf, with the
root. -/
theorem leafBy_wellFormed {down : ℕ → BPlusTree K → Option (ℕ × BPlusTree K)} {a : Option ℕ}
    (hd : StepsDown down) (hw : WellFormed t) (h : leafBy down t = some (a, u)) :
    a = t.root ∧ u = t ∧ ∀ root, t.root = some root → t.height = 1 := by
  cases hroot : t.root with
  | none =>
    rw [leafBy, hroot] at h
    cases h
    exact ⟨rfl, rfl, fun _ hnone => by cases hnone⟩
  | some root =>
    obtain ⟨n, levels, hn, -, hh, hs⟩ := hw root hroot
    cases levels with
    | zero =>
      have hone : t.height = 1 := by simpa using hh
      rw [leafBy, hroot] at h
      dsimp only at h
      rw [if_pos hone] at h
      cases h
      exact ⟨rfl, rfl, fun _ _ => hone⟩
    | succ levels =>
      rw [hs.leafBy_eq_none hd hroot hn (by simpa using hh)] at h
      cases h

/-- The constructor returns for a tree whose root is a leaf only. -/
theorem create_height (hw : WellFormed t) (h : create arrayLe cri false t = some it) :
    ∃ root, t.root = some root ∧ t.height = 1 := by
  obtain ⟨⟨start, stop, u⟩, hb, h⟩ := Option.bind_eq_some_iff.mp h
  obtain ⟨a, ha, -⟩ := Option.bind_eq_some_iff.mp h
  have hroot : start = t.root ∧ ∀ root, t.root = some root → t.height = 1 := by
    unfold bounds at hb
    split at hb
    · obtain ⟨⟨start', v⟩, hstart, hb⟩ := Option.bind_eq_some_iff.mp hb
      obtain ⟨⟨stop', w⟩, -, hb⟩ := Option.bind_eq_some_iff.mp hb
      cases hb
      obtain ⟨hroot, -, hone⟩ := leafBy_wellFormed (stepsDown_lookup _ _) hw hstart
      exact ⟨hroot, hone⟩
    · split at hb
      · obtain ⟨⟨start', v⟩, hstart, hb⟩ := Option.bind_eq_some_iff.mp hb
        obtain ⟨⟨stop', w⟩, -, hb⟩ := Option.bind_eq_some_iff.mp hb
        cases hb
        obtain ⟨hroot, -, hone⟩ := leafBy_wellFormed stepsDown_smallest hw hstart
        exact ⟨hroot, hone⟩
      · cases hb
  refine ⟨a, hroot.1.symm.trans ha, hroot.2 a (hroot.1.symm.trans ha)⟩

theorem create_of_leaf {root : ℕ} {n : Node} (hroot : t.root = some root)
    (hn : t.nodes root = some n) (hone : t.height = 1)
    (htype : cri.type ≠ .equal ∧ cri.type ≠ .notEqual) :
    ∃ it, create arrayLe cri false t = some it := by
  have hleaf : ∀ down : ℕ → BPlusTree K → Option (ℕ × BPlusTree K),
      leafBy down t = some (some root, t) := by
    intro down
    rw [leafBy, hroot]
    exact if_pos hone
  have hbounds : bounds arrayLe cri false t = some (some root, some root, t) := by
    obtain ⟨type, val⟩ := cri
    obtain ⟨hequal, hnot⟩ := htype
    cases type with
    | equal => exact absurd rfl hequal
    | notEqual => exact absurd rfl hnot
    | _ => simp [bounds, findLeafNode, findLargestLeafNode, findSmallestLeafNode, hleaf]
  simp [create, hbounds, hn, startSlot]

/-- The root is a leaf, and none of its keys satisfies the criterion. -/
def NoMatchInRoot (cri : Criterion K) (t : BPlusTree K) : Prop :=
  ∃ root n es, t.root = some root ∧ t.nodes root = some n ∧
    t.pages n.pageId.page = some ⟨true, es⟩ ∧ ∀ e ∈ es, ∀ k : K, e.key = k → ¬ cri.Satisfied k

end IndexIterator

end AlphaDb.Index
