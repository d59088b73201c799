import AlphaDb.Transaction.LockManager
import AlphaDb.Lib.DoublyLinked

/-! The buckets of the lock table: doubly linked chains of entries in memory, of which the table
holds the heads, and the map that they make. -/
namespace AlphaDb.Transaction

/-- The fields of a lock entry that the table uses. -/
structure BucketNode where
  item : DataItem
  next : Option ℕ
  prev : Option ℕ

instance : DoublyLinked.Links BucketNode ℕ where
  next := BucketNode.next
  prev := BucketNode.prev
  withNext e next := { e with next }
  withPrev e prev := { e with prev }
  next_withNext _ _ := rfl
  prev_withNext _ _ := rfl
  next_withPrev _ _ := rfl
  prev_withPrev _ _ := rfl

/-- `table` has `tableSize` cells; `node` is the memory of the entries, with nothing at an address
that is not allocated or was deleted. -/
structure LockBuckets where
  tableSize : ℕ
  table : ℤ → Option ℕ
  node : ℕ → Option BucketNode
  fresh : ℕ

inductive TableAnswer
  | entry (pointer : Option ℕ)
  | removed (found : Bool)
  deriving DecidableEq, Repr

/-- `raw` is what the memory of a new entry held where its item is; no code sets it. -/
inductive TableCall
  | search (item : DataItem)
  | add (item raw : DataItem)
  | remove (item : DataItem)

def TableCall.item : TableCall → DataItem
  | .search item => item
  | .add item _ => item
  | .remove item => item

namespace LockTable

/-- The call on the map; its entries keep their lock fields elsewhere. -/
def call (m : LockTable) : TableCall → TableAnswer × LockTable
  | .search item => (.entry (m.search item), m)
  | .add item _ => (.entry (some (m.add item (.none, 0)).1), (m.add item (.none, 0)).2)
  | .remove item => (.removed (m.search item).isSome, m.remove item)

def answers : LockTable → List TableCall → List TableAnswer
  | _, [] => []
  | m, c :: calls => (m.call c).1 :: answers (m.call c).2 calls

/-- The map with no entry. -/
def empty : LockTable := ⟨fun _ => none, fun _ => .new .none 0, fun _ => 0, fun _ => false, 0⟩

end LockTable

namespace LockBuckets

variable {t t' : LockBuckets} {m m' : LockTable} {item item' raw : DataItem} {c : TableCall}
  {node node' : ℕ → Option BucketNode} {chain : ℤ → List ℕ} {b : ℤ} {p q : ℕ} {l : List ℕ}
  {before head : Option ℕ}

def empty (tableSize : ℕ) : LockBuckets := ⟨tableSize, fun _ => none, fun _ => none, 0⟩

/-- The pointer as an `int`, and the remainder of C++, which takes the sign of the dividend. -/
def hash (t : LockBuckets) (item : DataItem) : ℤ := ((item : ℤ).bmod (2 ^ 32)).tmod t.tableSize

theorem hash_congr (h : t'.tableSize = t.tableSize) : t'.hash item = t.hash item :=
  congrArg (fun n : ℕ => ((item : ℤ).bmod (2 ^ 32)).tmod n) h

/-- The hash is defined, and the bucket lies inside the table. -/
def InTable (t : LockBuckets) (item : DataItem) : Prop := 0 < t.tableSize ∧ 0 ≤ t.hash item

instance : Decidable (t.InTable item) := inferInstanceAs (Decidable (_ ∧ _))

/-- The loop of `search`; nothing if it reads an entry that is not there. Each entry is passed at
most once, so their number bounds the rounds. -/
def walk (node : ℕ → Option BucketNode) (item : DataItem) : ℕ → Option ℕ → Option (Option ℕ)
  | _, none => some none
  | 0, some _ => none
  | fuel + 1, some p =>
    (node p).bind fun e => if item = e.item then some (some p) else walk node item fuel e.next

def search (t : LockBuckets) (item : DataItem) : Option (Option ℕ) :=
  if t.InTable item then walk t.node item t.fresh (t.table (t.hash item)) else none

/-- A new entry in front of the bucket whose head is at `head`. -/
def pushFront (t : LockBuckets) (pos : ℤ) (raw : DataItem) (head : ℕ) (e : BucketNode) :
    LockBuckets where
  tableSize := t.tableSize
  table := Function.update t.table pos (some t.fresh)
  node := Function.update (Function.update t.node t.fresh (some ⟨raw, some head, none⟩))
    head (some { e with prev := some t.fresh })
  fresh := t.fresh + 1

/-- The source writes through the old head of the bucket, null or not. -/
def add (t : LockBuckets) (item raw : DataItem) : Option (ℕ × LockBuckets) :=
  (t.search item).bind fun pointer =>
    match pointer with
    | some p => some (p, t)
    | none =>
      (t.table (t.hash item)).bind fun head =>
        (t.node head).map fun e => (t.fresh, t.pushFront (t.hash item) raw head e)

/-- `p->next = next`. -/
def setNext (node : ℕ → Option BucketNode) (p : Option ℕ) (next : Option ℕ) :
    Option (ℕ → Option BucketNode) :=
  p.bind fun p => (node p).map fun e => Function.update node p (some { e with next := next })

/-- `p->prev = prev`. -/
def setPrev (node : ℕ → Option BucketNode) (p : Option ℕ) (prev : Option ℕ) :
    Option (ℕ → Option BucketNode) :=
  p.bind fun p => (node p).map fun e => Function.update node p (some { e with prev := prev })

/-- The three branches: the head, the tail, an entry between two others. -/
def unlink (t : LockBuckets) (pos : ℤ) (p : ℕ) (e : BucketNode) : Option LockBuckets :=
  if t.table pos = some p then some { t with table := Function.update t.table pos e.next }
  else if e.next = none then (setNext t.node e.prev none).map fun node => { t with node := node }
  else
    (setPrev t.node e.next e.prev).bind fun node =>
      (setNext node e.prev e.next).map fun node => { t with node := node }

def remove (t : LockBuckets) (item : DataItem) : Option (Bool × LockBuckets) :=
  (t.search item).bind fun pointer =>
    match pointer with
    | none => some (false, t)
    | some p =>
      (t.node p).bind fun e =>
        (t.unlink (t.hash item) p e).map fun t' =>
          (true, { t' with node := Function.update t'.node p none })

/-- A call, with its answer; nothing where the source is undefined. -/
def call (t : LockBuckets) : TableCall → Option (TableAnswer × LockBuckets)
  | .search item => (t.search item).map fun pointer => (.entry pointer, t)
  | .add item raw => (t.add item raw).map fun x => (.entry (some x.1), x.2)
  | .remove item => (t.remove item).map fun x => (.removed x.1, x.2)

/-- The answers to a sequence of calls. -/
def answers : LockBuckets → List TableCall → Option (List TableAnswer)
  | _, [] => some []
  | t, c :: calls => (t.call c).bind fun x => (answers x.2 calls).map fun rest => x.1 :: rest

/-- The item that an entry holds. -/
def itemAt (node : ℕ → Option BucketNode) (p : ℕ) : Option DataItem :=
  (node p).map BucketNode.item

/-- The chain `l` from `head` on, with its back links; that of the head itself plays no part unless
there is a node `before` it. -/
def Linked (node : ℕ → Option BucketNode) : Option ℕ → Option ℕ → List ℕ → Prop
  | _, head, [] => head = none
  | before, head, p :: l => head = some p ∧ ∃ e, node p = some e ∧
      (before ≠ none → e.prev = before) ∧ Linked node (some p) e.next l

/-- Disjoint chains of allocated entries, one for each bucket. -/
structure Chained (t : LockBuckets) (chain : ℤ → List ℕ) : Prop where
  linked : ∀ b, Linked t.node none (t.table b) (chain b)
  nodup : ∀ b, (chain b).Nodup
  apart : ∀ b b' p, p ∈ chain b → p ∈ chain b' → b = b'
  bound : ∀ b, ∀ p ∈ chain b, p < t.fresh

/-- The buckets make the map: an item is mapped to the entry of its own bucket that holds it. -/
structure Represents (t : LockBuckets) (m : LockTable) (chain : ℤ → List ℕ) : Prop where
  chained : Chained t chain
  next : m.next = t.fresh
  found : ∀ item p, m.table item = some p ↔ p ∈ chain (t.hash item) ∧ itemAt t.node p = some item

theorem linked_iff : Linked node before head l ↔ DoublyLinked.Linked node before head l := by
  induction l generalizing before head with
  | nil => rfl
  | cons p l ih =>
    simp only [Linked, DoublyLinked.Linked, ih]
    rfl

theorem chained_iff : Chained t chain ↔
    DoublyLinked.Chains t.table t.node chain ∧ ∀ b, ∀ p ∈ chain b, p < t.fresh := by
  constructor
  · intro h
    exact ⟨⟨fun b => linked_iff.mp (h.linked b), h.nodup, h.apart⟩, h.bound⟩
  · rintro ⟨h, hbound⟩
    exact ⟨fun b => linked_iff.mpr (h.linked b), h.nodup, h.apart, hbound⟩

theorem walk_eq_walk {fuel : ℕ} :
    walk node item fuel head = DoublyLinked.walk BucketNode.item item node fuel head := by
  induction fuel generalizing head with
  | zero => cases head <;> rfl
  | succ fuel ih =>
    cases head with
    | none => rfl
    | some p =>
      rw [walk, DoublyLinked.walk]
      congr 1
      funext e
      simp only [eq_comm, ih]
      rfl

/-- Along a chain the loop of `search` finds the first entry with the item. -/
theorem walk_eq {fuel : ℕ} (h : Linked node before head l) (hf : l.length ≤ fuel) :
    walk node item fuel head = some (l.find? fun p => itemAt node p = some item) := by
  rw [walk_eq_walk]
  exact DoublyLinked.walk_eq (linked_iff.mp h) hf

theorem Chained.length_le (h : Chained t chain) : (chain b).length ≤ t.fresh := by
  have hsub : chain b ⊆ List.range t.fresh := fun p hp => List.mem_range.mpr (h.bound b p hp)
  simpa using ((h.nodup b).subperm hsub).length_le

/-- The search finds what the map has. -/
theorem Represents.search_eq (h : Represents t m chain) (hi : t.InTable item) :
    t.search item = some (m.table item) := by
  rw [search, if_pos hi, walk_eq (h.chained.linked _) h.chained.length_le]
  congr 1
  cases hf : (chain (t.hash item)).find? fun p => itemAt t.node p = some item with
  | none =>
    symm
    by_contra hn
    obtain ⟨p, hp⟩ := Option.ne_none_iff_exists'.mp hn
    obtain ⟨hmem, hitem⟩ := (h.found item p).mp hp
    exact List.find?_eq_none.mp hf p hmem (by simpa using hitem)
  | some p =>
    symm
    exact (h.found item p).mpr ⟨List.mem_of_find?_eq_some hf, by simpa using List.find?_some hf⟩

/-- Membership in the chains when one of them has changed. -/
theorem mem_update {b' : ℤ} : p ∈ Function.update chain b l b' ↔
    (b' = b ∧ p ∈ l) ∨ (b' ≠ b ∧ p ∈ chain b') := by
  by_cases hb : b' = b
  · subst hb
    simp
  · simp [hb]

theorem chained_pushFront {e : BucketNode} (h : Chained t chain) (hl : chain b = p :: l)
    (he : t.node p = some e) :
    Chained (t.pushFront b raw p e) (Function.update chain b (t.fresh :: p :: l)) := by
  obtain ⟨hchains, hbound⟩ := chained_iff.mp h
  have hfresh : ∀ b', t.fresh ∉ chain b' := fun b' hf => absurd (hbound b' _ hf) (lt_irrefl _)
  have hp : p ≠ t.fresh := ne_of_mem_of_not_mem (by simp [hl]) (hfresh b)
  have hhead : t.table b = some p := by
    rw [(hchains.linked b).head_eq, hl]
    rfl
  refine chained_iff.mpr ⟨?_, ?_⟩
  · rw [← hl]
    apply hchains.push (e := ⟨raw, some p, none⟩) hfresh ?_ hhead.symm
    · intro q f hq hf
      obtain rfl := Option.some.inj (hhead.symm.trans hq)
      obtain rfl := Option.some.inj (he.symm.trans hf)
      exact ⟨_, Function.update_self .., rfl, rfl⟩
    · intro x hx hxp
      have hne : x ≠ p := by
        rintro rfl
        exact hxp hhead
      simp [pushFront, hne, hx]
    · simp [pushFront, hp.symm]
  · intro b' q hq
    rcases mem_update.mp hq with ⟨-, hq⟩ | ⟨-, hq⟩
    · rcases List.mem_cons.mp hq with rfl | hq
      · exact Nat.lt_succ_self _
      · exact Nat.lt_succ_of_lt (hbound b q (hl ▸ hq))
    · exact Nat.lt_succ_of_lt (hbound b' q hq)

theorem itemAt_pushFront {e : BucketNode} (he : t.node p = some e) (hp : p ≠ t.fresh) :
    itemAt (t.pushFront b raw p e).node = Function.update (itemAt t.node) t.fresh (some raw) := by
  funext q
  by_cases hqp : q = p
  · subst hqp
    simp [itemAt, pushFront, he, hp]
  · by_cases hq : q = t.fresh
    · subst hq
      simp [itemAt, pushFront, hqp]
    · simp [itemAt, pushFront, hqp, hq]

/-- A new item goes in front of a bucket that is not empty, if its entry comes to hold it. -/
theorem Represents.add (h : Represents t m chain) (hi : t.InTable item)
    (hn : m.table item = none) (hb : t.table (t.hash item) ≠ none) :
    ∃ t' chain', t.add item item = some (t.fresh, t') ∧ t'.tableSize = t.tableSize ∧
      Represents t' (m.add item (.none, 0)).2 chain' := by
  obtain ⟨hd, hhd⟩ := Option.ne_none_iff_exists'.mp hb
  have hlink := linked_iff.mp (h.chained.linked (t.hash item))
  rw [hhd] at hlink
  obtain ⟨e, l, hl, he, -⟩ := hlink.pop
  have hfresh : ∀ b, t.fresh ∉ chain b := fun b hf => absurd (h.chained.bound b _ hf) (lt_irrefl _)
  have hne : hd ≠ t.fresh := (h.chained.bound (t.hash item) hd (by simp [hl])).ne
  refine ⟨t.pushFront (t.hash item) item hd e,
    Function.update chain (t.hash item) (t.fresh :: hd :: l), ?_, rfl,
    chained_pushFront h.chained hl he, ?_, ?_⟩
  · simp [LockBuckets.add, h.search_eq hi, hn, hhd, he]
  · simp [LockTable.add, LockTable.search, hn, pushFront, h.next]
  · intro item' p
    have htable : (m.add item (.none, 0)).2.table =
        Function.update m.table item (some t.fresh) := by
      simp [LockTable.add, LockTable.search, hn, h.next]
    have hmem : p ∈ Function.update chain (t.hash item) (t.fresh :: hd :: l) (t.hash item') ↔
        p ∈ chain (t.hash item') ∨ (t.hash item' = t.hash item ∧ p = t.fresh) := by
      rw [mem_update, ← hl, List.mem_cons]
      by_cases hb : t.hash item' = t.hash item
      · simp [hb, or_comm]
      · simp [hb]
    rw [htable, itemAt_pushFront he hne]
    change _ ↔ p ∈ Function.update chain _ _ (t.hash item') ∧ _
    rw [hmem]
    by_cases hp : p = t.fresh
    · subst hp
      by_cases hit : item' = item
      · simp [hit]
      · have hno : m.table item' ≠ some t.fresh :=
          fun hf => hfresh _ ((h.found item' t.fresh).mp hf).1
        simp [hit, Ne.symm hit, hno]
    · rw [Function.update_of_ne hp]
      simp only [hp, and_false, or_false, ← h.found]
      by_cases hit : item' = item
      · subst hit
        simp [hn, Ne.symm hp]
      · simp [hit]

theorem unlinked_item : DoublyLinked.Unlinked BucketNode.item := ⟨fun _ _ => rfl, fun _ _ => rfl⟩

/-- The branches are those of the doubly linked chains; the rest of the table stays. -/
theorem unlink_eq_unlink {e : BucketNode} : t.unlink b p e =
    (DoublyLinked.unlink t.table t.node b p e).map fun u =>
      { t with table := u.1, node := u.2 } := by
  by_cases hp : t.table b = some p
  · simp only [LockBuckets.unlink, DoublyLinked.unlink, hp, if_true, Option.map_some]
    rfl
  · by_cases hn : e.next = none
    · have hn' : DoublyLinked.Links.next e = none := hn
      simp only [LockBuckets.unlink, DoublyLinked.unlink, hp, hn, hn', if_true, if_false,
        Option.map_map]
      rfl
    · have hn' : DoublyLinked.Links.next e ≠ none := hn
      simp only [LockBuckets.unlink, DoublyLinked.unlink, hp, hn, hn', if_false, Option.map_bind,
        Option.map_map, Function.comp_def]
      rfl

/-- An entry of a chain can be unlinked and deleted, wherever it stands. -/
theorem Chained.unlink (h : Chained t chain) (hp : p ∈ chain b) :
    ∃ e u, t.node p = some e ∧ t.unlink b p e = some u ∧ u.tableSize = t.tableSize ∧
      u.fresh = t.fresh ∧
      Chained { u with node := Function.update u.node p none }
        (Function.update chain b ((chain b).erase p)) ∧
      ∀ q, q ≠ p → itemAt u.node q = itemAt t.node q := by
  obtain ⟨hchains, hbound⟩ := chained_iff.mp h
  obtain ⟨l₁, l₂, hl⟩ := List.append_of_mem hp
  have hp₁ : p ∉ l₁ := by
    have hnodup := h.nodup b
    rw [hl] at hnodup
    exact fun hmem => (List.nodup_append.mp hnodup).2.2 p hmem p (by simp) rfl
  have herase : (chain b).erase p = l₁ ++ l₂ := by
    rw [hl, List.erase_append_right _ hp₁, List.erase_cons_head]
  obtain ⟨e, u, he, hu, hchains', -, hitem⟩ := hchains.unlink hl unlinked_item
  refine ⟨e, { t with table := u.1, node := u.2 }, he, ?_, rfl, rfl, ?_, hitem⟩
  · rw [unlink_eq_unlink, hu]
    rfl
  · rw [herase]
    refine chained_iff.mpr ⟨hchains', ?_⟩
    intro b' q hq
    rcases mem_update.mp hq with ⟨-, hq⟩ | ⟨-, hq⟩
    · apply hbound b q
      rw [hl]
      rcases List.mem_append.mp hq with hq | hq <;> simp [hq]
    · exact hbound b' q hq

/-- The entry of an item is deleted, and every other entry stays where it is. -/
theorem Represents.remove (h : Represents t m chain) (hi : t.InTable item)
    (hp : m.table item = some p) :
    ∃ t' chain', t.remove item = some (true, t') ∧ t'.tableSize = t.tableSize ∧
      Represents t' (m.remove item) chain' := by
  obtain ⟨hmem, hitem⟩ := (h.found item p).mp hp
  obtain ⟨e, u, he, hu, hsize, hfresh, hchained, hitems⟩ := h.chained.unlink hmem
  refine ⟨{ u with node := Function.update u.node p none },
    Function.update chain (t.hash item) ((chain (t.hash item)).erase p), ?_, hsize, hchained, ?_,
    ?_⟩
  · simp [LockBuckets.remove, h.search_eq hi, hp, he, hu]
  · simp [LockTable.remove, LockTable.search, hp, h.next, hfresh]
  · intro item' q
    have hhash : ({ u with node := Function.update u.node p none } : LockBuckets).hash item' =
        t.hash item' := hash_congr hsize
    have hmemq : q ∈ Function.update chain (t.hash item) ((chain (t.hash item)).erase p)
        (t.hash item') ↔ q ∈ chain (t.hash item') ∧ q ≠ p := by
      rw [mem_update, (h.chained.nodup _).mem_erase_iff]
      by_cases hb : t.hash item' = t.hash item
      · simp [hb, and_comm]
      · have hne : q ∈ chain (t.hash item') → q ≠ p := by
          rintro hq rfl
          exact hb (h.chained.apart _ _ _ hq hmem)
        simp only [hb, false_and, not_false_eq_true, true_and, false_or, ne_eq]
        exact ⟨fun hq => ⟨hq, hne hq⟩, And.left⟩
    have htab : (m.remove item).table = Function.update m.table item none := by
      simp [LockTable.remove, LockTable.search, hp]
    rw [hhash, hmemq, htab]
    by_cases hqp : q = p
    · subst hqp
      by_cases hit : item' = item
      · simp [hit]
      · have hno : m.table item' ≠ some q := by
          intro hf
          have := ((h.found item' q).mp hf).2.symm.trans hitem
          exact hit (Option.some.inj this)
        simp [hit, hno]
    · have hsameq : itemAt (Function.update u.node p none) q = itemAt t.node q := by
        rw [← hitems q hqp]
        simp [itemAt, hqp]
      rw [hsameq]
      by_cases hit : item' = item
      · subst hit
        have hno : ¬ (q ∈ chain (t.hash item') ∧ itemAt t.node q = some item') := by
          intro hf
          have := ((h.found item' q).mpr hf).symm.trans hp
          exact hqp (Option.some.inj this)
        rw [Function.update_self]
        simp only [reduceCtorEq, false_iff]
        exact fun hf => hno ⟨hf.1.1, hf.2⟩
      · rw [Function.update_of_ne hit, h.found]
        simp [hqp]

/-- What the source needs of a call: its bucket inside the table, and for a new item a bucket that
is not empty and an entry whose memory happens to hold the item. -/
def Sound (t : LockBuckets) (m : LockTable) (c : TableCall) : Prop :=
  t.InTable c.item ∧
    ∀ item raw, c = .add item raw → m.table item = none →
      t.table (t.hash item) ≠ none ∧ raw = item

/-- A call that meets it answers as the map does, and makes the same change. -/
theorem Represents.call (h : Represents t m chain) (hc : t.Sound m c) :
    ∃ t' chain', t.call c = some ((m.call c).1, t') ∧ t'.tableSize = t.tableSize ∧
      Represents t' (m.call c).2 chain' := by
  obtain ⟨hi, hnew⟩ := hc
  cases c with
  | search item =>
    have hi : t.InTable item := hi
    have hs := h.search_eq hi
    exact ⟨t, chain, by simp [LockBuckets.call, LockTable.call, LockTable.search, hs], rfl, h⟩
  | add item raw =>
    have hi : t.InTable item := hi
    have hs := h.search_eq hi
    cases hm : m.table item with
    | none =>
      obtain ⟨hb, rfl⟩ := hnew item raw rfl hm
      obtain ⟨t', chain', hadd, hsize, hrep⟩ := h.add hi hm hb
      refine ⟨t', chain', ?_, hsize, hrep⟩
      simp [LockBuckets.call, LockTable.call, hadd, LockTable.add, LockTable.search, hm, h.next]
    | some p =>
      have hsame : m.add item (.none, 0) = (p, m) := by
        simp [LockTable.add, LockTable.search, hm]
      refine ⟨t, chain, ?_, rfl, ?_⟩
      · simp [LockBuckets.call, LockTable.call, hsame, LockBuckets.add, hs, hm]
      · simpa [LockTable.call, hsame] using h
  | remove item =>
    have hi : t.InTable item := hi
    have hs := h.search_eq hi
    cases hm : m.table item with
    | none =>
      have hsame : m.remove item = m := by simp [LockTable.remove, LockTable.search, hm]
      refine ⟨t, chain, ?_, rfl, ?_⟩
      · simp [LockBuckets.call, LockTable.call, LockTable.search, LockBuckets.remove, hs,
          hm]
      · simpa [LockTable.call, hsame] using h
    | some p =>
      obtain ⟨t', chain', hrem, hsize, hrep⟩ := h.remove hi hm
      refine ⟨t', chain', ?_, hsize, hrep⟩
      simp [LockBuckets.call, LockTable.call, LockTable.search, hrem, hm]

/-- Every call of a sequence meets it where it is made. -/
def SoundCalls : LockBuckets → LockTable → List TableCall → Prop
  | _, _, [] => True
  | t, m, c :: calls => t.Sound m c ∧ ∀ t', t.call c = some ((m.call c).1, t') →
      SoundCalls t' (m.call c).2 calls

/-- A sequence of such calls is answered as by the map, whatever items share a bucket. -/
theorem Represents.answers {calls : List TableCall} (h : Represents t m chain)
    (hc : SoundCalls t m calls) : t.answers calls = some (m.answers calls) := by
  induction calls generalizing t m chain with
  | nil => rfl
  | cons c calls ih =>
    obtain ⟨t', chain', hcall, -, hrep⟩ := h.call hc.1
    rw [LockBuckets.answers, hcall, Option.bind_some, ih hrep (hc.2 t' hcall)]
    rfl

-- three items in the bucket of an entry that is there before them
example : answers ⟨4, fun b => if b = 0 then some 0 else none,
    fun p => if p = 0 then some ⟨0, none, none⟩ else none, 1⟩
    [.add 4 4, .add 8 8, .add 12 12, .remove 8, .search 4, .search 8, .remove 12, .search 4] =
    some [.entry (some 1), .entry (some 2), .entry (some 3), .removed true, .entry (some 1),
      .entry none, .removed true, .entry (some 1)] := by
  decide +kernel

/-- The calls that an empty table can take. -/
def OnlyLooks (t : LockBuckets) (c : TableCall) : Prop :=
  t.InTable c.item ∧ ∀ item raw, c ≠ .add item raw

theorem search_empty {tableSize : ℕ} : (empty tableSize).search item =
    if (empty tableSize).InTable item then some none else none := rfl

/-- An empty table looks up and removes as the map does, and stays empty. -/
theorem call_empty {tableSize : ℕ} (h : (empty tableSize).OnlyLooks c) :
    (empty tableSize).call c = some ((LockTable.empty.call c).1, empty tableSize) ∧
      (LockTable.empty.call c).2 = .empty := by
  obtain ⟨hi, hadd⟩ := h
  cases c with
  | search item =>
    have hi : (empty tableSize).InTable item := hi
    simp [call, search_empty, hi, LockTable.call, LockTable.search, LockTable.empty]
  | add item raw => exact absurd rfl (hadd item raw)
  | remove item =>
    have hi : (empty tableSize).InTable item := hi
    simp [call, remove, search_empty, hi, LockTable.call, LockTable.remove, LockTable.search,
      LockTable.empty]

/-- Its first `add` writes through the null head of the bucket, and an item of a negative hash is
looked up outside of the table. -/
theorem call_empty_eq_none {tableSize : ℕ} (h : ¬ (empty tableSize).OnlyLooks c) :
    (empty tableSize).call c = none := by
  have hout : ∀ item, c.item = item → (∀ item raw, c ≠ .add item raw) →
      ¬ (empty tableSize).InTable item := by
    rintro item rfl hc hi
    exact h ⟨hi, hc⟩
  cases c with
  | search item =>
    have hi := hout item rfl (by simp)
    simp [call, search_empty, hi]
  | add item raw =>
    by_cases hi : (empty tableSize).InTable item
    · have hhead : (empty tableSize).table ((empty tableSize).hash item) = none := rfl
      simp [call, add, search_empty, hi, hhead]
    · simp [call, add, search_empty, hi]
  | remove item =>
    have hi := hout item rfl (by simp)
    simp [call, remove, search_empty, hi]

/-- A table whose buckets start empty is a map for a sequence of calls if and only if none of them
is an `add` and all look inside the table. -/
theorem answers_empty_iff {tableSize : ℕ} {calls : List TableCall} :
    answers (empty tableSize) calls = some (LockTable.empty.answers calls) ↔
      ∀ c ∈ calls, (empty tableSize).OnlyLooks c := by
  induction calls with
  | nil => simp [answers, LockTable.answers]
  | cons c calls ih =>
    by_cases hc : (empty tableSize).OnlyLooks c
    · obtain ⟨hcall, hm⟩ := call_empty hc
      rw [answers, hcall, LockTable.answers, hm, List.forall_mem_cons, ← ih]
      simp [hc]
    · rw [answers, call_empty_eq_none hc]
      simp [hc]

/-- The first `add` of all has no answer, nor has a search for a pointer with the sign bit set. -/
theorem add_to_empty_bucket :
    answers (empty 1024) [.add 64 0] ≠ some (LockTable.empty.answers [.add 64 0]) ∧
    answers (empty 1024) [.search 0x80000001] ≠
      some (LockTable.empty.answers [.search 0x80000001]) := by
  constructor
  · rw [answers, call_empty_eq_none fun h => h.2 64 0 rfl]
    simp
  · rw [answers, call_empty_eq_none fun h => absurd h.1 (by decide +kernel)]
    simp

end LockBuckets

end AlphaDb.Transaction
