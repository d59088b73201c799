import AlphaDb.Io.HashTable
import AlphaDb.Lib.BlockInt
import AlphaDb.Lib.DoublyLinked
import AlphaDb.Lib.Trace

/-! The page table of the buffer pool in memory (`io/hash_table`): the entries of a bucket are
linked by pointers in both directions. The lists of `HashTable` are what the pointers lead to. -/
namespace AlphaDb.Io

open Block DoublyLinked Trace

/-- `hash_entry`. -/
structure HashNode where
  fd : ℤ
  page : ℤ
  slot : ℤ
  prev : Option ℕ
  next : Option ℕ
deriving DecidableEq

def HashNode.key (e : HashNode) : ℤ × ℤ := (e.fd, e.page)

/-- What an entry holds besides its links. -/
def HashNode.content (e : HashNode) : (ℤ × ℤ) × ℤ := (e.key, e.slot)

instance : Links HashNode ℕ where
  next := HashNode.next
  prev := HashNode.prev
  withNext e next := { e with next }
  withPrev e prev := { e with prev }
  next_withNext _ _ := rfl
  prev_withNext _ _ := rfl
  next_withPrev _ _ := rfl
  prev_withPrev _ _ := rfl

/-- The value of an `int` expression; an overflow is undefined. -/
def checkInt (v : ℤ) : Option ℤ := if IsInt32 v then some v else none

/-- `heads` is the array `hash_table_`; `node` is the memory of the entries, with nothing at an
address that is not allocated or was deleted. `inserted` counts the entries ever made. -/
structure HashChains where
  bucketNum : ℤ
  heads : ℤ → Option ℕ
  node : ℕ → Option HashNode
  inserted : ℕ

/-- A call; `address` is where `new` puts the entry if the call makes one. -/
inductive HashCall
  | find (fd page : ℤ)
  | insert (fd page slot : ℤ) (address : ℕ)
  | remove (fd page : ℤ)
deriving DecidableEq

namespace HashChains

variable {t t' : HashChains} {m : HashTable} {chain : ℤ → List ℕ} {fd page slot b : ℤ}
  {address p : ℕ} {node node' : ℕ → Option HashNode} {l l₁ l₂ : List ℕ} {es : List HashEntry}

def new (bucketNum : ℤ) : HashChains := ⟨bucketNum, fun _ => none, fun _ => none, 0⟩

/-- The remainder of C++ takes the sign of the dividend. -/
def hash (bucketNum fd page : ℤ) : Option ℤ :=
  (checkInt (fd + page)).map fun v => v.tmod bucketNum

/-- The index of a bucket, inside the array. -/
def bucket (t : HashChains) (fd page : ℤ) : Option ℤ :=
  (hash t.bucketNum fd page).bind fun b => if 0 ≤ b ∧ b < t.bucketNum then some b else none

/-- The bucket of a pair, and where its loop through the entries stops: at the pair or at null.
There are no more rounds than entries were made. -/
def lookup (t : HashChains) (fd page : ℤ) : Option (ℤ × Option ℕ) := do
  let bucket ← t.bucket fd page
  let entry ← walk HashNode.key (fd, page) t.node t.inserted (t.heads bucket)
  some (bucket, entry)

def find (t : HashChains) (fd page : ℤ) : Option ℤ := do
  let (_, entry) ← t.lookup fd page
  match entry with
  | none => some (-1)
  | some p => (t.node p).map HashNode.slot

/-- A new entry before the head of its bucket. -/
def pushFront (t : HashChains) (bucket fd page slot : ℤ) (address : ℕ) : Option HashChains := do
  let head := t.heads bucket
  let node := Function.update t.node address (some ⟨fd, page, slot, none, head⟩)
  let node ← if head = none then some node else setPrev node head (some address)
  some { t with
    heads := Function.update t.heads bucket (some address)
    node
    inserted := t.inserted + 1 }

def insert (t : HashChains) (fd page slot : ℤ) (address : ℕ) : Option HashChains := do
  let exist ← t.find fd page
  if exist ≠ -1 then some t
  else
    let bucket ← t.bucket fd page
    t.pushFront bucket fd page slot address

def remove (t : HashChains) (fd page : ℤ) : Option HashChains := do
  let exist ← t.find fd page
  if exist = -1 then some t
  else
    let (bucket, entry) ← t.lookup fd page
    let p ← entry
    let e ← t.node p
    -- the head of the bucket, its last entry, or one between two others
    let (heads, node) ← unlink t.heads t.node bucket p e
    some { t with heads, node := Function.update node p none }

/-- What a call leaves, if it is defined. -/
def call (t : HashChains) : HashCall → Option HashChains
  | .find fd page => (t.find fd page).map fun _ => t
  | .insert fd page slot address => t.insert fd page slot address
  | .remove fd page => t.remove fd page

/-! ### The chains hold the lists of the table -/

/-- The entry at `p` has the fields `e`. -/
def Holds (node : ℕ → Option HashNode) (p : ℕ) (e : HashEntry) : Prop :=
  ∃ n, node p = some n ∧ n.key = e.key ∧ n.slot = e.slot

theorem unlinked_content : Unlinked HashNode.content := ⟨fun _ _ => rfl, fun _ _ => rfl⟩

theorem holds_iff {e : HashEntry} :
    Holds node p e ↔ (node p).map HashNode.content = some (e.key, (e.slot : ℤ)) := by
  simp [Holds, HashNode.content]

theorem holds_frame (h : List.Forall₂ (Holds node) l es)
    (hn : ∀ p ∈ l, (node' p).map HashNode.content = (node p).map HashNode.content) :
    List.Forall₂ (Holds node') l es := by
  induction h with
  | nil => exact .nil
  | @cons p e l es hp _ ih =>
    refine .cons ?_ (ih fun q hq => hn q (List.mem_cons_of_mem _ hq))
    rw [holds_iff, hn p List.mem_cons_self]
    exact holds_iff.mp hp

theorem holds_mem (h : List.Forall₂ (Holds node) l es) (hp : p ∈ l) :
    ∃ e ∈ es, Holds node p e := by
  induction h with
  | nil => cases hp
  | @cons q e l es hq _ ih =>
    rcases List.mem_cons.mp hp with rfl | hp
    · exact ⟨e, List.mem_cons_self, hq⟩
    · obtain ⟨f, hf, hpf⟩ := ih hp
      exact ⟨f, List.mem_cons_of_mem _ hf, hpf⟩

theorem holds_keys (h : List.Forall₂ (Holds node) l es) :
    l.map (fun p => (node p).map HashNode.key) = es.map (some ∘ HashEntry.key) := by
  induction h with
  | nil => rfl
  | cons hp _ ih =>
    obtain ⟨n, hn, hkey, -⟩ := hp
    rw [List.map_cons, List.map_cons, ih, hn, Option.map_some, hkey]
    rfl

/-- The first entry with a key, in the chain and in the list. -/
theorem locate (h : List.Forall₂ (Holds node) l es) (k : ℤ × ℤ) :
    (l.find? (fun p => (node p).map HashNode.key = some k) = none ∧
      es.find? (fun e => e.key = k) = none) ∨
    ∃ l₁ p l₂ e, l = l₁ ++ p :: l₂ ∧ Holds node p e ∧
      l.find? (fun p => (node p).map HashNode.key = some k) = some p ∧
      es.find? (fun e => e.key = k) = some e ∧
      List.Forall₂ (Holds node) (l₁ ++ l₂) (es.eraseP fun e => e.key = k) := by
  induction h with
  | nil => exact .inl ⟨rfl, rfl⟩
  | @cons p e l es hp hrest ih =>
    obtain ⟨n, hn, hkey, -⟩ := id hp
    by_cases hk : e.key = k
    · right
      refine ⟨[], p, l, e, rfl, hp, ?_, ?_, ?_⟩
      · simp [hn, hkey, hk]
      · simp [hk]
      · rw [List.eraseP_cons_of_pos (by simpa using hk)]
        exact hrest
    · have hnk : n.key ≠ k := by rwa [hkey]
      rcases ih with ⟨hl, hes⟩ | ⟨l₁, q, l₂, f, rfl, hq, hl, hes, hout⟩
      · left
        rw [List.find?_cons_of_neg (by simpa [hn] using hnk),
          List.find?_cons_of_neg (by simpa using hk)]
        exact ⟨hl, hes⟩
      · right
        refine ⟨p :: l₁, q, l₂, f, rfl, hq, ?_, ?_, ?_⟩
        · rw [List.find?_cons_of_neg (by simpa [hn] using hnk)]
          exact hl
        · rw [List.find?_cons_of_neg (by simpa using hk)]
          exact hes
        · rw [List.eraseP_cons_of_neg (by simpa using hk)]
          exact .cons hp hout

/-- A descriptor and a page with a sum in an `int`. -/
def Fits (fd page : ℤ) : Prop := 0 ≤ fd ∧ 0 ≤ page ∧ fd + page < 2 ^ 31

instance : Decidable (Fits fd page) := inferInstanceAs (Decidable (_ ∧ _))

/-- The chains in memory are the lists of the table. -/
structure Represents (t : HashChains) (m : HashTable) (chain : ℤ → List ℕ) : Prop where
  pos : 1 ≤ t.bucketNum
  bucketNum : t.bucketNum = m.bucketNum
  chains : Chains t.heads t.node chain
  holds : ∀ b, List.Forall₂ (Holds t.node) (chain b) (m.bucket b)
  bound : ∀ b, (chain b).length ≤ t.inserted
  hashed : ∀ b, ∀ e ∈ m.bucket b, Fits e.fd e.page ∧ m.hash e.fd e.page = b

theorem hash_eq (h : Fits fd page) : hash b fd page = some ((fd + page).tmod b) := by
  obtain ⟨hfd, hpage, hlt⟩ := h
  have hint : IsInt32 (fd + page) := ⟨by omega, hlt⟩
  rw [hash, checkInt, if_pos hint, Option.map_some]

theorem tmod_mem (h : Fits fd page) (hb : 1 ≤ b) :
    0 ≤ (fd + page).tmod b ∧ (fd + page).tmod b < b := by
  obtain ⟨hfd, hpage, -⟩ := h
  exact ⟨Int.tmod_nonneg b (by omega), Int.tmod_lt_of_pos _ (by omega)⟩

theorem Represents.bucket_eq (h : Represents t m chain) (hf : Fits fd page) :
    t.bucket fd page = some (m.hash fd page) := by
  rw [bucket, hash_eq hf, Option.bind_some, if_pos (tmod_mem hf h.pos), HashTable.hash, h.bucketNum]

theorem Represents.lookup_eq (h : Represents t m chain) (hf : Fits fd page) :
    t.lookup fd page = some (m.hash fd page, (chain (m.hash fd page)).find? fun p =>
      (t.node p).map HashNode.key = some (fd, page)) := by
  simp [lookup, h.bucket_eq hf, walk_eq (h.chains.linked _) (h.bound _)]

/-- `find` answers as the table does. -/
theorem Represents.find_eq (h : Represents t m chain) (hf : Fits fd page) :
    t.find fd page = some ((m.find fd page).elim (-1) fun slot => (slot : ℤ)) := by
  rw [find, h.lookup_eq hf, HashTable.find]
  rcases locate (h.holds (m.hash fd page)) (fd, page) with
    ⟨hl, hes⟩ | ⟨l₁, p, l₂, e, -, ⟨n, hn, -, hslot⟩, hl, hes, -⟩
  · simp only [hl, hes, Option.bind_eq_bind, Option.bind_some, Option.map_none, Option.elim]
  · simp only [hl, hes, Option.bind_eq_bind, Option.bind_some, Option.map_some, Option.elim, hn,
      hslot]

/-! ### Insertions -/

/-- An address that is not in use is in no chain. -/
theorem not_mem_of_free (h : Chains t.heads t.node chain) (ha : t.node address = none) (b : ℤ) :
    address ∉ chain b := by
  intro hmem
  obtain ⟨n, hn⟩ := (h.linked b).allocated hmem
  rw [ha] at hn
  cases hn

/-- An entry at an address that is not in use goes before the head. -/
theorem pushFront_ok (b fd page slot : ℤ) (h : Chains t.heads t.node chain)
    (ha : t.node address = none) :
    ∃ t', t.pushFront b fd page slot address = some t' ∧ t'.bucketNum = t.bucketNum ∧
      t'.inserted = t.inserted + 1 ∧
      Chains t'.heads t'.node (Function.update chain b (address :: chain b)) ∧
      (∀ q, q ≠ address → (t'.node q).map HashNode.content = (t.node q).map HashNode.content) ∧
      (t'.node address).map HashNode.content = some ((fd, page), slot) := by
  have hfresh := not_mem_of_free h ha
  cases hhead : t.heads b with
  | none =>
    refine ⟨{ t with
      heads := Function.update t.heads b (some address)
      node := Function.update t.node address (some ⟨fd, page, slot, none, none⟩)
      inserted := t.inserted + 1 }, by simp [pushFront, hhead], rfl, rfl, ?_, ?_, ?_⟩
    · apply h.push hfresh (Function.update_self ..) hhead.symm
      · intro q f hq
        rw [hhead] at hq
        cases hq
      · exact fun x hx _ => Function.update_of_ne hx ..
    · intro q hq
      simp [hq]
    · simp [HashNode.content, HashNode.key]
  | some p =>
    have hlink := h.linked b
    rw [hhead] at hlink
    obtain ⟨n, l, hl, hn, -⟩ := hlink.pop
    have hp : p ≠ address := ne_of_mem_of_not_mem (by simp [hl]) (hfresh b)
    have hn' : Function.update t.node address (some ⟨fd, page, slot, none, some p⟩) p = some n := by
      rw [Function.update_of_ne hp]
      exact hn
    have hcontent := map_update hn' (unlinked_content.withPrev n (some address))
    refine ⟨{ t with
      heads := Function.update t.heads b (some address)
      node := Function.update (Function.update t.node address (some ⟨fd, page, slot, none, some p⟩))
        p (some (Links.withPrev n (some address)))
      inserted := t.inserted + 1 }, by simp [pushFront, hhead, setPrev_some hn'], rfl, rfl, ?_, ?_,
      ?_⟩
    · apply h.push (e := ⟨fd, page, slot, none, some p⟩) hfresh ?_ hhead.symm
      · intro q f hq hf
        obtain rfl := Option.some.inj (hhead.symm.trans hq)
        obtain rfl := Option.some.inj (hn.symm.trans hf)
        exact ⟨_, Function.update_self .., rfl, rfl⟩
      · intro x hx hxp
        have hne : x ≠ p := by
          rintro rfl
          exact hxp hhead
        dsimp only
        rw [Function.update_of_ne hne, Function.update_of_ne hx]
      · dsimp only
        rw [Function.update_of_ne hp.symm, Function.update_self]
    · intro q hq
      rw [hcontent q]
      simp [hq]
    · rw [hcontent address]
      simp [HashNode.content, HashNode.key]

theorem hashed_insert {slot : ℕ} (hf : Fits fd page)
    (h : ∀ b, ∀ e ∈ m.bucket b, Fits e.fd e.page ∧ m.hash e.fd e.page = b) :
    ∀ b, ∀ e ∈ (m.insert fd page slot).bucket b,
      Fits e.fd e.page ∧ (m.insert fd page slot).hash e.fd e.page = b := by
  intro b e he
  rw [HashTable.hash_insert]
  unfold HashTable.insert at he
  split at he
  · by_cases hb : b = m.hash fd page
    · subst hb
      simp only [Function.update_self] at he
      rcases List.mem_cons.mp he with rfl | he
      · exact ⟨hf, rfl⟩
      · exact h _ e he
    · simp only [Function.update_of_ne hb] at he
      exact h b e he
  · exact h b e he

/-- `insert` does what it does to the table. -/
theorem Represents.insert (h : Represents t m chain) (hf : Fits fd page) (slot : ℕ)
    (ha : t.node address = none) :
    ∃ t' chain', t.insert fd page slot address = some t' ∧
      Represents t' (m.insert fd page slot) chain' := by
  cases hm : m.find fd page with
  | some s =>
    have hfind : t.find fd page = some (s : ℤ) := by simp [h.find_eq hf, hm]
    have hexist : (s : ℤ) ≠ -1 := by omega
    have hsame : m.insert fd page slot = m := by simp [HashTable.insert, hm]
    refine ⟨t, chain, by simp [HashChains.insert, hfind, hexist], ?_⟩
    rw [hsame]
    exact h
  | none =>
    have hfind : t.find fd page = some (-1) := by simp [h.find_eq hf, hm]
    obtain ⟨t', hpush, hnum, hins, hchains, hother, hself⟩ :=
      pushFront_ok (m.hash fd page) fd page slot h.chains ha
    refine ⟨t', Function.update chain (m.hash fd page) (address :: chain (m.hash fd page)),
      by simpa [HashChains.insert, hfind, h.bucket_eq hf] using hpush, ?_⟩
    have hbucket : (m.insert fd page slot).bucket = Function.update m.bucket (m.hash fd page)
        (⟨fd, page, slot⟩ :: m.bucket (m.hash fd page)) := by
      simp [HashTable.insert, hm]
    have hkept : ∀ b, List.Forall₂ (Holds t'.node) (chain b) (m.bucket b) := by
      intro b
      apply holds_frame (h.holds b)
      intro q hq
      exact hother q (ne_of_mem_of_not_mem hq (not_mem_of_free h.chains ha b))
    refine ⟨?_, ?_, hchains, ?_, ?_, hashed_insert hf h.hashed⟩
    · rw [hnum]
      exact h.pos
    · rw [hnum, HashTable.bucketNum_insert]
      exact h.bucketNum
    · intro b
      rw [hbucket]
      by_cases hb : b = m.hash fd page
      · subst hb
        rw [Function.update_self, Function.update_self]
        exact .cons (holds_iff.mpr hself) (hkept _)
      · rw [Function.update_of_ne hb, Function.update_of_ne hb]
        exact hkept b
    · intro b
      rw [hins]
      by_cases hb : b = m.hash fd page
      · subst hb
        rw [Function.update_self, List.length_cons]
        exact Nat.succ_le_succ (h.bound _)
      · rw [Function.update_of_ne hb]
        exact (h.bound b).trans (Nat.le_succ _)

/-! ### Removals -/

theorem hashed_remove (h : ∀ b, ∀ e ∈ m.bucket b, Fits e.fd e.page ∧ m.hash e.fd e.page = b) :
    ∀ b, ∀ e ∈ (m.remove fd page).bucket b,
      Fits e.fd e.page ∧ (m.remove fd page).hash e.fd e.page = b := by
  intro b e he
  rw [HashTable.hash_remove]
  by_cases hb : b = m.hash fd page
  · subst hb
    simp only [HashTable.remove, Function.update_self] at he
    exact h _ e (List.mem_of_mem_eraseP he)
  · simp only [HashTable.remove, Function.update_of_ne hb] at he
    exact h b e he

theorem remove_absent (h : (m.bucket (m.hash fd page)).find? (fun e => e.key = (fd, page)) = none) :
    m.remove fd page = m := by
  have hnone : ∀ e ∈ m.bucket (m.hash fd page), ¬ decide (e.key = (fd, page)) = true :=
    List.find?_eq_none.mp h
  have hbucket : (m.remove fd page).bucket = m.bucket := by
    simp only [HashTable.remove, List.eraseP_of_forall_not hnone, Function.update_eq_self]
  cases m
  simp only [HashTable.remove, HashTable.mk.injEq, true_and] at hbucket ⊢
  exact hbucket

/-- `remove` does what it does to the table. -/
theorem Represents.remove (h : Represents t m chain) (hf : Fits fd page) :
    ∃ t' chain', t.remove fd page = some t' ∧ Represents t' (m.remove fd page) chain' := by
  have hfind := h.find_eq hf
  rcases locate (h.holds (m.hash fd page)) (fd, page) with
    ⟨-, hes⟩ | ⟨l₁, p, l₂, e, hl, -, hlook, hes, hrest⟩
  · have hnone : m.find fd page = none := by simp [HashTable.find, hes]
    refine ⟨t, chain, by simp [HashChains.remove, hfind, hnone], ?_⟩
    rw [remove_absent hes]
    exact h
  · have hsome : m.find fd page = some e.slot := by simp [HashTable.find, hes]
    have hexist : (e.slot : ℤ) ≠ -1 := by omega
    obtain ⟨n, ⟨heads, node⟩, hn, hu, hchains, -, hcontent⟩ := h.chains.unlink hl unlinked_content
    have hnodup := h.chains.nodup (m.hash fd page)
    have hkept : ∀ q, q ≠ p → (Function.update node p none q).map HashNode.content =
        (t.node q).map HashNode.content := by
      intro q hq
      rw [Function.update_of_ne hq]
      exact hcontent q hq
    refine ⟨{ t with heads, node := Function.update node p none },
      Function.update chain (m.hash fd page) (l₁ ++ l₂), ?_, ?_⟩
    · have hlookup := h.lookup_eq hf
      rw [hlook] at hlookup
      simp [HashChains.remove, hfind, hsome, hexist, hlookup, hn, hu]
    · have hp : p ∉ l₁ ++ l₂ := by
        rw [hl] at hnodup
        exact (List.nodup_middle.mp hnodup).notMem
      refine ⟨h.pos, h.bucketNum, hchains, ?_, ?_, hashed_remove h.hashed⟩
      · intro b
        by_cases hb : b = m.hash fd page
        · subst hb
          rw [Function.update_self]
          simp only [HashTable.remove, Function.update_self]
          exact holds_frame hrest fun q hq => hkept q (ne_of_mem_of_not_mem hq hp)
        · rw [Function.update_of_ne hb]
          simp only [HashTable.remove, Function.update_of_ne hb]
          apply holds_frame (h.holds b)
          intro q hq
          apply hkept
          rintro rfl
          exact hb (h.chains.apart _ _ q hq (by simp [hl]))
      · intro b
        have hbound := h.bound b
        by_cases hb : b = m.hash fd page
        · subst hb
          rw [Function.update_self]
          simp only [hl, List.length_append, List.length_cons] at hbound ⊢
          omega
        · rw [Function.update_of_ne hb]
          exact hbound

/-! ### Sequences of calls -/

theorem represents_new {bucketNum : ℤ} (h : 1 ≤ bucketNum) :
    Represents (new bucketNum) (HashTable.new bucketNum.toNat) fun _ => [] where
  pos := h
  bucketNum := by simp [new, HashTable.new]; omega
  chains := ⟨fun _ => rfl, fun _ => List.nodup_nil, fun _ _ _ hp => by cases hp⟩
  holds _ := .nil
  bound _ := Nat.zero_le _
  hashed _ _ he := by cases he

/-- The slot that a call inserts for the pair `k`. -/
def inserts (k : ℤ × ℤ) : HashCall → Option ℤ
  | .insert fd page slot _ => if (fd, page) = k then some slot else none
  | _ => none

def removes (k : ℤ × ℤ) : HashCall → Bool
  | .remove fd page => (fd, page) = k
  | _ => false

/-- The slot of the first insertion of the pair `k` since its last removal; `past` has the latest
call first. -/
def firstInsert (past : List HashCall) (k : ℤ × ℤ) : Option ℤ :=
  (past.takeWhile fun c => !removes k c).reverse.findSome? (inserts k)

theorem firstInsert_cons_removes {c : HashCall} {past : List HashCall} {k : ℤ × ℤ}
    (h : removes k c = true) : firstInsert (c :: past) k = none := by
  simp [firstInsert, h]

theorem firstInsert_cons {c : HashCall} {past : List HashCall} {k : ℤ × ℤ}
    (h : removes k c = false) :
    firstInsert (c :: past) k = (firstInsert past k).or (inserts k c) := by
  simp [firstInsert, h, List.findSome?_append]

/-- The table with the calls made, latest first. -/
structure Run where
  table : HashChains
  past : List HashCall

def Run.init (bucketNum : ℤ) : Run := ⟨new bucketNum, []⟩

def Run.step (s : Run) (c : HashCall) : Option Run :=
  (s.table.call c).map fun t => ⟨t, c :: s.past⟩

/-- The calls in question: the pair fits, the slot is one, and `new` gives memory not in use. -/
def Allowed (s : Run) : HashCall → Prop
  | .find fd page => Fits fd page
  | .insert fd page slot address => Fits fd page ∧ 0 ≤ slot ∧ s.table.node address = none
  | .remove fd page => Fits fd page

instance (s : Run) (c : HashCall) : Decidable (Allowed s c) :=
  match c with
  | .find fd page => inferInstanceAs (Decidable (Fits fd page))
  | .insert .. => inferInstanceAs (Decidable (_ ∧ _ ∧ _))
  | .remove fd page => inferInstanceAs (Decidable (Fits fd page))

/-- The table holds for each pair what the calls made leave to it. -/
def Remembers (m : HashTable) (past : List HashCall) : Prop :=
  ∀ fd page, (m.find fd page).map (fun slot => (slot : ℤ)) = firstInsert past (fd, page)

/-- One bucket in memory: `l` are the addresses of its entries, from the head on. -/
structure BucketChain (t : HashChains) (b : ℤ) (l : List ℕ) : Prop where
  linked : Linked t.node none (t.heads b) l
  acyclic : l.Nodup
  hashed : ∀ p ∈ l, ∃ n, t.node p = some n ∧ hash t.bucketNum n.fd n.page = some b
  distinct : (l.map fun p => (t.node p).map HashNode.key).Nodup
  back : ∀ l₁ q p l₂, l = l₁ ++ q :: p :: l₂ → ∃ n, t.node p = some n ∧ n.prev = some q

theorem Represents.bucketChain (h : Represents t m chain) (b : ℤ) : BucketChain t b (chain b) where
  linked := h.chains.linked b
  acyclic := h.chains.nodup b
  hashed p hp := by
    obtain ⟨e, he, n, hn, hkey, -⟩ := holds_mem (h.holds b) hp
    obtain ⟨hf, hb⟩ := h.hashed b e he
    obtain ⟨hfd, hpage⟩ := Prod.mk.inj hkey
    refine ⟨n, hn, ?_⟩
    rw [hfd, hpage, hash_eq hf, h.bucketNum]
    exact congrArg some hb
  distinct := by
    rw [holds_keys (h.holds b), ← List.map_map]
    exact (m.nodup b).map (Option.some_injective _)
  back l₁ q p l₂ hl := by
    have hlink := h.chains.linked b
    rw [hl] at hlink
    obtain ⟨-, n, -, hn, hback, -⟩ := hlink.split
    exact ⟨n, hn, hback⟩

/-- A call is defined and does to what is remembered what it should. -/
theorem Represents.step {s : Run} {c : HashCall} (h : Represents s.table m chain)
    (hm : Remembers m s.past) (hc : Allowed s c) :
    ∃ s' m' chain', s.step c = some s' ∧ Represents s'.table m' chain' ∧ Remembers m' s'.past := by
  cases c with
  | find fd page =>
    have hf : Fits fd page := hc
    refine ⟨⟨s.table, .find fd page :: s.past⟩, m, chain, ?_, h, ?_⟩
    · simp [Run.step, call, h.find_eq hf]
    · intro fd' page'
      rw [firstInsert_cons rfl, ← hm fd' page']
      simp [inserts]
  | insert fd page slot address =>
    obtain ⟨hf, hslot, ha⟩ := hc
    obtain ⟨slot, rfl⟩ := Int.eq_ofNat_of_zero_le hslot
    obtain ⟨t', chain', ht, hrep⟩ := h.insert hf slot ha
    refine ⟨⟨t', .insert fd page slot address :: s.past⟩, _, chain', ?_, hrep, ?_⟩
    · simp [Run.step, call, ht]
    · intro fd' page'
      rw [firstInsert_cons rfl, ← hm fd' page']
      by_cases hk : (fd', page') = (fd, page)
      · obtain ⟨rfl, rfl⟩ := Prod.mk.inj hk
        cases hfind : m.find fd' page' with
        | none => simp [HashTable.find_insert_self hfind, inserts]
        | some slot' => simp [HashTable.insert, hfind]
      · rw [HashTable.find_insert_of_ne hk]
        simp [inserts, Ne.symm hk]
  | remove fd page =>
    have hf : Fits fd page := hc
    obtain ⟨t', chain', ht, hrep⟩ := h.remove hf
    refine ⟨⟨t', .remove fd page :: s.past⟩, _, chain', ?_, hrep, ?_⟩
    · simp [Run.step, call, ht]
    · intro fd' page'
      by_cases hk : (fd', page') = (fd, page)
      · obtain ⟨rfl, rfl⟩ := Prod.mk.inj hk
        rw [firstInsert_cons_removes (by simp [removes]), HashTable.find_remove_self]
        rfl
      · rw [firstInsert_cons (by simpa [removes] using Ne.symm hk), ← hm fd' page',
          HashTable.find_remove_of_ne hk]
        simp [inserts]

/-- The table is the map that the calls make, for any number of buckets and any collisions. -/
theorem run_refines_map {bucketNum : ℤ} {calls : List HashCall} {s : Run} (hb : 1 ≤ bucketNum)
    (hr : MTr (Guarded Allowed Run.step) (Run.init bucketNum) calls s) :
    (∀ fd page, Fits fd page →
      s.table.find fd page = some ((firstInsert s.past (fd, page)).getD (-1))) ∧
    (∀ b, ∃ l, BucketChain s.table b l) ∧ ∀ c, Allowed s c → ∃ s', s.step c = some s' := by
  have hinv : TrInv (Guarded Allowed Run.step) fun s =>
      ∃ m chain, Represents s.table m chain ∧ Remembers m s.past := by
    rintro s c s' ⟨hc, hs⟩ ⟨m, chain, hrep, hm⟩
    obtain ⟨u, m', chain', hu, hrep', hm'⟩ := hrep.step hm hc
    obtain rfl := Option.some.inj (hs.symm.trans hu)
    exact ⟨m', chain', hrep', hm'⟩
  obtain ⟨m, chain, hrep, hm⟩ := mTr_trInv hinv hr
    ⟨_, _, represents_new hb, fun fd page => by simp [Run.init, firstInsert]⟩
  refine ⟨?_, fun b => ⟨chain b, hrep.bucketChain b⟩, ?_⟩
  · intro fd page hf
    rw [hrep.find_eq hf, ← hm fd page]
    cases m.find fd page <;> rfl
  · intro c hc
    obtain ⟨s', -, -, hs, -⟩ := hrep.step hm hc
    exact ⟨s', hs⟩

/-- Three pairs in one bucket; the head is removed, then the tail, and both addresses are used
again. -/
theorem run_refines_map_collisions : ∃ s,
    MTr (Guarded Allowed Run.step) (Run.init 2) [.insert 3 1 10 0, .insert 3 3 11 1,
      .insert 3 5 12 2, .remove 3 5, .remove 3 1, .insert 3 7 13 2, .insert 3 1 14 0,
      .insert 3 1 15 4, .remove 3 3] s ∧
    s.table.find 3 1 = some 14 ∧ ∀ b, ∃ l, BucketChain s.table b l := by
  have hrun : (execGuarded Allowed Run.step (Run.init 2) [.insert 3 1 10 0, .insert 3 3 11 1,
      .insert 3 5 12 2, .remove 3 5, .remove 3 1, .insert 3 7 13 2, .insert 3 1 14 0,
      .insert 3 1 15 4, .remove 3 3]).any
        (fun s => firstInsert s.past (3, 1) = some 14) = true := by
    decide +kernel
  obtain ⟨s, hr, hs⟩ := exists_mTr_of_execGuarded hrun
  obtain ⟨hfind, hchain, -⟩ := run_refines_map (by decide) hr
  refine ⟨s, hr, ?_, hchain⟩
  rw [hfind 3 1 (by decide), of_decide_eq_true hs]
  rfl

end HashChains

end AlphaDb.Io
