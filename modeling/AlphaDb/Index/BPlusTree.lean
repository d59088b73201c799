import AlphaDb.Index.IndexFormat
import Mathlib.Logic.Function.Basic

/-! The B+ tree (`index/b+tree/b_plus_tree`, `node`, `leaf_node`, `internal_node`). The entries of a
node are those of its page, whichever object stands for it. A call gives nothing where the source
throws, fails an assertion or is undefined: at a null or uninitialised pointer, at a position
behind the entries, at a node of the other class, at the end of a function without a `return`. -/
namespace AlphaDb.Index

open Table (Rid)

/-- The member `next_`, which no constructor sets. -/
inductive Link
  | uninit
  | null
  | node (a : ℕ)
deriving DecidableEq

structure Node where
  pageId : Rid
  parent : Option ℕ
  next : Link
deriving DecidableEq

structure Page (K : Type) where
  isLeaf : Bool
  entries : List (Entry K)

/-- The tree with its node objects by address and its pages by number. -/
structure BPlusTree (K : Type) where
  height : ℤ
  root : Option ℕ
  nodes : ℕ → Option Node
  /-- The address of the next new node. -/
  heap : ℕ
  pages : ℤ → Option (Page K)
  /-- The next page that `allocate_page` gives. -/
  nextPage : ℤ
  /-- `num_pages` in the header of the handle. -/
  numPages : ℤ

namespace BPlusTree

variable {K : Type}

/-- The constructor on a header of height 0: `height_` has what its memory held. -/
def empty (height numPages : ℤ) : BPlusTree K where
  height := height
  root := none
  nodes _ := none
  heap := 0
  pages _ := none
  nextPage := 1
  numPages := numPages

def fanout : ℕ := 0xFFFF

def minSize (leaf : Bool) : ℕ :=
  if leaf then if fanout % 2 = 0 then (fanout + 1) / 2 else fanout / 2 else (fanout + 1) / 2

def maxSize (leaf : Bool) : ℕ := if leaf then fanout - 1 else fanout

/-- The entries of node `a`, used as a leaf or as an internal node. -/
def entries (leaf : Bool) (a : ℕ) (t : BPlusTree K) : Option (List (Entry K)) := do
  let n ← t.nodes a
  let page ← t.pages n.pageId.page
  if page.isLeaf = leaf then some page.entries else none

theorem entries_eq_some {leaf : Bool} {a : ℕ} {t : BPlusTree K} {es : List (Entry K)} :
    t.entries leaf a = some es ↔
      ∃ n, t.nodes a = some n ∧ t.pages n.pageId.page = some ⟨leaf, es⟩ := by
  constructor
  · intro h
    obtain ⟨n, hn, h⟩ := Option.bind_eq_some_iff.mp h
    obtain ⟨⟨isLeaf, es'⟩, hp, h⟩ := Option.bind_eq_some_iff.mp h
    split at h
    · rename_i hleaf
      cases h
      cases hleaf
      exact ⟨n, hn, hp⟩
    · cases h
  · rintro ⟨n, hn, hp⟩
    simp [entries, hn, hp]

def setEntries (leaf : Bool) (a : ℕ) (es : List (Entry K)) (t : BPlusTree K) :
    Option (BPlusTree K) := do
  let n ← t.nodes a
  some { t with pages := Function.update t.pages n.pageId.page (some ⟨leaf, es⟩) }

def setNode (a : ℕ) (n : Option Node) (t : BPlusTree K) : BPlusTree K :=
  { t with nodes := Function.update t.nodes a n }

def setParent (a : ℕ) (parent : Option ℕ) (t : BPlusTree K) : Option (BPlusTree K) :=
  (t.nodes a).map fun n => t.setNode a (some { n with parent })

/-- `new node(parent, id, tree)`. -/
def newNode (parent : Option ℕ) (id : Rid) (t : BPlusTree K) : ℕ × BPlusTree K :=
  (t.heap, { t.setNode t.heap (some ⟨id, parent, .uninit⟩) with heap := t.heap + 1 })

/-- `allocate_page` and a node without entries on the new page. -/
def newPageNode (leaf : Bool) (parent : Option ℕ) (t : BPlusTree K) : ℕ × BPlusTree K :=
  newNode parent ⟨t.nextPage, -1⟩ { t with
    pages := Function.update t.pages t.nextPage (some ⟨leaf, []⟩)
    nextPage := t.nextPage + 1 }

theorem entries_newPageNode {leaf leaf' : Bool} {n : ℕ} {parent : Option ℕ} {t : BPlusTree K}
    {es : List (Entry K)}
    (he : (t.newPageNode leaf' parent).2.entries leaf n = some es) :
    es = [] ∨ t.entries leaf n = some es := by
  obtain ⟨node, hn, hp⟩ := entries_eq_some.mp he
  simp only [newPageNode, newNode, setNode] at hn hp
  by_cases hpage : node.pageId.page = t.nextPage
  · rw [hpage, Function.update_self] at hp
    cases hp
    exact .inl rfl
  · rw [Function.update_of_ne hpage] at hp
    by_cases hheap : n = t.heap
    · subst hheap
      rw [Function.update_self] at hn
      cases hn
      exact absurd rfl hpage
    · rw [Function.update_of_ne hheap] at hn
      exact .inr (entries_eq_some.mpr ⟨node, hn, hp⟩)

/-- `index_handle::dispose_page` with its assertion. -/
def disposePage (page : ℤ) (t : BPlusTree K) : Option (BPlusTree K) := do
  let _ ← t.pages page
  if 0 < t.numPages - 1 then
    some { t with pages := Function.update t.pages page none, numPages := t.numPages - 1 }
  else none

variable [LinearOrder K]

/-- The entries `es` inserted one after the other into `rs`. -/
def insertAllInto (rs es : List (Entry K)) : List (Entry K) :=
  es.foldl (fun rs e => IndexFormat.insert e.key e.id rs) rs

/-- The loop of `move_half_to` that shortens the node: `i` goes up. -/
def popBack (min i : ℕ) (es : List (Entry K)) : Option (List (Entry K)) :=
  if min ≤ i then
    if h : i < es.length then popBack min (i + 1) (IndexFormat.remove es[i].key es[i].id es).2
    else none
  else some es
termination_by es.length - i
decreasing_by
  have hle : (IndexFormat.remove es[i].key es[i].id es).2.length ≤ es.length := by
    unfold IndexFormat.remove
    split
    · exact List.length_eraseP_le
    · exact le_rfl
  omega

def moveHalfTo (leaf : Bool) (n receiver : ℕ) (t : BPlusTree K) : Option (BPlusTree K) := do
  let es ← t.entries leaf n
  let rs ← t.entries leaf receiver
  let t ← t.setEntries leaf receiver (insertAllInto rs (es.drop (minSize leaf)))
  let es ← if es = [] then none else popBack (minSize leaf) (es.length - 1) es
  t.setEntries leaf n es

/-- `insert` on the page of a node. -/
def insertEntry (leaf : Bool) (a : ℕ) (key : WithBot K) (id : Rid) (t : BPlusTree K) :
    Option (BPlusTree K) := do
  let es ← t.entries leaf a
  t.setEntries leaf a (IndexFormat.insert key id es)

def removeEntryAt (leaf : Bool) (a : ℕ) (key : WithBot K) (id : Rid) (t : BPlusTree K) :
    Option (Bool × BPlusTree K) := do
  let es ← t.entries leaf a
  let t ← t.setEntries leaf a (IndexFormat.remove key id es).2
  some ((IndexFormat.remove key id es).1, t)

end BPlusTree

/-! Leaf nodes. -/
namespace LeafNode

open BPlusTree

variable {K : Type} [LinearOrder K]

/-- `set_next`: the last entry loses its record. -/
def setNext (l : ℕ) (next : Link) (t : BPlusTree K) : Option (BPlusTree K) :=
  match next with
  | .node a => do
    let n ← t.nodes a
    let es ← t.entries true l
    let last ← es.getLast?
    let t ← t.setEntries true l (es.dropLast ++ [{ last with id := n.pageId }])
    let leaf ← t.nodes l
    some (t.setNode l (some { leaf with next }))
  | _ => none

def insert (l : ℕ) (key : WithBot K) (id : Rid) (t : BPlusTree K) : Option (BPlusTree K) :=
  insertEntry true l key id t

/-- `lookup`: the null rid for a key that is not there. -/
def lookup (l : ℕ) (key : WithBot K) (t : BPlusTree K) : Option Rid :=
  (t.entries true l).map fun es => (IndexFormat.search key es).getD Rid.null

def remove (l : ℕ) (key : WithBot K) (id : Rid) (t : BPlusTree K) : Option (Bool × BPlusTree K) :=
  removeEntryAt true l key id t

def firstKey (l : ℕ) (t : BPlusTree K) : Option (WithBot K) := do
  let es ← t.entries true l
  es.head?.map Entry.key

def moveHalfTo (l receiver : ℕ) (t : BPlusTree K) : Option (BPlusTree K) :=
  BPlusTree.moveHalfTo true l receiver t

def moveAllTo (l receiver : ℕ) (_index : ℕ) (t : BPlusTree K) : Option (BPlusTree K) := do
  let es ← t.entries true l
  let rs ← t.entries true receiver
  let t ← t.setEntries true receiver (insertAllInto rs es)
  let n ← t.nodes l
  let t ← setNext receiver n.next t
  t.disposePage n.pageId.page

def moveFirstToEndOf (l receiver : ℕ) (t : BPlusTree K) : Option (BPlusTree K) := do
  let es ← t.entries true l
  let e ← es.head?
  let (_, t) ← remove l e.key e.id t
  insert receiver e.key e.id t

def moveLastToFrontOf (l receiver : ℕ) (_index : ℕ) (t : BPlusTree K) : Option (BPlusTree K) := do
  let es ← t.entries true l
  let e ← es.getLast?
  let (_, t) ← remove l e.key e.id t
  insert receiver e.key e.id t

end LeafNode

/-! Internal nodes. -/
namespace InternalNode

open BPlusTree

variable {K : Type} [LinearOrder K]

def keyAt (a index : ℕ) (t : BPlusTree K) : Option (WithBot K) := do
  let es ← t.entries false a
  es[index]?.map Entry.key

def setKeyAt (a index : ℕ) (key : WithBot K) (t : BPlusTree K) : Option (BPlusTree K) := do
  let es ← t.entries false a
  let e ← es[index]?
  t.setEntries false a (es.set index { e with key })

def remove (a index : ℕ) (t : BPlusTree K) : Option (BPlusTree K) := do
  let es ← t.entries false a
  let e ← es[index]?
  let (_, t) ← removeEntryAt false a e.key e.id t
  some t

/-- The child at `index` as a new object, without a parent. -/
def child (a index : ℕ) (t : BPlusTree K) : Option (ℕ × BPlusTree K) := do
  let es ← t.entries false a
  let e ← es[index]?
  some (t.newNode none e.id)

def lookup (arrayLe : WithBot K → Bool) (a : ℕ) (key : WithBot K) (t : BPlusTree K) :
    Option (ℕ × BPlusTree K) := do
  let es ← t.entries false a
  let idx ← IndexFormat.findInInternal arrayLe key es
  child a idx t

def neighbor (a index : ℕ) (t : BPlusTree K) : Option (ℕ × BPlusTree K) := child a index t

def removeAndReturnOnlyChild (a : ℕ) (t : BPlusTree K) : Option (ℕ × BPlusTree K) := child a 0 t

def populateNewRoot (a old : ℕ) (key : WithBot K) (new : ℕ) (t : BPlusTree K) :
    Option (BPlusTree K) := do
  let n ← t.nodes old
  let n₁ ← t.nodes new
  let t ← insertEntry false a ⊥ n.pageId t
  let t ← insertEntry false a key n₁.pageId t
  some { t with height := t.height + 1 }

/-- `insert_node_after` looks for a position and inserts nothing. -/
def insertNodeAfter (a _old : ℕ) (_key : WithBot K) (_new : ℕ) (t : BPlusTree K) : Option ℕ :=
  (t.entries false a).map List.length

def replaceAndReturnFirstKey (a : ℕ) (t : BPlusTree K) : Option (WithBot K × BPlusTree K) := do
  let key ← keyAt a 0 t
  let t ← setKeyAt a 0 ⊥ t
  some (key, t)

def moveHalfTo (a receiver : ℕ) (t : BPlusTree K) : Option (BPlusTree K) :=
  BPlusTree.moveHalfTo false a receiver t

def moveAllTo (a receiver index : ℕ) (t : BPlusTree K) : Option (BPlusTree K) := do
  let n ← t.nodes a
  let parent ← n.parent
  let key ← keyAt parent index t
  let t ← setKeyAt a 0 key t
  let es ← t.entries false a
  let rs ← t.entries false receiver
  t.setEntries false receiver (insertAllInto rs es)

def moveFirstToEndOf (a receiver : ℕ) (t : BPlusTree K) : Option (BPlusTree K) := do
  let es ← t.entries false a
  let e ← es.head?
  let t ← insertEntry false receiver e.key e.id t
  let (_, t) ← removeEntryAt false a e.key e.id t
  let n ← t.nodes a
  let parent ← n.parent
  setKeyAt parent 1 (← keyAt a 0 t) t

def moveLastToFrontOf (a receiver index : ℕ) (t : BPlusTree K) : Option (BPlusTree K) := do
  let es ← t.entries false a
  let e ← es.getLast?
  let (_, t) ← removeEntryAt false a e.key e.id t
  let n ← t.nodes a
  let parent ← n.parent
  let t ← setKeyAt receiver 0 (← keyAt parent index t) t
  let t ← insertEntry false receiver e.key e.id t
  setKeyAt parent index ⊥ t

end InternalNode

namespace BPlusTree

variable {K : Type} [LinearOrder K]

/-- The number of rounds of `for(size_t i = 0; i < height_; i++)`. -/
def rounds (height : ℤ) : ℕ := (if 0 ≤ height then height else 2 ^ 64 + height).toNat

/-- The loop of `find_leaf_node` and its kin with `r` rounds to go; `down` is the step to a child.
-/
def descend (down : ℕ → BPlusTree K → Option (ℕ × BPlusTree K)) :
    ℕ → ℕ → BPlusTree K → Option (ℕ × BPlusTree K)
  | 0, _, _ => none
  | r + 1, n, t => do
    let (n, t) ← down n t
    if r = 0 then some (n, t) else descend down r n t

/-- The leaf that a descent with the steps `down` ends in; `none` is the null pointer. -/
def leafBy (down : ℕ → BPlusTree K → Option (ℕ × BPlusTree K)) (t : BPlusTree K) :
    Option (Option ℕ × BPlusTree K) :=
  match t.root with
  | none => some (none, t)
  | some r =>
    if t.height = 1 then some (some r, t)
    else (descend down (rounds t.height) r t).map fun (n, t) => (some n, t)

def findLeafNode (arrayLe : WithBot K → Bool) (k : WithBot K) (t : BPlusTree K) :
    Option (Option ℕ × BPlusTree K) :=
  leafBy (fun n t => InternalNode.lookup arrayLe n k t) t

def findSmallestLeafNode (t : BPlusTree K) : Option (Option ℕ × BPlusTree K) :=
  leafBy (fun n t => InternalNode.child n 0 t) t

def find (arrayLe : WithBot K → Bool) (k : WithBot K) (t : BPlusTree K) :
    Option (Rid × BPlusTree K) := do
  let (l, t) ← findLeafNode arrayLe k t
  let es ← t.entries true (← l)
  let i ← IndexFormat.findInLeaf k es
  if i = -1 then some (Rid.null, t) else es[i.toNat]?.map fun e => (e.id, t)

def split (leaf : Bool) (n : ℕ) (t : BPlusTree K) : Option (ℕ × BPlusTree K) := do
  let node ← t.nodes n
  let (a, t) := t.newPageNode leaf node.parent
  let t ← moveHalfTo leaf n a t
  some (a, t)

/-- `insert_in_parent`. There is no `return` behind a new root. -/
def insertInParent : ℕ → ℕ → WithBot K → ℕ → BPlusTree K → Option (BPlusTree K)
  | 0, _, _, _, _ => none
  | fuel + 1, n, k, n₁, t => do
    let t ←
      if t.root = some n then do
        let (r, t) := t.newPageNode false none
        let t ← setParent n (some r) { t with root := some r }
        let t ← setParent n₁ (some r) t
        InternalNode.populateNewRoot r n k n₁ t
      else some t
    let node ← t.nodes n
    let parent ← node.parent
    let es ← t.entries false parent
    if es.length < maxSize false then do
      let _ ← InternalNode.insertNodeAfter parent n k n₁ t
      some t
    else do
      let (new, t) ← split false parent t
      let (newkey, t) ← InternalNode.replaceAndReturnFirstKey new t
      insertInParent fuel parent newkey new t

def insertInLeaf (l : ℕ) (k : WithBot K) (p : Rid) (t : BPlusTree K) : Option (BPlusTree K) :=
  LeafNode.insert l k p t

/-- `insert`. The height of the new tree is set in a copy of the header. A chain of parents has at
most as many nodes as there are, which bounds the calls of `insert_in_parent`. -/
def insert (arrayLe : WithBot K → Bool) (k : WithBot K) (p : Rid) (t : BPlusTree K) :
    Option (BPlusTree K) :=
  match t.root with
  | none =>
    let (a, t) := t.newPageNode true none
    LeafNode.insert a k p { t with root := some a }
  | some _ => do
    let (l, t) ← findLeafNode arrayLe k t
    let l ← l
    let es ← t.entries true l
    if es.length < maxSize true then insertInLeaf l k p t
    else do
      let (newleaf, t) ← split true l t
      let node ← t.nodes l
      let t ← LeafNode.setNext newleaf node.next t
      let t ← LeafNode.setNext l (.node newleaf) t
      let newkey ← LeafNode.firstKey newleaf t
      insertInParent t.heap l newkey newleaf t

/-- `adjust_root`. `height_` stays as it is. -/
def adjustRoot (t : BPlusTree K) : Option (BPlusTree K) := do
  let r ← t.root
  let n ← t.nodes r
  let page ← t.pages n.pageId.page
  if !page.isLeaf && page.entries.length = 1 then do
    let (a, t) ← InternalNode.removeAndReturnOnlyChild r t
    let t ← setParent a none { t with root := some a }
    some (t.setNode r none)
  else if page.entries.length = 0 then some { t.setNode r none with root := none }
  else some t

/-- `coalesce`, where `up` is `coalesce_or_redistribute` on the parent. -/
def coalesce (up : ℕ → BPlusTree K → Option (BPlusTree K)) (leaf : Bool)
    (neighbor n parent index : ℕ) (t : BPlusTree K) : Option (BPlusTree K) := do
  let (neighbor, n, index) := if index = 0 then (n, neighbor, 1) else (neighbor, n, index)
  let t ← if leaf then LeafNode.moveAllTo n neighbor index t
    else InternalNode.moveAllTo n neighbor index t
  let t ← InternalNode.remove parent index t
  let es ← t.entries false parent
  let t ← if es.length < minSize false then up parent t else some t
  let node ← t.nodes n
  let t ← t.disposePage node.pageId.page
  some (t.setNode n none)

def redistribute (leaf : Bool) (neighbor n index : ℕ) (t : BPlusTree K) : Option (BPlusTree K) :=
  if index ≠ 0 then
    if leaf then LeafNode.moveLastToFrontOf neighbor n index t
    else InternalNode.moveLastToFrontOf neighbor n index t
  else if leaf then LeafNode.moveFirstToEndOf neighbor n t
  else InternalNode.moveFirstToEndOf neighbor n t

/-- `coalesce_or_redistribute`. The place of the node in its parent is taken to be 0. -/
def coalesceOrRedistribute : ℕ → Bool → ℕ → BPlusTree K → Option (BPlusTree K)
  | 0, _, _, _ => none
  | fuel + 1, leaf, n, t => do
    let node ← t.nodes n
    match node.parent with
    | none => adjustRoot t
    | some parent => do
      let index := 0
      let neighborIndex := if index = 0 then 1 else index - 1
      let (neighbor, t) ← InternalNode.neighbor parent neighborIndex t
      let es ← t.entries leaf n
      let ns ← t.entries leaf neighbor
      if es.length + ns.length ≤ maxSize leaf then
        coalesce (coalesceOrRedistribute fuel false) leaf neighbor n parent index t
      else redistribute leaf neighbor n index t

/-- `remove_entry`. `newsize` is the truth value that `leaf_node::remove` returns. -/
def removeEntry (l : ℕ) (k : WithBot K) (p : Rid) (t : BPlusTree K) :
    Option (Bool × BPlusTree K) := do
  if (← LeafNode.lookup l k t) ≠ p then some (false, t)
  else do
    let (removed, t) ← LeafNode.remove l k p t
    let newsize := removed.toNat
    let t ← if newsize < minSize true then coalesceOrRedistribute (t.heap + 1) true l t else some t
    some (true, t)

def remove (arrayLe : WithBot K → Bool) (k : WithBot K) (p : Rid) (t : BPlusTree K) :
    Option (Bool × BPlusTree K) :=
  match t.root with
  | none => some (false, t)
  | some _ => do
    let (l, t) ← findLeafNode arrayLe k t
    removeEntry (← l) k p t

end BPlusTree

end AlphaDb.Index
