import AlphaDb.Index.BPlusTree
import AlphaDb.Io.PinCount

/-! The pins of node pages, taken and given back through the index handle (`index/b+tree/node`,
`index_handle`, and the calls `move_` of `leaf_node` and `internal_node`). -/
namespace AlphaDb.Index

open AlphaDb.Io EStateM BufferManager Cache FileHandle

/-- A tree and its file. The entries of the pages are in the tree. -/
structure IndexFile (K : Type) where
  tree : BPlusTree K
  handle : FileHandle

/-- The calls on an open index. Where the source is undefined, they throw `none`. -/
abbrev NodeOp (K : Type) := EStateM (Option Error) (IndexFile K)

namespace IndexFile

variable {K α : Type}

def onFile (x : FileOp α) : NodeOp K α := fun s =>
  match x s.handle with
  | .ok a t => .ok a { s with handle := t }
  | .error e t => .error (some e) { s with handle := t }

def onTree (f : BPlusTree K → Option (BPlusTree K)) : NodeOp K Unit := fun s =>
  match f s.tree with
  | some t => .ok () { s with tree := t }
  | none => .error none s

/-- `page_id_.page()`. -/
def pageOf (a : ℕ) : NodeOp K ℤ := do
  match (← get).tree.nodes a with
  | some n => return n.pageId.page
  | none => throw none

/-- `index_handle::unpin_page` unpins page 0, whatever the page. -/
def unpinPage (_page : ℤ) : NodeOp K Unit := onFile (FileHandle.unpinPage 0)

def markDirty (page : ℤ) : NodeOp K Unit := onFile (FileHandle.markDirty page)

/-- `index_handle::dispose_page`, with the page count of the index header in the tree. -/
def disposePage (page : ℤ) : NodeOp K Unit := do
  onFile (FileHandle.disposePage page)
  onTree (BPlusTree.disposePage page)

/-- `fetch` is `index_handle::get_this_page`, which has a declaration but no body. -/
def pinNode (fetch : ℤ → FileOp PageHandle) (a : ℕ) : NodeOp K Unit := do
  let _ ← onFile (fetch (← pageOf a))
  return ()

def unpinNode (a : ℕ) : NodeOp K Unit := do
  unpinPage (← pageOf a)

def markDirtyAndUnpinNode (a : ℕ) : NodeOp K Unit := do
  markDirty (← pageOf a)
  unpinNode a

/-- What the calls `move_` share: `work` is done on two pinned nodes. -/
def moveVia (fetch : ℤ → FileOp PageHandle) (work : BPlusTree K → Option (BPlusTree K))
    (a receiver : ℕ) : NodeOp K Unit := do
  pinNode fetch a
  pinNode fetch receiver
  onTree work
  markDirtyAndUnpinNode receiver
  markDirtyAndUnpinNode a

/-- What the tree relies on: a page that is handed out has one more pin, and a call
that throws takes no pins, and gives none back that it has not taken. -/
structure Fetches (fetch : ℤ → FileOp PageHandle) : Prop where
  returns : ∀ {s : FileHandle} {page : ℤ} {ph : PageHandle} {t : FileHandle}, Pooled s →
    fetch page s = .ok ph t → Adds s t (onePin s.fd page)
  throws : ∀ {s : FileHandle} {page : ℤ} {e : Error} {t : FileHandle}, Pooled s →
    fetch page s = .error e t →
      (∀ k, t.bufferManager.cache.pins k = s.bufferManager.cache.pins k) ∧
        e ≠ .pageAlreadyUnpinned

/-- The call of the file, as `pin_page` forwards it. -/
theorem fetches_getThisPage : Fetches getThisPage := by
  constructor
  · intro s page ph t h hg
    obtain ⟨-, -, -, -, hadds⟩ := getThisPage_adds h hg
    exact hadds
  · exact fun h hg => getThisPage_throws h hg

/-- Every page of the file has the pins it had before the call, the two pages are dirty where it
returns, and it throws no "already unpinned": it pins a page before it unpins it. -/
structure Balanced (x : NodeOp K Unit) (a receiver : ℕ) (s : IndexFile K) : Prop where
  pins : ∀ p, (after x s).handle.bufferManager.cache.pins (s.handle.fd, p) = s.handle.pins p
  dirty : ∀ t, x s = .ok () t → ∀ n, s.tree.nodes a = some n ∨ s.tree.nodes receiver = some n →
    t.handle.dirtyAt n.pageId.page = true
  unpins : ∀ e t, x s = .error e t → e ≠ some .pageAlreadyUnpinned

variable {fetch : ℤ → FileOp PageHandle} {s t : IndexFile K} {a receiver : ℕ} {n : Node}
  {fd page m : ℤ} {Q : BPlusTree K → Prop} {work : BPlusTree K → Option (BPlusTree K)}

/-- The page has at least `m` pins, in a pool in order. -/
structure Held (fd page m : ℤ) (s : FileHandle) : Prop where
  fd_eq : s.fd = fd
  pooled : Pooled s
  pins : m ≤ s.pins page

/-- The page has at least `m` pins. -/
def Left (fd page m : ℤ) (s : FileHandle) : Prop := m ≤ s.bufferManager.cache.pins (fd, page)

theorem Held.left {s : FileHandle} (h : Held fd page m s) : Left fd page m s := by
  have hpins := h.pins
  rwa [FileHandle.pins, h.fd_eq] at hpins

theorem Held.adds {s t : FileHandle} {d : PageId → ℤ} (h : Held fd page m s) (ha : Adds s t d)
    (hp : Pooled t) (hd : 0 ≤ d (fd, page)) : Held fd page m t := by
  refine ⟨ha.fd.trans h.fd_eq, hp, ?_⟩
  have hpins := h.left
  rw [Left] at hpins
  rw [FileHandle.pins, ha.fd, h.fd_eq, ha.pins]
  omega

theorem pageOf_eq (hn : s.tree.nodes a = some n) : pageOf a s = .ok n.pageId.page s := by
  rw [pageOf, bind_of_ok (get_ok_iff.mpr ⟨rfl, rfl⟩), hn]
  rfl

section Calls

/-- A page that is held stays held, or has at least its pins where a call throws. -/
abbrev Holds (fd page m : ℤ) (x : FileOp α) : Prop :=
  Leads (Held fd page m) (Held fd page m) (Left fd page m) x

theorem fetch_holds (hf : Fetches fetch) (p : ℤ) : Holds fd page m (fetch p) := by
  refine fun s h => ⟨fun ph t hg => ?_, fun e t hg => ?_⟩
  · have hadds := hf.returns h.pooled hg
    exact h.adds hadds (hadds.pooled h.pooled (onePin_nonneg _ _)) (onePin_nonneg _ _ _)
  · rw [Left, (hf.throws h.pooled hg).1]
    exact h.left

theorem markDirty_holds (p : ℤ) : Holds fd page m (FileHandle.markDirty p) := by
  refine fun s h => ⟨fun u t hm => ?_, fun e t hm => ?_⟩
  · have hadds := markDirty_adds h.pooled hm
    exact h.adds hadds (hadds.pooled h.pooled fun _ => le_rfl) le_rfl
  · rw [markDirty_unchanged h.pooled.isOpen hm]
    exact h.left

/-- Another page is unpinned. -/
theorem unpinPage_holds (hpage : page ≠ 0) : Holds fd page m (FileHandle.unpinPage 0) := by
  refine fun s h => ⟨fun u t hu => ?_, fun e t hu => ?_⟩
  · obtain ⟨hpooled, hadds⟩ := unpinPage_ok_adds h.pooled hu
    refine h.adds hadds hpooled ?_
    rw [onePin, if_neg fun hk => hpage (congrArg Prod.snd hk)]
    exact le_rfl
  · rw [unpinPage_unchanged h.pooled.isOpen hu]
    exact h.left

/-- What a call of the file does is seen in the file alone. -/
theorem onFile_leads {P P' R : FileHandle → Prop} {x : FileOp α} (h : Leads P P' R x) :
    Leads (fun s : IndexFile K => P s.handle ∧ Q s.tree) (fun s => P' s.handle ∧ Q s.tree)
      (fun s => R s.handle) (onFile x) := by
  rintro s ⟨hs, hq⟩
  obtain ⟨hok, herror⟩ := h s.handle hs
  unfold onFile
  split
  · next a u hx =>
    refine ⟨fun b t ht => ?_, fun e t ht => by cases ht⟩
    cases ht
    exact ⟨hok a u hx, hq⟩
  · next e u hx =>
    refine ⟨fun b t ht => (by cases ht), fun e' t ht => ?_⟩
    cases ht
    exact herror e u hx

/-- The page of a node is held, and the tree is as `Q` says. -/
abbrev HoldsNode (fd page m : ℤ) (Q : BPlusTree K → Prop) (x : NodeOp K α) : Prop :=
  Leads (fun s : IndexFile K => Held fd page m s.handle ∧ Q s.tree)
    (fun s => Held fd page m s.handle ∧ Q s.tree) (fun s => Left fd page m s.handle) x

theorem pageOf_holds (a : ℕ) : HoldsNode fd page m Q (pageOf a) := by
  rintro s ⟨h, hq⟩
  cases hn : s.tree.nodes a with
  | none =>
    have hthrow : pageOf a s = .error none s := by
      rw [pageOf, bind_of_ok (get_ok_iff.mpr ⟨rfl, rfl⟩), hn]
      rfl
    rw [hthrow]
    refine ⟨fun b t ht => (by cases ht), fun e t ht => ?_⟩
    cases ht
    exact h.left
  | some n =>
    rw [pageOf_eq hn]
    refine ⟨fun b t ht => ?_, fun e t ht => (by cases ht)⟩
    cases ht
    exact ⟨h, hq⟩

theorem onTree_holds (hwork : ∀ t u, Q t → work t = some u → Q u) :
    HoldsNode fd page m Q (onTree work) := by
  rintro s ⟨h, hq⟩
  unfold onTree
  split
  · next u hu =>
    refine ⟨fun b t ht => ?_, fun e t ht => by cases ht⟩
    cases ht
    exact ⟨h, hwork _ _ hq hu⟩
  · refine ⟨fun b t ht => (by cases ht), fun e t ht => ?_⟩
    cases ht
    exact h.left

theorem pinNode_holds (hf : Fetches fetch) (a : ℕ) :
    HoldsNode fd page m Q (pinNode fetch a) := by
  refine (pageOf_holds a).bind fun p => (onFile_leads (fetch_holds hf p)).bind fun _ => ?_
  rintro t ht
  refine ⟨fun b u hu => ?_, fun e u hu => absurd hu pure_ne_error⟩
  obtain ⟨-, rfl⟩ := pure_ok_iff.mp hu
  exact ht

theorem markDirtyAndUnpinNode_holds (hpage : page ≠ 0) (a : ℕ) :
    HoldsNode fd page m Q (markDirtyAndUnpinNode a) :=
  (pageOf_holds a).bind fun p => (onFile_leads (markDirty_holds p)).bind fun _ =>
    (pageOf_holds a).bind fun _ => onFile_leads (unpinPage_holds hpage)

end Calls

/-- Once the node's own page is pinned, it is never unpinned. -/
theorem moveVia_leads (hf : Fetches fetch) (h : Pooled s.handle) (hn : s.tree.nodes a = some n)
    (hpage : n.pageId.page ≠ 0) (receiver : ℕ) (hq : Q s.tree)
    (hwork : ∀ t u, Q t → work t = some u → Q u)
    {ph : PageHandle} {u : FileHandle} (hfetch : fetch n.pageId.page s.handle = .ok ph u) :
    Leads (fun t => t = s)
      (fun t =>
        Held s.handle.fd n.pageId.page (s.handle.pins n.pageId.page + 1) t.handle ∧ Q t.tree)
      (fun t => Left s.handle.fd n.pageId.page (s.handle.pins n.pageId.page + 1) t.handle)
      (moveVia fetch work a receiver) := by
  have hadds := hf.returns h hfetch
  have hheld : Held s.handle.fd n.pageId.page (s.handle.pins n.pageId.page + 1) u := by
    refine ⟨hadds.fd, hadds.pooled h (onePin_nonneg _ _), ?_⟩
    rw [FileHandle.pins, FileHandle.pins, hadds.fd, hadds.pins, onePin, if_pos rfl]
  have hpin : pinNode fetch a s = .ok () { s with handle := u } := by
    have hfile : onFile (fetch n.pageId.page) s = .ok ph { s with handle := u } := by
      rw [onFile, hfetch]
    rw [pinNode, bind_of_ok (pageOf_eq hn), bind_of_ok hfile]
    rfl
  refine Leads.bind (Q := fun t =>
    Held s.handle.fd n.pageId.page (s.handle.pins n.pageId.page + 1) t.handle ∧ Q t.tree) ?_ ?_
  · rintro _ rfl
    rw [hpin]
    refine ⟨fun b t ht => ?_, fun e t ht => (by cases ht)⟩
    cases ht
    exact ⟨hheld, hq⟩
  · intro _
    refine Leads.bind (pinNode_holds hf receiver) fun _ => ?_
    refine (onTree_holds hwork).bind fun _ => ?_
    exact (markDirtyAndUnpinNode_holds hpage receiver).bind fun _ =>
      markDirtyAndUnpinNode_holds hpage a

theorem moveVia_error {e : Error} {u : FileHandle} (hn : s.tree.nodes a = some n)
    (hfetch : fetch n.pageId.page s.handle = .error e u) :
    moveVia fetch work a receiver s = .error (some e) { s with handle := u } := by
  have hfile : onFile (fetch n.pageId.page) s = .error (some e) { s with handle := u } := by
    rw [onFile, hfetch]
  have hpin : pinNode fetch a s = .error (some e) { s with handle := u } := by
    rw [pinNode, bind_of_ok (pageOf_eq hn)]
    exact bind_error_iff.mpr (Or.inl hfile)
  exact bind_error_iff.mpr (Or.inl hpin)

/-- The node of page `page` is where it was. -/
def HasPage (l : ℕ) (page : ℤ) (t : BPlusTree K) : Prop :=
  ∃ n, t.nodes l = some n ∧ n.pageId.page = page

theorem setNext_hasPage {l : ℕ} {next : Link} {t u : BPlusTree K} (h : HasPage l page t)
    (hs : LeafNode.setNext receiver next t = some u) : HasPage l page u := by
  obtain ⟨n, hn, hpage⟩ := h
  unfold LeafNode.setNext at hs
  split at hs
  swap
  · cases hs
  obtain ⟨nextNode, -, hs⟩ := Option.bind_eq_some_iff.mp hs
  obtain ⟨es, -, hs⟩ := Option.bind_eq_some_iff.mp hs
  obtain ⟨last, -, hs⟩ := Option.bind_eq_some_iff.mp hs
  obtain ⟨v, hv, hs⟩ := Option.bind_eq_some_iff.mp hs
  obtain ⟨leaf, hleaf, hs⟩ := Option.bind_eq_some_iff.mp hs
  obtain ⟨_, -, hv⟩ := Option.bind_eq_some_iff.mp hv
  cases hv
  cases hs
  by_cases hl : l = receiver
  · subst hl
    obtain rfl := Option.some.inj (hn.symm.trans hleaf)
    exact ⟨_, Function.update_self _ _ _, hpage⟩
  · exact ⟨n, (Function.update_of_ne hl _ _).trans hn, hpage⟩

/-- A page that is still pinned is not disposed of. -/
theorem disposeNode_leads {l : ℕ} (hm : 0 < m) :
    Leads (fun s : IndexFile K => Held fd page m s.handle ∧ HasPage l page s.tree)
      (fun s => Left fd page m s.handle) (fun s => Left fd page m s.handle)
      (do disposePage (← pageOf l)) := by
  rintro s ⟨h, n, hn, rfl⟩
  have hpins := h.pins
  obtain ⟨e, he⟩ := disposePage_pinned h.pooled (show 0 < s.handle.pins n.pageId.page by omega)
  have hthrow : (do disposePage (← pageOf l) : NodeOp K Unit) s = .error (some e) s := by
    rw [bind_of_ok (pageOf_eq hn)]
    refine bind_error_iff.mpr (Or.inl ?_)
    rw [onFile, he]
  rw [hthrow]
  refine ⟨fun b t ht => (by cases ht), fun e t ht => ?_⟩
  cases ht
  exact h.left

variable [LinearOrder K]

/-- `leaf_node::move_all_to` up to the disposal of the page. -/
def appendAllTo (l receiver : ℕ) (t : BPlusTree K) : Option (BPlusTree K) := do
  let es ← t.entries true l
  let rs ← t.entries true receiver
  let t ← t.setEntries true receiver (BPlusTree.insertAllInto rs es)
  let n ← t.nodes l
  LeafNode.setNext receiver n.next t

def leafMoveHalfTo (fetch : ℤ → FileOp PageHandle) (l receiver : ℕ) : NodeOp K Unit :=
  moveVia fetch (LeafNode.moveHalfTo l receiver) l receiver

def leafMoveAllTo (fetch : ℤ → FileOp PageHandle) (l receiver : ℕ) (_index : ℕ) :
    NodeOp K Unit := do
  moveVia fetch (appendAllTo l receiver) l receiver
  disposePage (← pageOf l)

def leafMoveFirstToEndOf (fetch : ℤ → FileOp PageHandle) (l receiver : ℕ) : NodeOp K Unit :=
  moveVia fetch (LeafNode.moveFirstToEndOf l receiver) l receiver

def leafMoveLastToFrontOf (fetch : ℤ → FileOp PageHandle) (l receiver index : ℕ) :
    NodeOp K Unit :=
  moveVia fetch (LeafNode.moveLastToFrontOf l receiver index) l receiver

def internalMoveHalfTo (fetch : ℤ → FileOp PageHandle) (a receiver : ℕ) : NodeOp K Unit :=
  moveVia fetch (InternalNode.moveHalfTo a receiver) a receiver

def internalMoveAllTo (fetch : ℤ → FileOp PageHandle) (a receiver index : ℕ) : NodeOp K Unit :=
  moveVia fetch (InternalNode.moveAllTo a receiver index) a receiver

def internalMoveFirstToEndOf (fetch : ℤ → FileOp PageHandle) (a receiver : ℕ) : NodeOp K Unit :=
  moveVia fetch (InternalNode.moveFirstToEndOf a receiver) a receiver

def internalMoveLastToFrontOf (fetch : ℤ → FileOp PageHandle) (a receiver index : ℕ) :
    NodeOp K Unit :=
  moveVia fetch (InternalNode.moveLastToFrontOf a receiver index) a receiver

/-- The eight calls that move entries between two nodes. -/
inductive Move
  | leafHalfTo
  | leafAllTo (index : ℕ)
  | leafFirstToEndOf
  | leafLastToFrontOf (index : ℕ)
  | internalHalfTo
  | internalAllTo (index : ℕ)
  | internalFirstToEndOf
  | internalLastToFrontOf (index : ℕ)

def Move.perform (fetch : ℤ → FileOp PageHandle) (a receiver : ℕ) : Move → NodeOp K Unit
  | .leafHalfTo => leafMoveHalfTo fetch a receiver
  | .leafAllTo index => leafMoveAllTo fetch a receiver index
  | .leafFirstToEndOf => leafMoveFirstToEndOf fetch a receiver
  | .leafLastToFrontOf index => leafMoveLastToFrontOf fetch a receiver index
  | .internalHalfTo => internalMoveHalfTo fetch a receiver
  | .internalAllTo index => internalMoveAllTo fetch a receiver index
  | .internalFirstToEndOf => internalMoveFirstToEndOf fetch a receiver
  | .internalLastToFrontOf index => internalMoveLastToFrontOf fetch a receiver index

theorem appendAllTo_hasPage {l : ℕ} {t u : BPlusTree K} (h : HasPage l page t)
    (ha : appendAllTo l receiver t = some u) : HasPage l page u := by
  obtain ⟨n, hn, hpage⟩ := h
  obtain ⟨es, -, ha⟩ := Option.bind_eq_some_iff.mp ha
  obtain ⟨rs, -, ha⟩ := Option.bind_eq_some_iff.mp ha
  obtain ⟨v, hv, ha⟩ := Option.bind_eq_some_iff.mp ha
  obtain ⟨_, -, ha⟩ := Option.bind_eq_some_iff.mp ha
  obtain ⟨_, -, hv⟩ := Option.bind_eq_some_iff.mp hv
  cases hv
  refine setNext_hasPage ?_ ha
  exact ⟨n, hn, hpage⟩

/-- What the tree of the model does in one call is the work between the pins and the disposal. -/
theorem moveAllTo_eq (l receiver index : ℕ) (t : BPlusTree K) :
    LeafNode.moveAllTo l receiver index t = (do
      let t ← appendAllTo l receiver t
      let n ← t.nodes l
      t.disposePage n.pageId.page) := by
  simp only [LeafNode.moveAllTo, appendAllTo, Option.bind_eq_bind, Option.bind_assoc]
  refine Option.bind_congr fun es _ => Option.bind_congr fun rs _ => ?_
  refine Option.bind_congr fun v _ => Option.bind_congr fun n hn => ?_
  refine Option.bind_congr fun u hu => ?_
  obtain ⟨n', hn', hpage⟩ := setNext_hasPage ⟨n, hn, rfl⟩ hu
  rw [hn', Option.bind_some, hpage]

/-- Behind a call that pinned the node's page, the page has a pin more than before. -/
theorem perform_left (hf : Fetches fetch) (h : Pooled s.handle) (hn : s.tree.nodes a = some n)
    (hpage : n.pageId.page ≠ 0) (receiver : ℕ) (move : Move) {ph : PageHandle} {u : FileHandle}
    (hfetch : fetch n.pageId.page s.handle = .ok ph u) :
    Left s.handle.fd n.pageId.page (s.handle.pins n.pageId.page + 1)
      (after (move.perform fetch a receiver) s).handle := by
  have hvia : ∀ work : BPlusTree K → Option (BPlusTree K),
      Left s.handle.fd n.pageId.page (s.handle.pins n.pageId.page + 1)
        (after (moveVia fetch work a receiver) s).handle := by
    intro work
    have hkeeps : ∀ t u : BPlusTree K, True → work t = some u → True := fun _ _ _ _ => trivial
    have hleads := moveVia_leads (Q := fun _ => True) hf h hn hpage receiver trivial hkeeps hfetch
    exact hleads.after (fun _ ht => ht.1.left) rfl
  cases move with
  | leafAllTo index =>
    have hpos : 0 < s.handle.pins n.pageId.page + 1 := Int.lt_add_one_of_le (h.pins_nonneg _)
    have hkeeps : ∀ t u : BPlusTree K, HasPage a n.pageId.page t →
        appendAllTo a receiver t = some u → HasPage a n.pageId.page u :=
      fun _ _ => appendAllTo_hasPage
    have hleads := moveVia_leads hf h hn hpage receiver ⟨n, hn, rfl⟩ hkeeps hfetch
    exact (hleads.bind fun _ => disposeNode_leads hpos).after (fun _ ht => ht) rfl
  | _ => exact hvia _

/-- Page 0 has the index header. For a node on another page the pins are balanced exactly where its
page is not handed out. -/
theorem move_balanced_iff (hf : Fetches fetch) (h : Pooled s.handle) (hn : s.tree.nodes a = some n)
    (hpage : n.pageId.page ≠ 0) (receiver : ℕ) (move : Move) :
    Balanced (move.perform fetch a receiver) a receiver s ↔
      ∃ e t, fetch n.pageId.page s.handle = .error e t := by
  constructor
  · intro hb
    cases hfetch : fetch n.pageId.page s.handle with
    | error e t => exact ⟨e, t, rfl⟩
    | ok ph u =>
      have hleft := perform_left hf h hn hpage receiver move hfetch
      rw [Left, hb.pins] at hleft
      omega
  · rintro ⟨e, u, hfetch⟩
    have herror : move.perform fetch a receiver s = .error (some e) { s with handle := u } := by
      cases move with
      | leafAllTo index => exact bind_error_iff.mpr (Or.inl (moveVia_error hn hfetch))
      | _ => exact moveVia_error hn hfetch
    obtain ⟨hpins, hne⟩ := hf.throws h hfetch
    constructor
    · intro p
      simp only [after, herror]
      exact hpins _
    · intro t ht
      rw [herror] at ht
      cases ht
    · intro e' t ht
      rw [herror] at ht
      cases ht
      exact fun heq => hne (Option.some.inj heq)

/-- An index file with a header page and two node pages. -/
def twoNodes : ByteFile where
  size := 4 * 4096
  byte i :=
    (List.lookup i
      [(4096, 254), (4097, 255), (4098, 255), (4099, 255), (8192, 254), (8193, 255), (8194, 255),
        (8195, 255), (12288, 254), (12289, 255), (12290, 255), (12291, 255)]).getD 0

/-- Two leaves on the pages 1 and 2, with one key on page 1, and a pool of so many buffers. -/
def twoNodesFile (buffers : ℕ) : IndexFile ℤ where
  tree := {
    height := 1
    root := some 0
    nodes := fun a => [⟨⟨1, -1⟩, none, .uninit⟩, ⟨⟨2, -1⟩, none, .uninit⟩][a]?
    heap := 2
    pages := fun page => if page = 1 then some ⟨true, [⟨(5 : ℤ), ⟨1, 0⟩⟩]⟩ else some ⟨true, []⟩
    nextPage := 3
    numPages := 3 }
  handle := ⟨3, ⟨-1, 3⟩, true, false,
    new buffers (fun _ => ⟨false, 0, 0, fun _ => 0, 0⟩) fun _ => some twoNodes⟩

theorem pooled_twoNodesFile (buffers : ℕ) : Pooled (twoNodesFile buffers).handle := by
  refine ⟨rfl, owned_new buffers _ _, fun page => ?_⟩
  have hnone : (twoNodesFile buffers).handle.bufferManager.cache.entry (3, page) = none := by
    simp [twoNodesFile, new, BufferManager.cache]
  exact (pins_of_none hnone).ge

theorem balanced_no_buffer :
    Balanced (leafMoveFirstToEndOf getThisPage 0 1) 0 1 (twoNodesFile 0) := by
  refine (move_balanced_iff fetches_getThisPage (pooled_twoNodesFile 0) rfl (by decide) 1
    .leafFirstToEndOf).mpr ?_
  have hthrown : ((getThisPage 1 (twoNodesFile 0).handle).thrown).isSome = true := by
    decide +kernel
  obtain ⟨e, he⟩ := Option.isSome_iff_exists.mp hthrown
  exact ⟨e, thrown_eq_some_iff.mp he⟩

/-- Both node pages stay pinned; the header page, which is unpinned for the receiver, is not in the
pool. -/
theorem move_keeps_pins : Pooled (twoNodesFile 3).handle ∧ Fetches getThisPage ∧
    ¬ Balanced (leafMoveFirstToEndOf getThisPage 0 1) 0 1 (twoNodesFile 3) := by
  refine ⟨pooled_twoNodesFile 3, fetches_getThisPage, fun hb => ?_⟩
  have hbefore : (twoNodesFile 3).handle.pins 1 = 0 := by decide +kernel
  have hafter : (after (leafMoveFirstToEndOf getThisPage 0 1)
      (twoNodesFile 3)).handle.bufferManager.cache.pins ((twoNodesFile 3).handle.fd, 1) = 1 := by
    decide +kernel
  rw [hb.pins, hbefore] at hafter
  exact absurd hafter (by decide)

end IndexFile

end AlphaDb.Index
