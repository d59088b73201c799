import AlphaDb.Io.Eviction

/-! The replacement policy of the pool over whole runs: pins count the users of a page, and the
used list is the order of the last touches. -/
namespace AlphaDb.Io

open EStateM Trace BufferManager

/-- A pool with what a bookkeeper notes of each page: its successful fetches and unpins since it
was loaded, and the time of its last touch. -/
structure PoolHistory (n : ℕ) where
  pool : BufferManager n
  gets : PageId → ℕ
  unpins : PageId → ℕ
  lastTouch : PageId → ℕ
  clock : ℕ

namespace PoolHistory

variable {n : ℕ} {h h' : PoolHistory n} {t : BufferManager n} {fd page : ℤ} {slot i : ℕ} {u : Unit}
  {k : PageId} {c : Call} {g : PageId → ℕ} {l : List ℕ}

def init (s : BufferManager n) : PoolHistory n := ⟨s, fun _ => 0, fun _ => 0, fun _ => 0, 0⟩

def touch (h : PoolHistory n) (k : PageId) : PoolHistory n :=
  { h with lastTouch := Function.update h.lastTouch k h.clock, clock := h.clock + 1 }

/-- A page that is loaded starts with one fetch. -/
def load (h : PoolHistory n) (k : PageId) : PoolHistory n :=
  { h with
    gets := Function.update h.gets k 1
    unpins := Function.update h.unpins k 0 }.touch k

def hit (h : PoolHistory n) (k : PageId) : PoolHistory n :=
  { h with gets := Function.update h.gets k (h.gets k + 1) }.touch k

/-- An unpin touches the page if it is the last one. -/
def unpin (h : PoolHistory n) (k : PageId) : PoolHistory n :=
  let v := { h with unpins := Function.update h.unpins k (h.unpins k + 1) }
  if v.gets k = v.unpins k then v.touch k else v

/-- What is noted of a call that returned. -/
def note (h : PoolHistory n) : Call → PoolHistory n
  | .getPage fd page _ =>
    if h.pool.hashTable.find fd page = none then h.load (fd, page) else h.hit (fd, page)
  | .allocatePage fd page =>
    if h.pool.hashTable.find fd page = none then h.load (fd, page) else h
  | .markDirty fd page => h.touch (fd, page)
  | .unpinPage fd page => h.unpin (fd, page)
  | .forcePage _ _ | .flushPages _ => h

/-- One call other than a flush, whose I/O succeeds; nothing is noted of a call that throws. -/
def step (h : PoolHistory n) (c : Call) : Option (PoolHistory n) :=
  if c.InRange h.pool ∧ c.isFlush = false then
    outcome (c.perform h.pool) (fun _ t => { h.note c with pool := t })
      fun t => { h with pool := t }
  else none

/-- The pins are the fetches less the unpins, and the used list is the order of the last touches,
the newest in front. -/
structure Recorded (h : PoolHistory n) : Prop where
  owned : Owned h.pool
  pins : ∀ k i, h.pool.hashTable.find k.1 k.2 = some i →
    (h.pool.bufferPool i).pin = h.gets k - h.unpins k ∧ 0 ≤ (h.pool.bufferPool i).pin
  order : h.pool.usedList.toList.Pairwise fun i j =>
    h.lastTouch (h.pool.carried j) < h.lastTouch (h.pool.carried i)
  stamps : ∀ i ∈ h.pool.usedList.toList, h.lastTouch (h.pool.carried i) < h.clock

theorem find_iff (ho : Owned t) : t.hashTable.find k.1 k.2 = some i ↔
    i ∈ t.usedList.toList ∧ t.carried i = k := by
  rw [ho.hash]
  simp [carried, Prod.ext_iff]

/-- The slot in front carries the page touched; behind it are slots used before, with the pages
they had. -/
theorem Recorded.front {g' u' : PageId → ℕ} (h : Recorded h') (ho : Owned t)
    (hl : t.usedList.toList = i :: l) (hsub : l.Sublist h'.pool.usedList.toList)
    (hother : ∀ j ∈ l, t.carried j = h'.pool.carried j ∧
      (t.bufferPool j).pin = (h'.pool.bufferPool j).pin)
    (hk : t.carried i = k) (hpin : (t.bufferPool i).pin = g' k - u' k ∧ 0 ≤ (t.bufferPool i).pin)
    (hg : ∀ k', k' ≠ k → g' k' = h'.gets k' ∧ u' k' = h'.unpins k') :
    Recorded ⟨t, g', u', Function.update h'.lastTouch k h'.clock, h'.clock + 1⟩ := by
  have hnodup := mapped_nodup ho.map
  rw [hl] at hnodup
  obtain ⟨hil, -⟩ := List.nodup_cons.mp hnodup
  -- no other used slot carries the page touched
  have hne : ∀ j ∈ l, t.carried j ≠ k := by
    intro j hj hjk
    have hfj := (find_iff ho).mpr ⟨by simp [hl, hj], hjk⟩
    have hfi := (find_iff ho).mpr ⟨by simp [hl], hk⟩
    obtain rfl := Option.some.inj (hfj.symm.trans hfi)
    exact hil hj
  have htouch : ∀ j ∈ l, Function.update h'.lastTouch k h'.clock (t.carried j) =
      h'.lastTouch (h'.pool.carried j) := by
    intro j hj
    rw [Function.update_of_ne (hne j hj), (hother j hj).1]
  refine ⟨ho, ?_, ?_, ?_⟩
  · intro k' j hj
    obtain ⟨hju, hjk⟩ := (find_iff ho).mp hj
    rw [hl] at hju
    rcases List.mem_cons.mp hju with rfl | hju
    · obtain rfl := hk.symm.trans hjk
      exact hpin
    · have hk' : k' ≠ k := hjk ▸ hne j hju
      obtain ⟨hcar, hp⟩ := hother j hju
      have hold := (find_iff h.owned).mpr ⟨hsub.subset hju, hcar.symm.trans hjk⟩
      obtain ⟨hg', hu'⟩ := hg k' hk'
      dsimp only
      rw [hp, hg', hu']
      exact h.pins k' j hold
  · rw [hl]
    refine List.pairwise_cons.mpr ⟨?_, ?_⟩
    · intro j hj
      dsimp only
      rw [htouch j hj, hk, Function.update_self]
      exact h.stamps j (hsub.subset hj)
    · apply (h.order.sublist hsub).imp_of_mem
      intro a b ha hb hab
      dsimp only
      rw [htouch a ha, htouch b hb]
      exact hab
  · intro j hj
    rw [hl] at hj
    dsimp only
    rcases List.mem_cons.mp hj with rfl | hj
    · rw [hk, Function.update_self]
      exact Nat.lt_succ_self _
    · rw [htouch j hj]
      exact Nat.lt_succ_of_lt (h.stamps j (hsub.subset hj))

/-- Nothing is touched: the used list and what the slots carry stay. -/
theorem Recorded.stay (u' : PageId → ℕ) (h : Recorded h') (ho : Owned t)
    (hl : t.usedList.toList = h'.pool.usedList.toList)
    (hcar : ∀ j, t.carried j = h'.pool.carried j)
    (hpins : ∀ k i, t.hashTable.find k.1 k.2 = some i →
      (t.bufferPool i).pin = h'.gets k - u' k ∧ 0 ≤ (t.bufferPool i).pin) :
    Recorded { h' with pool := t, unpins := u' } := by
  refine ⟨ho, hpins, ?_, ?_⟩
  · simpa [hl, hcar] using h.order
  · simpa [hl, hcar] using h.stamps

/-- A slot in use is moved to the front, with the page it carries. -/
theorem Recorded.touched {en : BufferEntry n} {g' u' : PageId → ℕ} (h : Recorded h')
    (hf : h'.pool.hashTable.find k.1 k.2 = some i) (hfd : en.fd = (h'.pool.bufferPool i).fd)
    (hpage : en.page = (h'.pool.bufferPool i).page)
    (hpin : en.pin = g' k - u' k ∧ 0 ≤ en.pin)
    (hg : ∀ k', k' ≠ k → g' k' = h'.gets k' ∧ u' k' = h'.unpins k') :
    Recorded ⟨(h'.pool.setEntry i en).touch i, g', u',
      Function.update h'.lastTouch k h'.clock, h'.clock + 1⟩ := by
  have ho := owned_iff.mp h.owned
  obtain ⟨hu, hcar⟩ := (find_iff h.owned).mp hf
  have hset : OwnedBut none (h'.pool.setEntry i en) := ho.setEntry hfd hpage
  have hown := hset.touch hu
  have hl : ((h'.pool.setEntry i en).touch i).usedList.toList =
      i :: ((h'.pool.setEntry i en).remove i).usedList.toList := rfl
  refine h.front (owned_iff.mpr hown) hl remove_sublist ?_ ?_ ?_ hg
  · intro j hj
    have hji : j ≠ i := by
      rintro rfl
      exact not_mem_remove (s := h'.pool.setEntry j en) h.owned.map hu hj
    simp [carried, BufferManager.setEntry, hji]
  · rw [← hcar]
    simp [carried, BufferManager.setEntry, hfd, hpage]
  · simpa [BufferManager.setEntry] using hpin

/-- A page is put into a slot just allocated, whose data may have been read. -/
theorem Recorded.loaded {v w : BufferManager n} (h : Recorded h')
    (hf : h'.pool.hashTable.find fd page = none) (ha : internalAlloc h'.pool = .ok slot v)
    (hw : ∃ en, w = v.setEntry slot en) :
    Recorded { h'.load (fd, page) with pool := w.install fd page slot } := by
  obtain ⟨en, rfl⟩ := hw
  obtain ⟨hv, hu⟩ := internalAlloc_owned (owned_iff.mp h.owned) ha
  have hfv := find_internalAlloc ha hf
  have hown := (hv.setHole en).install hu hfv
  obtain ⟨l, hl, hsub, hpool⟩ := internalAlloc_front ha
  have hnodup := mapped_nodup hv.map
  rw [hl] at hnodup
  have hother : ∀ j ∈ l, ((v.setEntry slot en).install fd page slot).bufferPool j =
      h'.pool.bufferPool j := by
    intro j hj
    have hjs : j ≠ slot := ne_of_mem_of_not_mem hj (List.nodup_cons.mp hnodup).1
    rw [← hpool]
    simp [BufferManager.install, BufferManager.initPageInfo, BufferManager.hashInsert,
      BufferManager.setEntry, hjs]
  refine h.front (owned_iff.mpr hown) hl hsub ?_ ?_ ?_ ?_
  · intro j hj
    simp [carried, hother j hj]
  · simp [carried, BufferManager.install, BufferManager.initPageInfo, BufferManager.setEntry]
  · simp [BufferManager.install, BufferManager.initPageInfo, BufferManager.setEntry, load, touch]
  · intro k' hk'
    simp [load, touch, hk']

/-- A call that threw has changed nothing, and one that returned is noted. -/
theorem step_cases (hs : step h c = some h') : c.isFlush = false ∧
    ((c.perform h.pool = .ok () h'.pool ∧ h' = { h.note c with pool := h'.pool }) ∨
      ((∃ e, c.perform h.pool = .error e h'.pool) ∧ h' = h)) := by
  unfold step at hs
  split at hs
  · next hc =>
    obtain ⟨_, t, hp, rfl⟩ | ⟨e, t, hp, he, rfl⟩ := outcome_eq_some hs
    · exact ⟨hc.2, Or.inl ⟨hp, rfl⟩⟩
    · obtain rfl := perform_error hc.2 hp he
      exact ⟨hc.2, Or.inr ⟨⟨e, hp⟩, rfl⟩⟩
  · simp at hs

theorem recorded_getPage {mp : Bool} (h : Recorded h')
    (hg : getPage fd page mp h'.pool = .ok slot t) :
    Recorded { h'.note (.getPage fd page mp) with pool := t } := by
  obtain ⟨hf, -, rfl⟩ | ⟨hf, v, w, ha, hr, rfl⟩ := getPage_ok hg
  · obtain ⟨hpin, hpos⟩ := h.pins (fd, page) slot hf
    have hnote : h'.note (.getPage fd page mp) = h'.hit (fd, page) := by simp [note, hf]
    rw [hnote]
    refine h.touched hf rfl rfl ⟨?_, ?_⟩ ?_
    · simp only [hpin, hit, touch, Function.update_self]
      push_cast
      ring
    · exact Int.le_add_one hpos
    · intro k' hk'
      simp [hit, touch, hk']
  · have hnote : h'.note (.getPage fd page mp) = h'.load (fd, page) := by simp [note, hf]
    rw [hnote]
    obtain ⟨f, -, -, -, rfl⟩ := readPage_ok.mp hr
    exact h.loaded hf ha ⟨_, rfl⟩

theorem recorded_allocatePage {r : Option ℕ} (h : Recorded h')
    (ha : allocatePage fd page h'.pool = .ok r t) :
    Recorded { h'.note (.allocatePage fd page) with pool := t } := by
  obtain ⟨_, hf, -, rfl⟩ | ⟨hf, slot, v, -, hv, rfl⟩ := allocatePage_ok ha
  · simpa [note, hf] using h
  · have hnote : h'.note (.allocatePage fd page) = h'.load (fd, page) := by simp [note, hf]
    rw [hnote]
    refine h.loaded hf hv ⟨v.bufferPool slot, ?_⟩
    simp [BufferManager.setEntry]

theorem recorded_markDirty (h : Recorded h') (hm : markDirty fd page h'.pool = .ok u t) :
    Recorded { h'.note (.markDirty fd page) with pool := t } := by
  obtain ⟨slot, hf, rfl⟩ := markDirty_ok hm
  exact h.touched (k := (fd, page)) hf rfl rfl (h.pins (fd, page) slot hf) fun _ _ => ⟨rfl, rfl⟩

theorem recorded_unpinPage (h : Recorded h') (hu : unpinPage fd page h'.pool = .ok u t) :
    Recorded { h'.note (.unpinPage fd page) with pool := t } := by
  obtain ⟨slot, hf, hne, rfl⟩ := unpinPage_ok hu
  obtain ⟨hpin, hpos⟩ := h.pins (fd, page) slot hf
  have hpin' : (h'.pool.bufferPool slot).pin - 1 = h'.gets (fd, page) -
      (Function.update h'.unpins (fd, page) (h'.unpins (fd, page) + 1) (fd, page) : ℕ) ∧
      0 ≤ (h'.pool.bufferPool slot).pin - 1 := by
    rw [Function.update_self]
    push_cast
    omega
  have hlast : h'.gets (fd, page) = h'.unpins (fd, page) + 1 ↔
      (h'.pool.bufferPool slot).pin - 1 = 0 := by omega
  by_cases hz : (h'.pool.bufferPool slot).pin - 1 = 0
  · rw [if_pos hz]
    have hnote : h'.note (.unpinPage fd page) =
        { h' with
          unpins := Function.update h'.unpins (fd, page) (h'.unpins (fd, page) + 1) }.touch
            (fd, page) := by
      simp [note, unpin, hlast.mpr hz]
    rw [hnote]
    refine h.touched hf rfl rfl hpin' ?_
    intro k' hk'
    exact ⟨rfl, Function.update_of_ne hk' ..⟩
  · rw [if_neg hz]
    have hnote : h'.note (.unpinPage fd page) =
        { h' with
          unpins := Function.update h'.unpins (fd, page) (h'.unpins (fd, page) + 1) } := by
      simp [note, unpin, mt hlast.mp hz]
    rw [hnote]
    have hown : OwnedBut none (h'.pool.setEntry slot { h'.pool.bufferPool slot with
        pin := (h'.pool.bufferPool slot).pin - 1 }) := (owned_iff.mp h.owned).setEntry rfl rfl
    have hcar : ∀ j, (h'.pool.setEntry slot { h'.pool.bufferPool slot with
        pin := (h'.pool.bufferPool slot).pin - 1 }).carried j = h'.pool.carried j := by
      intro j
      by_cases hj : j = slot
      · subst hj
        simp [carried, BufferManager.setEntry]
      · simp [carried, BufferManager.setEntry, hj]
    refine h.stay _ (owned_iff.mpr hown) rfl hcar ?_
    intro k j hj
    by_cases hjs : j = slot
    · subst hjs
      have hkey := ((find_iff h.owned).mp hj).2.symm.trans
        ((find_iff (k := (fd, page)) h.owned).mp hf).2
      subst hkey
      simpa [BufferManager.setEntry] using hpin'
    · have hk : k ≠ (fd, page) := by
        rintro rfl
        exact hjs (Option.some.inj (hj.symm.trans hf))
      simpa [BufferManager.setEntry, hjs, hk] using h.pins k j hj

theorem recorded_forcePage (h : Recorded h') (hf : forcePage fd page h'.pool = .ok u t) :
    Recorded { h' with pool := t } := by
  have hown : Owned (after (forceSlots fd page h'.pool.usedList.toList) h'.pool) :=
    forceSlots_owned _ h.owned
  replace hf := get_bind_ok_iff.mp hf
  simp only [after, hf] at hown
  obtain ⟨hu, hh, -, hj⟩ := forceSlots_frame hf
  refine h.stay h'.unpins hown (by rw [hu]) (fun j => (hj j).1) ?_
  intro k i hi
  rw [(hj i).2]
  exact h.pins k i (hh ▸ hi)

theorem recorded_step : TrInv (fun h c h' => step (n := n) h c = some h') Recorded := by
  intro h c h' hs hr
  obtain ⟨hc, ⟨hp, he⟩ | ⟨-, rfl⟩⟩ := step_cases hs
  · rw [he]
    cases c with
    | getPage fd page mp =>
      obtain ⟨_, _, hg, hv⟩ := bind_ok_iff.mp hp
      obtain ⟨-, rfl⟩ := pure_ok_iff.mp hv
      exact recorded_getPage hr hg
    | allocatePage fd page =>
      obtain ⟨_, _, ha, hv⟩ := bind_ok_iff.mp hp
      obtain ⟨-, rfl⟩ := pure_ok_iff.mp hv
      exact recorded_allocatePage hr ha
    | markDirty fd page => exact recorded_markDirty hr hp
    | unpinPage fd page => exact recorded_unpinPage hr hp
    | forcePage fd page => exact recorded_forcePage hr hp
    | flushPages fd => simp [Call.isFlush] at hc
  · exact hr

theorem recorded_init (poolSize : ℕ) (raw : ℕ → BufferEntry n) (disk : Disk) :
    Recorded (init (new poolSize raw disk)) := by
  refine ⟨owned_new poolSize raw disk, ?_, ?_, ?_⟩ <;> simp [init, new]

/-- Of the unpinned slots the victim is the one whose page was touched first. -/
theorem Recorded.victim_oldest (h : Recorded h') {v : ℕ} (hv : h'.pool.victim = some v)
    (hi : i ∈ h'.pool.usedList.toList) (hpin : (h'.pool.bufferPool i).pin = 0) (hne : i ≠ v) :
    h'.lastTouch (h'.pool.carried v) < h'.lastTouch (h'.pool.carried i) := by
  obtain ⟨-, as, bs, hl, has⟩ := List.find?_eq_some_iff_append.mp hv
  have hord := List.pairwise_reverse.mpr h.order
  rw [hl, List.pairwise_append] at hord
  have hmem := List.mem_reverse.mpr hi
  rw [hl] at hmem
  rcases List.mem_append.mp hmem with hmem | hmem
  · have := has i hmem
    simp [hpin] at this
  · rcases List.mem_cons.mp hmem with rfl | hmem
    · exact absurd rfl hne
    · exact (List.pairwise_cons.mp hord.2.1).1 i hmem

/-- No room means that every slot holds a page with pins. -/
theorem Recorded.allPinned_iff (h : Recorded h') :
    h'.pool.AllPinned ↔ h'.pool.freeList = [] ∧ h'.pool.victim = none := by
  constructor
  · intro hall
    have hused : ∀ i < h'.pool.poolSize, i ∈ h'.pool.usedList.toList := by
      intro i hi
      obtain ⟨k, hk, -⟩ := hall i hi
      exact ((find_iff h.owned).mp hk).1
    constructor
    · refine List.eq_nil_iff_forall_not_mem.mpr fun i hi => ?_
      have hlt := List.mem_range.mp (h.owned.slots.mem_iff.mp (List.mem_append_left _ hi))
      exact used_nodup_free h.owned.slots (hused i hlt) hi
    · refine victim_eq_none_iff.mpr fun i hu => ?_
      have hlt := List.mem_range.mp (h.owned.slots.mem_iff.mp (List.mem_append_right _ hu))
      obtain ⟨k, -, hpos⟩ := hall i hlt
      exact hpos.ne'
  · rintro ⟨hfree, hv⟩ i hi
    have hmem := h.owned.slots.mem_iff.mpr (List.mem_range.mpr hi)
    rw [hfree, List.nil_append] at hmem
    have hf := (find_iff h.owned).mpr ⟨hmem, rfl⟩
    refine ⟨h'.pool.carried i, hf, ?_⟩
    have hne := victim_eq_none_iff.mp hv i hmem
    have hpos := (h.pins _ i hf).2
    omega

/-- A call that needs a page throws for lack of buffers exactly if all slots are pinned. -/
theorem Recorded.noBuf_iff (h : Recorded h') (hc : h'.pool.Needs c) :
    ((∃ t, c.perform h'.pool = .error .noBuf t) ↔ h'.pool.AllPinned) ∧
      ∀ t, c.perform h'.pool = .error .noBuf t → t = h'.pool := by
  refine ⟨⟨?_, ?_⟩, fun t ht => (perform_noBuf hc ht).1⟩
  · rintro ⟨t, ht⟩
    exact h.allPinned_iff.mpr (perform_noBuf hc ht).2
  · intro hall
    obtain ⟨hfree, hv⟩ := h.allPinned_iff.mp hall
    exact ⟨h'.pool, perform_full hc hfree hv⟩

/-- What a step does to the pages in the pool: each keeps its slot or is evicted; only for a page
that is needed, without a free slot, and then the unpinned page that was touched first is. -/
structure Replaces (h : PoolHistory n) (c : Call) (h' : PoolHistory n) : Prop where
  kept : ∀ (k : PageId) i, h.pool.hashTable.find k.1 k.2 = some i →
    h'.pool.hashTable.find k.1 k.2 = some i ∨ h'.pool.hashTable.find k.1 k.2 = none
  pinned : ∀ (k : PageId) i, h.pool.hashTable.find k.1 k.2 = some i →
    0 < (h.pool.bufferPool i).pin → h'.pool.hashTable.find k.1 k.2 = some i
  oldest : ∀ (k : PageId) i, h.pool.hashTable.find k.1 k.2 = some i →
    h'.pool.hashTable.find k.1 k.2 = none →
      h.pool.Needs c ∧ h.pool.freeList = [] ∧ (h.pool.bufferPool i).pin = 0 ∧
        ∀ (k' : PageId) j, h.pool.hashTable.find k'.1 k'.2 = some j →
          (h.pool.bufferPool j).pin = 0 → k' ≠ k → h.lastTouch k < h.lastTouch k'
  evicts : h.pool.Needs c → h.pool.freeList = [] → c.perform h.pool = .ok () h'.pool →
    ∃ (k : PageId) (i : ℕ), h.pool.hashTable.find k.1 k.2 = some i ∧
      h'.pool.hashTable.find k.1 k.2 = none

theorem step_find (hr : Recorded h) (hs : step h c = some h')
    (hf : h.pool.hashTable.find k.1 k.2 = some i) : h'.pool.hashTable.find k.1 k.2 = some i ∨
      (h'.pool.hashTable.find k.1 k.2 = none ∧ h.pool.Needs c ∧ h.pool.freeList = [] ∧
        h.pool.victim = some i) := by
  obtain ⟨hc, ⟨hp, -⟩ | ⟨-, rfl⟩⟩ := step_cases hs
  · exact perform_find hr.owned hc hp hf
  · exact Or.inl hf

theorem Recorded.replaces (hr : Recorded h) (hs : step h c = some h') : Replaces h c h' := by
  refine ⟨?_, ?_, ?_, fun hc hfree hp => perform_evicts hr.owned hc hfree hp⟩
  · intro k i hf
    exact (step_find hr hs hf).imp_right And.left
  · intro k i hf hpos
    obtain hk | ⟨-, -, -, hv⟩ := step_find hr hs hf
    · exact hk
    · have := (victim_used hv).2
      omega
  · intro k i hf hnone
    obtain hk | ⟨-, hc, hfree, hv⟩ := step_find hr hs hf
    · simp [hnone] at hk
    · refine ⟨hc, hfree, (victim_used hv).2, ?_⟩
      intro k' j hj hpin hne
      obtain ⟨hju, rfl⟩ := (find_iff hr.owned).mp hj
      obtain ⟨-, rfl⟩ := (find_iff hr.owned).mp hf
      exact hr.victim_oldest hv hju hpin fun he => hne (by rw [he])

/-- The replacement policy over whole runs from a fresh pool: the pins of a page are its fetches
less its unpins since it was loaded, every step replaces as described, and a call that needs a page
throws for lack of buffers exactly if all slots are pinned, and has then changed nothing. -/
theorem run_replacement {poolSize : ℕ} {raw : ℕ → BufferEntry n} {disk : Disk} {calls : List Call}
    (hrun : MTr (fun h c h' => step h c = some h') (init (new poolSize raw disk)) calls h) :
    (∀ (k : PageId) i, h.pool.hashTable.find k.1 k.2 = some i →
      (h.pool.bufferPool i).pin = h.gets k - h.unpins k) ∧
    (∀ c h', step h c = some h' → Replaces h c h') ∧
    ∀ c, h.pool.Needs c →
      ((∃ t, c.perform h.pool = .error .noBuf t) ↔ h.pool.AllPinned) ∧
        ∀ t, c.perform h.pool = .error .noBuf t → t = h.pool := by
  have hr := mTr_trInv recorded_step hrun (recorded_init poolSize raw disk)
  exact ⟨fun k i hf => (hr.pins k i hf).1, fun c h' hs => hr.replaces hs,
    fun c hc => hr.noBuf_iff hc⟩

/-- Two buffers and three pages: the page that was touched again stays, the other one goes. -/
theorem run_replacement_three_pages : ∃ h : PoolHistory 4096,
    MTr (fun h c h' => step h c = some h')
      (init (new 2 (fun _ => ⟨false, 0, 0, fun _ => 0, 0⟩) fun _ => some ⟨4 * 4096, fun _ => 0⟩))
      [.getPage 3 0 true, .getPage 3 1 true, .unpinPage 3 0, .unpinPage 3 1, .markDirty 3 0,
        .getPage 3 2 true] h ∧
    h.pool.hashTable.find 3 0 = some 0 ∧ h.pool.hashTable.find 3 1 = none ∧
    h.pool.hashTable.find 3 2 = some 1 ∧
    (h.pool.bufferPool 1).pin = h.gets (3, 2) - h.unpins (3, 2) := by
  have hexec : (exec step
      (init (new 2 (fun _ => ⟨false, 0, 0, fun _ => 0, 0⟩) fun _ => some ⟨4 * 4096, fun _ => 0⟩))
      [.getPage 3 0 true, .getPage 3 1 true, .unpinPage 3 0, .unpinPage 3 1, .markDirty 3 0,
        .getPage 3 2 true] : Option (PoolHistory 4096)).any (fun h =>
          h.pool.hashTable.find 3 0 = some 0 ∧ h.pool.hashTable.find 3 1 = none ∧
          h.pool.hashTable.find 3 2 = some 1) = true := by
    decide +kernel
  obtain ⟨h, hs, hp⟩ := exists_mTr_of_exec hexec
  obtain ⟨h0, h1, h2⟩ := of_decide_eq_true hp
  exact ⟨h, hs, h0, h1, h2, (run_replacement hs).1 (3, 2) 1 h2⟩

end PoolHistory

end AlphaDb.Io
