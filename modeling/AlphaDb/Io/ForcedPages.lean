import AlphaDb.Io.Eviction
import AlphaDb.Io.StoreRuns

/-! What a crash leaves of a page. Only the disk survives, and once a page was forced it has there
what the page store had at that moment, or at a later one. -/
namespace AlphaDb.Io

open EStateM Trace BufferManager Cache

namespace Cache

variable {n : ℕ} {c c' : Cache n} {k : PageId} {b d : Block n}

/-- Writing back changes a page on disk only to its contents. -/
theorem Evict.page (h : Evict c c') (hk : c.Keyed) (hb : c.contents k = some b)
    (hd : c.disk.page k.1 k.2 = some d) :
    c'.disk.page k.1 k.2 = some d ∨ c'.disk.page k.1 k.2 = some b := by
  cases h with
  | keep => exact Or.inl hd
  | @drop k' en d' hen _ hw =>
    obtain ⟨-, rfl⟩ | ⟨-, hput⟩ := hw
    · exact Or.inl hd
    · by_cases he : k = k'
      · subst he
        rw [contents_of_entry hen] at hb
        obtain rfl := Option.some.inj hb
        right
        rw [← hk k en hen]
        exact page_putPage_self hput
      · left
        exact page_putPage_of_ne hput (by rw [hk k' en hen]; exact he) hd

theorem Sync.page (h : Sync c c') (hb : c.contents k = some b)
    (hd : c.disk.page k.1 k.2 = some d) :
    c'.disk.page k.1 k.2 = some d ∨ c'.disk.page k.1 k.2 = some b := by
  cases h with
  | @write k' en d' hen hput =>
    by_cases he : k = k'
    · subst he
      rw [contents_of_entry hen] at hb
      obtain rfl := Option.some.inj hb
      exact Or.inr (page_putPage_self hput)
    · exact Or.inl (page_putPage_of_ne hput he hd)

theorem Sync.contents (h : Sync c c') (hb : c.contents k = some b) : c'.contents k = some b := by
  cases h with
  | @write k' en d' hen hput =>
    by_cases he : k = k'
    · subst he
      rw [contents_of_entry set_entry_self, ← hb, contents_of_entry hen]
    · rw [contents_set_of_ne he]
      cases hk : c.entry k with
      | some en' =>
        rw [contents_of_entry hk] at hb
        rw [contents_of_entry (show (⟨c.entry, d'⟩ : Cache n).entry k = _ from hk), hb]
      | none =>
        rw [contents_of_none hk] at hb
        rw [contents_of_none (show (⟨c.entry, d'⟩ : Cache n).entry k = _ from hk)]
        exact page_putPage_of_ne hput he hb

theorem page_of_syncs (h : Relation.ReflTransGen Sync c c') (hb : c.contents k = some b)
    (hd : c.disk.page k.1 k.2 = some d) :
    c'.disk.page k.1 k.2 = some d ∨ c'.disk.page k.1 k.2 = some b := by
  induction h using Relation.ReflTransGen.head_induction_on generalizing d with
  | refl => exact Or.inl hd
  | head h _ ih =>
    obtain hd' | hd' := h.page hb hd
    · exact ih (h.contents hb) hd'
    · exact Or.inr ((ih (h.contents hb) hd').elim id id)

end Cache

namespace BufferManager

variable {n : ℕ} {p q : BufferManager n} {fd page : ℤ} {slot : ℕ} {u : Unit}

/-- The loop over `is` can only clear the dirty bit of an entry. -/
structure Cleaned (p q : BufferManager n) (i : ℕ) : Prop where
  fd : (q.bufferPool i).fd = (p.bufferPool i).fd
  page : (q.bufferPool i).page = (p.bufferPool i).page
  dirty : (p.bufferPool i).dirty = false → (q.bufferPool i).dirty = false

theorem Cleaned.trans {r : BufferManager n} {i : ℕ} (h : Cleaned p q i) (h' : Cleaned q r i) :
    Cleaned p r i :=
  ⟨h'.fd.trans h.fd, h'.page.trans h.page, fun hd => h'.dirty (h.dirty hd)⟩

/-- The entry of one round is clean behind it, if it is one of the page. -/
theorem forceSlot_cleaned {i : ℕ} (hf : forceSlot fd page i p = .ok u q) :
    (∀ j, Cleaned p q j) ∧ ((p.bufferPool i).fd = fd → (p.bufferPool i).page = page →
      (q.bufferPool i).dirty = false) := by
  obtain ⟨hnot, rfl⟩ | ⟨-, d, -, rfl⟩ := forceSlot_ok hf
  · refine ⟨fun j => ⟨rfl, rfl, id⟩, ?_⟩
    intro hfd hpage
    by_contra hd
    exact hnot ⟨hfd, Or.inl hpage, by simpa using hd⟩
  · refine ⟨?_, fun _ _ => by simp [BufferManager.setEntry]⟩
    intro j
    by_cases hj : j = i
    · subst hj
      exact ⟨by simp [BufferManager.setEntry], by simp [BufferManager.setEntry],
        fun _ => by simp [BufferManager.setEntry]⟩
    · exact ⟨by simp [BufferManager.setEntry, hj], by simp [BufferManager.setEntry, hj],
        fun hd => by simpa [BufferManager.setEntry, hj] using hd⟩

theorem forceSlots_cleaned {is : List ℕ} (hf : forceSlots fd page is p = .ok u q) :
    (∀ j, Cleaned p q j) ∧ ∀ i ∈ is, (p.bufferPool i).fd = fd → (p.bufferPool i).page = page →
      (q.bufferPool i).dirty = false := by
  induction is generalizing p with
  | nil =>
    obtain ⟨-, rfl⟩ := pure_ok_iff.mp hf
    exact ⟨fun i => ⟨rfl, rfl, id⟩, by simp⟩
  | cons i is ih =>
    obtain ⟨_, v, hi, hrest⟩ := bind_ok_iff.mp hf
    obtain ⟨hone, hself⟩ := forceSlot_cleaned hi
    obtain ⟨hmore, hclean⟩ := ih hrest
    refine ⟨fun j => (hone j).trans (hmore j), ?_⟩
    intro j hj hfd hpage
    rcases List.mem_cons.mp hj with rfl | hj
    · exact (hmore j).dirty (hself hfd hpage)
    · exact hclean j hj ((hone j).fd.trans hfd) ((hone j).page.trans hpage)

/-- Behind a force the page is not dirty. -/
theorem forcePage_clean {en : BufferEntry n} (h : Owned p) (hf : forcePage fd page p = .ok u q)
    (hen : q.cache.entry (fd, page) = some en) : en.dirty = false := by
  have hx := get_bind_ok_iff.mp hf
  obtain ⟨hcleaned, hself⟩ := forceSlots_cleaned hx
  obtain ⟨-, hhash, -⟩ := forceSlots_frame hx
  obtain ⟨i, hi, rfl⟩ := cache_entry_eq_some.mp hen
  rw [hhash] at hi
  obtain ⟨hu, hfd, hpage⟩ := (h.hash fd page i).mp hi
  exact hself i hu hfd hpage

end BufferManager

namespace StoreRun

variable {n : ℕ} {s t v : StoreRun n} {fd page : ℤ} {k : PageId} {b d : Block n}
  {a : StoreCall n} {calls later : List (StoreCall n)}

/-- A step of a run. -/
abbrev Step (s : StoreRun n) (a : StoreCall n) (t : StoreRun n) : Prop := step s a = some t

/-- One call moves a page on disk at most to what the store has. -/
theorem page_step (hn : 0 < n) (h : Refines s) (hs : Step s a t) (hb : s.store k = some b)
    (hd : s.pool.disk.page k.1 k.2 = some d) :
    t.pool.disk.page k.1 k.2 = some d ∨ t.pool.disk.page k.1 k.2 = some b := by
  have hcont := h.holds k b hb
  cases a with
  | getPage fd page mp =>
    obtain rfl | ⟨slot, q, hg, rfl⟩ := step_getPage hs
    · exact Or.inl hd
    · obtain ⟨en, -, hc, -⟩ | ⟨-, c, b', hev, -, hc, -⟩ := getPage_cache hn h.owned hg
      · rw [show q.disk = s.pool.disk from congrArg Cache.disk hc]
        exact Or.inl hd
      · rw [show q.disk = c.disk from congrArg Cache.disk hc]
        exact hev.page h.keyed hcont hd
  | allocatePage fd page =>
    obtain rfl | ⟨slot, q, ha, rfl⟩ := step_allocatePage hs
    · exact Or.inl hd
    · obtain ⟨hr, -⟩ | ⟨-, c, b', slot', -, hev, hc, -⟩ := allocatePage_cache h.owned ha
      · cases hr
      · rw [show q.disk = c.disk from congrArg Cache.disk hc]
        exact hev.page h.keyed hcont hd
  | unpinPage fd page =>
    obtain rfl | ⟨-, u, q, hu, rfl⟩ := step_unpinPage hs
    · exact Or.inl hd
    · obtain ⟨en, -, -, hc⟩ := unpinPage_cache h.owned hu
      rw [show q.disk = s.pool.disk from congrArg Cache.disk hc]
      exact Or.inl hd
  | forcePage fd page =>
    obtain ⟨hpage, u, q, hf, rfl⟩ := step_forcePage hs
    exact page_of_syncs (forcePage_cache (by omega) h.owned hf) hcont hd
  | markDirty fd page =>
    obtain rfl | ⟨u, q, hm, rfl⟩ := step_markDirty hs
    · exact Or.inl hd
    · obtain ⟨en, -, hc⟩ := markDirty_cache h.owned hm
      rw [show q.disk = s.pool.disk from congrArg Cache.disk hc]
      exact Or.inl hd
  | write fd page data =>
    obtain ⟨slot, -, -, rfl⟩ := step_write hs
    exact Or.inl hd

/-- A page that the store has, it has on. -/
theorem store_step (hs : Step s a t) (hb : s.store k ≠ none) : t.store k ≠ none := by
  have hupdate : ∀ (k' : PageId) (b : Block n), Function.update s.store k' (some b) k ≠ none := by
    intro k' b
    by_cases he : k = k'
    · simp [he]
    · simpa [he] using hb
  cases a with
  | getPage fd page mp => obtain rfl | ⟨_, _, -, rfl⟩ := step_getPage hs <;> exact hb
  | allocatePage fd page =>
    obtain rfl | ⟨_, _, -, rfl⟩ := step_allocatePage hs
    · exact hb
    · exact hupdate _ _
  | unpinPage fd page => obtain rfl | ⟨-, _, _, -, rfl⟩ := step_unpinPage hs <;> exact hb
  | forcePage fd page =>
    obtain ⟨-, _, _, -, rfl⟩ := step_forcePage hs
    exact hb
  | markDirty fd page => obtain rfl | ⟨_, _, -, rfl⟩ := step_markDirty hs <;> exact hb
  | write fd page data =>
    obtain ⟨_, -, -, rfl⟩ := step_write hs
    exact hupdate _ _

/-- Behind a force that returns, a page that is not pending is on disk. -/
theorem page_forced (h : Refines s) (hs : Step s (.forcePage fd page) t)
    (hp : s.pending (fd, page) = false) (hb : s.store (fd, page) = some b) :
    t.store (fd, page) = some b ∧ t.pool.disk.page fd page = some b := by
  obtain ⟨hpage, u, q, hf, rfl⟩ := step_forcePage hs
  refine ⟨hb, ?_⟩
  have hr := refines_forcePage hpage h hf
  have hcont := hr.holds (fd, page) b hb
  cases hen : q.cache.entry (fd, page) with
  | none =>
    rw [contents_of_none hen] at hcont
    exact hcont
  | some en =>
    obtain ⟨b', hb', he⟩ := hr.coherent (fd, page) en hen (forcePage_clean h.owned hf hen)
      (by simp [hp])
    obtain rfl : b' = en.data := he
    rw [contents_of_entry hen] at hcont
    rwa [← Option.some.inj hcont]

/-- The calls pass through `v` on their way from `s` to `t`. -/
def Passes (s : StoreRun n) (calls : List (StoreCall n)) (v t : StoreRun n) : Prop :=
  ∃ done rest, calls = done ++ rest ∧ MTr Step s done v ∧ MTr Step v rest t

theorem Passes.start (h : MTr Step s calls t) : Passes s calls s t :=
  ⟨[], calls, rfl, .refl, h⟩

theorem Passes.stepL {w : StoreRun n} (hs : Step s a w) (h : Passes w calls v t) :
    Passes s (a :: calls) v t := by
  obtain ⟨done, rest, rfl, hv, ht⟩ := h
  exact ⟨a :: done, rest, rfl, .stepL hs hv, ht⟩

/-- After any calls the page on disk is as it was, or what the store had before one of them. -/
theorem run_page (hn : 0 < n) (h : MTr Step s calls t) (hr : Refines s) (hb : s.store k ≠ none)
    (hd : s.pool.disk.page k.1 k.2 = some d) :
    t.pool.disk.page k.1 k.2 = some d ∨
      ∃ v, Passes s calls v t ∧ v.store k ≠ none ∧ t.pool.disk.page k.1 k.2 = v.store k := by
  induction h generalizing d with
  | refl => exact Or.inl hd
  | @stepL s w t a calls hs hrest ih =>
    have hw := refines_step hn s a w hs hr
    have hsome := store_step hs hb
    obtain ⟨b, hb'⟩ := Option.ne_none_iff_exists'.mp hb
    obtain hd' | hd' := page_step hn hr hs hb' hd
    · obtain hsame | ⟨v, hv, hmoved⟩ := ih hw hsome hd'
      · exact Or.inl hsame
      · exact Or.inr ⟨v, hv.stepL hs, hmoved⟩
    · right
      obtain hsame | ⟨v, hv, hmoved⟩ := ih hw hsome hd'
      · exact ⟨s, .start (.stepL hs hrest), hb, hsame.trans hb'.symm⟩
      · exact ⟨v, hv.stepL hs, hmoved⟩

/-- A forced page is durable. From the force on, whatever is called afterwards, the page has on disk
the bytes of the force or of a later moment: a crash loses changes, never the forced ones. -/
theorem run_forced {poolSize : ℕ} {raw : ℕ → BufferEntry 4096} {disk : Disk} {fd page : ℤ}
    {b : Block 4096} {calls later : List (StoreCall 4096)} {s u t : StoreRun 4096}
    (h : MTr Step (init poolSize raw disk) calls s) (hp : s.pending (fd, page) = false)
    (hb : s.store (fd, page) = some b) (hf : Step s (.forcePage fd page) u)
    (hl : MTr Step u later t) :
    ∃ v, Passes u later v t ∧ v.store (fd, page) ≠ none ∧
      t.pool.disk.page fd page = v.store (fd, page) := by
  have hr := mTr_trInv (refines_step (by decide)) h (refines_init poolSize raw disk)
  have hu := refines_step (by decide) s _ u hf hr
  obtain ⟨hstore, hdisk⟩ := page_forced hr hf hp hb
  have hsome : u.store (fd, page) ≠ none := by simp [hstore]
  obtain hsame | hmoved := run_page (by decide) hl hu hsome hdisk
  · exact ⟨u, .start hl, hsome, hsame.trans hstore.symm⟩
  · exact hmoved

/-- One buffer, two pages: the page is forced, written again and crowded out by the other. -/
theorem run_forced_crowded : ∃ s u t : StoreRun 4096,
    MTr Step oneBuffer [.allocatePage 3 0, .write 3 0 fun _ => 7, .markDirty 3 0] s ∧
    Step s (.forcePage 3 0) u ∧
    MTr Step u [.write 3 0 fun _ => 8, .markDirty 3 0, .unpinPage 3 0, .allocatePage 3 1] t ∧
    ∃ v : StoreRun 4096, (∃ calls, Passes u calls v t) ∧
      t.pool.disk.page 3 0 = v.store (3, 0) := by
  have h : (exec step oneBuffer
      [.allocatePage 3 0, .write 3 0 fun _ => 7, .markDirty 3 0]).any (fun s =>
        s.pending (3, 0) = false ∧ (s.store (3, 0)).isSome ∧
          (step s (.forcePage 3 0)).any fun u => (exec step u
            [.write 3 0 fun _ => 8, .markDirty 3 0, .unpinPage 3 0, .allocatePage 3 1]).isSome) =
          true := by
    decide +kernel
  obtain ⟨s, hs, hall⟩ := exists_mTr_of_exec h
  obtain ⟨hp, hsome, hforce⟩ := of_decide_eq_true hall
  obtain ⟨b, hb⟩ := Option.isSome_iff_exists.mp hsome
  obtain ⟨u, hu, hrest⟩ := (Option.any_eq_true _ _).mp hforce
  obtain ⟨t, ht⟩ := Option.isSome_iff_exists.mp hrest
  obtain ⟨v, hv, -, hpage⟩ := run_forced hs hp hb hu (mTr_of_exec ht)
  exact ⟨s, u, t, hs, hu, mTr_of_exec ht, v, ⟨_, hv⟩, hpage⟩

end StoreRun

end AlphaDb.Io
