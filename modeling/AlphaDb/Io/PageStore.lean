import AlphaDb.Io.Cache
import AlphaDb.Lib.Trace

/-! The pool and the disk together hold a plain page store: a page reads back as it was last
written, wherever its bytes are at the moment. -/
namespace AlphaDb.Io

section Disk

variable {n : ℕ} {d d' : Disk} {fd page fd' page' : ℤ} {b src : Block n}

theorem putPage_eq_some : d.putPage fd page src = some d' ↔
    ∃ f, d fd = some f ∧ 0 ≤ pageOffset n page ∧
      d' = Function.update d fd (some (f.write (pageOffset n page).toNat src)) := by
  unfold Disk.putPage
  cases hf : d fd with
  | none => simp
  | some f =>
    by_cases ho : pageOffset n page < 0
    · simp [ho]
    · simp [ho, not_lt.mp ho, eq_comm]

theorem page_eq_some : d.page fd page = some b ↔
    ∃ f, d fd = some f ∧ 0 ≤ pageOffset n page ∧
      f.block (pageOffset n page).toNat n = some b := by
  unfold Disk.page
  cases hf : d fd with
  | none => simp
  | some f =>
    by_cases ho : pageOffset n page < 0
    · simp [ho]
    · simp [ho, not_lt.mp ho]

/-- Two pages lie a whole number of page lengths apart. -/
theorem pageOffset_disjoint (n : ℕ) (h : page ≠ page') :
    pageOffset n page + n ≤ pageOffset n page' ∨ pageOffset n page' + n ≤ pageOffset n page := by
  have hstep : ∀ p q : ℤ, p < q → pageOffset n p + n ≤ pageOffset n q := by
    intro p q hpq
    have := mul_le_mul_of_nonneg_right (Int.add_one_le_iff.mpr hpq) (Int.natCast_nonneg n)
    unfold pageOffset
    linarith
  rcases lt_or_gt_of_ne h with h | h
  · exact Or.inl (hstep _ _ h)
  · exact Or.inr (hstep _ _ h)

theorem page_putPage_self (h : d.putPage fd page src = some d') :
    d'.page fd page = some src := by
  obtain ⟨f, hf, ho, rfl⟩ := putPage_eq_some.mp h
  exact page_eq_some.mpr ⟨_, Function.update_self .., ho, ByteFile.block_write_same⟩

/-- Writing a page keeps every other page that is on disk. -/
theorem page_putPage_of_ne (h : d.putPage fd page src = some d')
    (hne : (fd', page') ≠ (fd, page)) (hb : d.page fd' page' = some b) :
    d'.page fd' page' = some b := by
  obtain ⟨f, hf, ho, rfl⟩ := putPage_eq_some.mp h
  obtain ⟨f', hf', ho', hb'⟩ := page_eq_some.mp hb
  by_cases hfd : fd' = fd
  · subst hfd
    have hp : page ≠ page' := by rintro rfl; exact hne rfl
    obtain rfl : f = f' := Option.some.inj (hf.symm.trans hf')
    refine page_eq_some.mpr ⟨_, Function.update_self .., ho', ?_⟩
    apply ByteFile.block_write_disjoint hb'
    have := pageOffset_disjoint n hp
    omega
  · exact page_eq_some.mpr ⟨f', by rw [Function.update_of_ne hfd, hf'], ho', hb'⟩

end Disk

namespace Cache

open BufferManager

variable {n : ℕ} {β : Type} {obs : Block n → β} {pending : PageId → Prop} {c c' : Cache n}
  {k : PageId} {en : BufferEntry n} {b : Block n}

/-- The logical contents of a page: in the pool, or else on disk. -/
def contents (c : Cache n) (k : PageId) : Option (Block n) :=
  match c.entry k with
  | some en => some en.data
  | none => c.disk.page k.1 k.2

/-- As far as `obs` can see, a clean page equals its copy on disk, unless it is pending: handed
out or written, but not yet marked dirty. -/
def Coherent (obs : Block n → β) (pending : PageId → Prop) (c : Cache n) : Prop :=
  ∀ k en, c.entry k = some en → en.dirty = false → ¬ pending k →
    ∃ b, c.disk.page k.1 k.2 = some b ∧ obs b = obs en.data

/-- Pending pages are pinned. -/
def PendingPinned (pending : PageId → Prop) (c : Cache n) : Prop :=
  ∀ k, pending k → ∃ en, c.entry k = some en ∧ 0 < en.pin

/-- Whatever page `c` holds, `c'` holds too, the same as far as `obs` can see. -/
def Keeps (obs : Block n → β) (c c' : Cache n) : Prop :=
  ∀ k b, c.contents k = some b → ∃ b', c'.contents k = some b' ∧ obs b' = obs b

theorem Keeps.refl (c : Cache n) : Keeps obs c c := fun _ b hb => ⟨b, hb, rfl⟩

theorem Keeps.trans {c'' : Cache n} (h : Keeps obs c c') (h' : Keeps obs c' c'') :
    Keeps obs c c'' := by
  intro k b hb
  obtain ⟨b', hb', he⟩ := h k b hb
  obtain ⟨b'', hb'', he'⟩ := h' k b' hb'
  exact ⟨b'', hb'', he'.trans he⟩

theorem contents_of_entry (h : c.entry k = some en) : c.contents k = some en.data := by
  simp [contents, h]

theorem contents_of_none (h : c.entry k = none) : c.contents k = c.disk.page k.1 k.2 := by
  simp [contents, h]

@[simp] theorem set_entry_self : (c.set k en).entry k = some en := by simp [set]

@[simp] theorem set_disk : (c.set k en).disk = c.disk := rfl

theorem set_entry_of_ne {k' : PageId} (h : k' ≠ k) : (c.set k en).entry k' = c.entry k' := by
  simp [set, Function.update, h]

theorem contents_set_of_ne {k' : PageId} (h : k' ≠ k) :
    (c.set k en).contents k' = c.contents k' := by
  simp [contents, set_entry_of_ne h]

/-- Changing one entry keeps coherence, if the new entry is coherent. -/
theorem Coherent.set (h : Coherent obs pending c)
    (hen : en.dirty = false → ¬ pending k →
      ∃ b, c.disk.page k.1 k.2 = some b ∧ obs b = obs en.data) :
    Coherent obs pending (c.set k en) := by
  intro k' en' hk' hd hp
  by_cases he : k' = k
  · subst he
    rw [set_entry_self] at hk'
    obtain rfl := Option.some.inj hk'
    exact hen hd hp
  · rw [set_entry_of_ne he] at hk'
    exact h k' en' hk' hd hp

theorem Coherent.mono {pending' : PageId → Prop} (h : Coherent obs pending c)
    (hp : ∀ k, pending k → pending' k) : Coherent obs pending' c :=
  fun k en hk hd hn => h k en hk hd fun hk' => hn (hp k hk')

theorem PendingPinned.set (h : PendingPinned pending c) (hpos : pending k → 0 < en.pin) :
    PendingPinned pending (c.set k en) := by
  intro k' hk'
  by_cases he : k' = k
  · subst he
    exact ⟨en, set_entry_self, hpos hk'⟩
  · obtain ⟨en', hen', hpos'⟩ := h k' hk'
    exact ⟨en', by rw [set_entry_of_ne he]; exact hen', hpos'⟩

/-- Changing one entry keeps what `obs` sees, if its data looks the same. -/
theorem Keeps.set (hb : c.contents k = some b) (h : obs en.data = obs b) :
    Keeps obs c (c.set k en) := by
  intro k' b' hb'
  by_cases he : k' = k
  · subst he
    obtain rfl := Option.some.inj (hb.symm.trans hb')
    exact ⟨en.data, by simp [contents], h⟩
  · exact ⟨b', by rw [contents_set_of_ne he, hb'], rfl⟩

/-- An entry written back and dropped reads from disk as it was. -/
theorem Evict.keeps (h : Evict c c') (hk : c.Keyed) (hc : Coherent obs pending c)
    (hp : PendingPinned pending c) : Coherent obs pending c' ∧ Keeps obs c c' := by
  cases h with
  | keep => exact ⟨hc, Keeps.refl c⟩
  | @drop k en d hen hpin hw =>
    have hkey := hk k en hen
    have hself : ∃ b, d.page k.1 k.2 = some b ∧ obs b = obs en.data := by
      obtain ⟨hd, rfl⟩ | ⟨-, hput⟩ := hw
      · refine hc k en hen hd ?_
        intro hpend
        obtain ⟨en', hen', hpos⟩ := hp k hpend
        rw [hen] at hen'
        obtain rfl := Option.some.inj hen'
        omega
      · rw [← hkey]
        exact ⟨_, page_putPage_self hput, rfl⟩
    have hother : ∀ (k' : PageId) (b : Block n), k' ≠ k → c.disk.page k'.1 k'.2 = some b →
        d.page k'.1 k'.2 = some b := by
      intro k' b hne hb
      obtain ⟨-, rfl⟩ | ⟨-, hput⟩ := hw
      · exact hb
      · exact page_putPage_of_ne hput (by rw [hkey]; exact hne) hb
    constructor
    · intro k' en' hk' hd hpend
      have hne : k' ≠ k := by rintro rfl; simp [Cache.drop] at hk'
      have hk'' : c.entry k' = some en' := by simpa [Cache.drop, Function.update, hne] using hk'
      obtain ⟨b, hb, hobs⟩ := hc k' en' hk'' hd hpend
      exact ⟨b, hother k' b hne hb, hobs⟩
    · intro k' b hb
      by_cases hne : k' = k
      · subst hne
        rw [contents_of_entry hen] at hb
        obtain rfl := Option.some.inj hb
        obtain ⟨b, hb, hobs⟩ := hself
        exact ⟨b, by rw [contents_of_none (by simp [Cache.drop])]; exact hb, hobs⟩
      · refine ⟨b, ?_, rfl⟩
        cases hent : c.entry k' with
        | none =>
          rw [contents_of_none hent] at hb
          rw [contents_of_none (by simpa [Cache.drop, Function.update, hne] using hent)]
          exact hother k' b hne hb
        | some en' =>
          rw [contents_of_entry hent] at hb
          have : (c.drop k d).entry k' = some en' := by
            simpa [Cache.drop, Function.update, hne] using hent
          rw [contents_of_entry this, hb]

theorem Sync.keeps (h : Sync c c') (hc : Coherent obs pending c) :
    Coherent obs pending c' ∧ Keeps obs c c' := by
  obtain ⟨hen, hput⟩ := h
  rename_i k en d
  have hself := page_putPage_self hput
  have hother : ∀ (k' : PageId) (b : Block n), k' ≠ k → c.disk.page k'.1 k'.2 = some b →
      d.page k'.1 k'.2 = some b := fun k' b hne hb => page_putPage_of_ne hput hne hb
  constructor
  · intro k' en' hk' hd hpend
    by_cases hne : k' = k
    · subst hne
      rw [set_entry_self] at hk'
      obtain rfl := Option.some.inj hk'
      exact ⟨_, hself, rfl⟩
    · rw [set_entry_of_ne hne] at hk'
      obtain ⟨b, hb, hobs⟩ := hc k' en' hk' hd hpend
      exact ⟨b, hother k' b hne hb, hobs⟩
  · intro k' b hb
    by_cases hne : k' = k
    · subst hne
      rw [contents_of_entry hen] at hb
      exact ⟨b, by simpa [contents] using hb, rfl⟩
    · refine ⟨b, ?_, rfl⟩
      rw [contents_set_of_ne hne]
      cases hent : c.entry k' with
      | none =>
        rw [contents_of_none hent] at hb
        simpa [contents, hent] using hother k' b hne hb
      | some en' => simpa [contents, hent] using hb

theorem Sync.pendingPinned (h : Sync c c') (hp : PendingPinned pending c) :
    PendingPinned pending c' := by
  obtain ⟨hen, -⟩ := h
  rename_i k en d
  intro k' hk'
  obtain ⟨en', hen', hpos⟩ := hp k' hk'
  by_cases hne : k' = k
  · subst hne
    rw [hen] at hen'
    obtain rfl := Option.some.inj hen'
    exact ⟨_, set_entry_self, hpos⟩
  · exact ⟨en', by rw [set_entry_of_ne hne]; exact hen', hpos⟩

theorem Evict.pendingPinned (h : Evict c c') (hp : PendingPinned pending c) :
    PendingPinned pending c' := by
  intro k hk
  obtain ⟨en, hen, hpos⟩ := hp k hk
  exact ⟨en, h.pinned hen hpos, hpos⟩

theorem Evict.keyed (h : Evict c c') (hk : c.Keyed) : c'.Keyed :=
  fun k en hen => hk k en (h.entry_some hen)

/-- Dropping any number of pages keeps what `obs` sees. -/
theorem keeps_of_evicts (h : Relation.ReflTransGen Evict c c') (hk : c.Keyed)
    (hc : Coherent obs pending c) (hp : PendingPinned pending c) :
    Coherent obs pending c' ∧ PendingPinned pending c' ∧ Keeps obs c c' := by
  induction h using Relation.ReflTransGen.head_induction_on with
  | refl => exact ⟨hc, hp, Keeps.refl _⟩
  | head h _ ih =>
    obtain ⟨hc', hkeep⟩ := h.keeps hk hc hp
    obtain ⟨hc'', hp'', hkeep'⟩ := ih (h.keyed hk) hc' (h.pendingPinned hp)
    exact ⟨hc'', hp'', hkeep.trans hkeep'⟩

theorem keeps_of_syncs (h : Relation.ReflTransGen Sync c c')
    (hc : Coherent obs pending c) (hp : PendingPinned pending c) :
    Coherent obs pending c' ∧ PendingPinned pending c' ∧ Keeps obs c c' := by
  induction h using Relation.ReflTransGen.head_induction_on with
  | refl => exact ⟨hc, hp, Keeps.refl _⟩
  | head h _ ih =>
    obtain ⟨hc', hkeep⟩ := h.keeps hc
    obtain ⟨hc'', hp'', hkeep'⟩ := ih hc' (h.pendingPinned hp)
    exact ⟨hc'', hp'', hkeep.trans hkeep'⟩

end Cache

end AlphaDb.Io
