import AlphaDb.Transaction.LockQueue

/-! What an entry says about the holders of its item: the records, the mode and the count. A shared
grant never sets the mode, and a release goes by the mode. -/
namespace AlphaDb.Transaction

open Trace

namespace LockEntry

variable {e : LockEntry} {txnId : TxnId} {mode : LockMode}

def Holds (e : LockEntry) (txnId : TxnId) (mode : LockMode) : Prop :=
  ⟨txnId, mode, .granted⟩ ∈ e.waitList

/-- The records of the holders in a mode. -/
def holders (e : LockEntry) (mode : LockMode) : List Record :=
  e.waitList.filter fun r => r.mode = mode ∧ r.status = .granted

/-- The mode and the count are those of the granted records. -/
structure Bookkept (e : LockEntry) : Prop where
  exclusive : e.currentLockMode = .exclusive ↔ ∃ txnId, e.Holds txnId .exclusive
  shared : e.currentLockMode = .shared ↔ ∃ txnId, e.Holds txnId .shared
  cnt : e.sharedLockCnt = (e.holders .shared).length

/-- A release by a holder deletes its record, and no other. -/
def ReleasesExactly (e : LockEntry) : Prop :=
  ∀ txnId mode, e.Holds txnId mode →
    (e.release txnId).2.waitList = e.waitList.filter fun r => r.txnId ≠ txnId

end LockEntry

namespace LockQueue

open LockEntry

variable {s t : LockQueue} {e : LockEntry} {txnId : TxnId} {mode : LockMode} {a : QueueStep}
  {steps : List QueueStep}

/-- A transaction unlocks only what it was granted. -/
def UnlocksGranted (s : LockQueue) : QueueStep → Prop
  | .unlock txnId => ∃ r ∈ s.entry.waitList, r.txnId = txnId ∧ r.status = .granted
  | _ => True

instance : ∀ (s : LockQueue) (a : QueueStep), Decidable (s.UnlocksGranted a)
  | _, .request .. => .isTrue trivial
  | _, .evaluate .. => .isTrue trivial
  | s, .unlock txnId =>
    inferInstanceAs (Decidable (∃ r ∈ s.entry.waitList, r.txnId = txnId ∧ r.status = .granted))

/-- The predicate of a shared request is evaluated with its transaction at the head. -/
def SharedFirst (s : LockQueue) : QueueStep → Prop
  | .evaluate txnId => s.inWait txnId = some .shared ∧
      s.entry.waitList.head?.map Record.txnId = some txnId
  | _ => False

instance : ∀ (s : LockQueue) (a : QueueStep), Decidable (s.SharedFirst a)
  | _, .request .. => .isFalse id
  | s, .evaluate txnId =>
    inferInstanceAs (Decidable (s.inWait txnId = some .shared ∧
      s.entry.waitList.head?.map Record.txnId = some txnId))
  | _, .unlock .. => .isFalse id

/-- What holds in every run: the mode and the count of an entry are those of its granted records,
but for the mode of shared ones. -/
structure Counted (s : LockQueue) : Prop where
  disciplined : Disciplined s
  notShared : s.entry.currentLockMode ≠ .shared
  exclusive : s.entry.currentLockMode = .exclusive ↔ ∃ txnId, s.entry.Holds txnId .exclusive
  cnt : s.entry.sharedLockCnt = (s.entry.holders .shared).length

theorem counted_init : Counted (init (.new .none 0)) := by
  refine ⟨disciplined_init, ?_, ?_, ?_⟩ <;> simp [init, LockEntry.new, Holds, holders]

/-- The bookkeeping is right exactly as long as nobody holds the item shared. -/
theorem bookkept_iff (h : Counted s) :
    s.entry.Bookkept ↔ ¬ ∃ txnId, s.entry.Holds txnId .shared := by
  constructor
  · exact fun hb hs => h.notShared (hb.shared.mpr hs)
  · intro hn
    exact ⟨h.exclusive, ⟨fun hm => absurd hm h.notShared, fun hs => absurd hs hn⟩, h.cnt⟩

theorem holds_release {txnId' : TxnId} : (e.release txnId).2.Holds txnId' mode ↔
    e.Holds txnId' mode ∧ ¬ (txnId' = txnId ∧ mode = e.currentLockMode) := by
  simp only [Holds, release_waitList, List.mem_filter, decide_eq_true_eq, Ne, Record.mk.injEq,
    and_true]

/-- Only a shared entry goes by the count. -/
theorem release_of_ne (hm : e.currentLockMode ≠ .shared) :
    (e.release txnId).2.currentLockMode = .none ∧
      (e.release txnId).2.sharedLockCnt = e.sharedLockCnt := by
  unfold release
  cases hc : e.currentLockMode with
  | none => simp
  | shared => exact absurd hc hm
  | exclusive => simp

theorem holders_release (hm : e.currentLockMode ≠ .shared) :
    (e.release txnId).2.holders .shared = e.holders .shared := by
  rw [holders, release_waitList, List.filter_filter]
  apply List.filter_congr
  intro r _
  simp only [← Bool.decide_and, decide_eq_decide]
  constructor
  · exact fun h => h.1
  · rintro h
    refine ⟨h, ?_⟩
    rintro rfl
    exact hm h.1

theorem counted_request (h : Counted s) (hs : step s (.request txnId mode) = some t) :
    Counted t := by
  have hd := disciplined_step _ _ _ hs h.disciplined
  simp only [step] at hs
  split at hs
  · obtain rfl := Option.some.inj hs
    refine ⟨hd, h.notShared, ?_, ?_⟩
    · simpa [Holds, push] using h.exclusive
    · simpa [holders, push] using h.cnt
  · simp at hs

/-- What a grant adds to the holders, and that only an exclusive one sets the mode. -/
theorem granted_holds (h : Counted s) (hw : s.inWait txnId = some mode)
    (he : s.entry.evaluate txnId mode = some (true, e)) :
    (∀ txnId' mode', e.Holds txnId' mode' ↔
      s.entry.Holds txnId' mode' ∨ (txnId' = txnId ∧ mode' = mode)) ∧
    ((mode = .exclusive ∧ e.currentLockMode = .exclusive ∧
        e.sharedLockCnt = s.entry.sharedLockCnt ∧
        (e.holders .shared).length = (s.entry.holders .shared).length) ∨
      (mode = .shared ∧ e.currentLockMode = s.entry.currentLockMode ∧
        e.sharedLockCnt = s.entry.sharedLockCnt + 1 ∧
        (e.holders .shared).length = (s.entry.holders .shared).length + 1)) := by
  obtain ⟨pre, post, hl, hl', -⟩ := h.disciplined.granted hw he
  have hmem := (h.disciplined.waits txnId mode).mp hw
  have hmode := h.disciplined.modes _ hmem
  constructor
  · intro txnId' mode'
    simp only [Holds, hl, hl', List.mem_append, List.mem_cons, Record.mk.injEq]
    simp only [and_true, reduceCtorEq, and_false, false_or]
    tauto
  · obtain ⟨_, _, _, -, ⟨hb, -⟩ | ⟨-, -, -, -, hcase⟩⟩ := evaluate_eq_some he
    · simp at hb
    rcases hcase with ⟨rfl, -, hm, hc⟩ | ⟨hne, -, hm, hc⟩
    · exact Or.inl ⟨rfl, hm, hc, by simp [holders, hl, hl']⟩
    · right
      have hshared : mode = .shared := by
        cases mode with
        | none => exact absurd rfl hmode
        | shared => rfl
        | exclusive => exact absurd rfl hne
      subst hshared
      refine ⟨rfl, hm, hc, ?_⟩
      simp [holders, hl, hl']
      omega

theorem counted_grant (h : Counted s) (hw : s.inWait txnId = some mode)
    (he : s.entry.evaluate txnId mode = some (true, e)) :
    Counted { s with entry := e, inWait := Function.update s.inWait txnId none } := by
  have hd := disciplined_grant h.disciplined hw he
  obtain ⟨hholds, hcase⟩ := granted_holds h hw he
  rcases hcase with ⟨rfl, hm, hc, hlen⟩ | ⟨rfl, hm, hc, hlen⟩
  · refine ⟨hd, by simp [hm], ?_, ?_⟩
    · exact iff_of_true hm ⟨txnId, (hholds _ _).mpr (Or.inr ⟨rfl, rfl⟩)⟩
    · exact hc.trans (h.cnt.trans (by rw [hlen]))
  · refine ⟨hd, fun hs => h.notShared (hm.symm.trans hs), ?_, ?_⟩
    · dsimp only
      rw [hm, h.exclusive]
      simp [hholds]
    · dsimp only
      rw [hc, h.cnt, hlen]
      push_cast
      rfl

/-- An exclusive holder is the only holder. -/
theorem Counted.holder_unique (h : Counted s) {txnId' : TxnId} {mode' : LockMode}
    (hx : s.entry.Holds txnId .exclusive) (ho : s.entry.Holds txnId' mode') :
    txnId' = txnId ∧ mode' = .exclusive := by
  obtain ⟨g, rest, hl, -, hrest, hone⟩ := granted_prefix h.disciplined.discipline
  have hmem : ∀ r ∈ s.entry.waitList, r.status = .granted → r ∈ g := by
    intro r hr hg
    rw [hl, List.mem_append] at hr
    rcases hr with hr | hr
    · exact hr
    · have := hrest r hr
      simp [hg] at this
  have hgx := hmem _ hx rfl
  have hgo := hmem _ ho rfl
  rcases hone with ⟨r, rfl⟩ | hshared
  · have heq := (List.mem_singleton.mp hgo).trans (List.mem_singleton.mp hgx).symm
    exact ⟨congrArg Record.txnId heq, congrArg Record.mode heq⟩
  · have := hshared _ hgx
    simp at this

theorem counted_unlock (h : Counted s) (hu : s.UnlocksGranted (.unlock txnId)) :
    Counted { s with entry := (s.entry.release txnId).2 } := by
  obtain ⟨hmode, hcnt⟩ : (s.entry.release txnId).2.currentLockMode = .none ∧
      (s.entry.release txnId).2.sharedLockCnt = s.entry.sharedLockCnt :=
    release_of_ne h.notShared
  refine ⟨disciplined_unlock h.disciplined, by simp [hmode], ?_, ?_⟩
  · dsimp only
    rw [hmode]
    refine iff_of_false (by simp) ?_
    rintro ⟨txnId', hx⟩
    obtain ⟨hx, hne⟩ := holds_release.mp hx
    obtain ⟨⟨_, mode, _⟩, hr, hid, rfl⟩ := hu
    -- the holder that unlocks is the exclusive one, and its record is deleted
    have huniq := h.holder_unique hx hr
    exact hne ⟨huniq.1.symm.trans hid, (h.exclusive.mpr ⟨_, hx⟩).symm⟩
  · exact hcnt.trans (by rw [h.cnt, holders_release h.notShared])

theorem step_evaluate (hs : step s (.evaluate txnId) = some t) :
    ∃ mode b e, s.inWait txnId = some mode ∧ s.entry.evaluate txnId mode = some (b, e) ∧
      t = { s with
        entry := e
        inWait := if b then Function.update s.inWait txnId none else s.inWait } := by
  obtain ⟨mode, hw, hs⟩ := Option.bind_eq_some_iff.mp hs
  obtain ⟨⟨b, e⟩, he, rfl⟩ := Option.map_eq_some_iff.mp hs
  exact ⟨mode, b, e, hw, he, rfl⟩

/-- A predicate that does not hold leaves the queue as it is. -/
theorem step_of_not_granted {inWait : TxnId → Option LockMode}
    (he : s.entry.evaluate txnId mode = some (false, e)) (hi : inWait = s.inWait) :
    { s with entry := e, inWait := inWait } = s := by
  obtain ⟨_, _, _, -, ⟨-, rfl⟩ | ⟨hb, -⟩⟩ := evaluate_eq_some he
  · rw [hi]
  · simp at hb

theorem counted_step : TrInv (Guarded UnlocksGranted step) Counted := by
  intro s a t hs h
  cases a with
  | request txnId mode => exact counted_request h hs.2
  | unlock txnId =>
    obtain rfl := Option.some.inj hs.2
    exact counted_unlock h hs.1
  | evaluate txnId =>
    obtain ⟨mode, b, e, hw, he, rfl⟩ := step_evaluate hs.2
    cases b with
    | true => exact counted_grant h hw he
    | false =>
      rw [step_of_not_granted he (by simp)]
      exact h

theorem evaluate_first {r : Record} {rest : List Record} (hl : e.waitList = r :: rest)
    (hr : r.txnId = txnId) : ∃ e', e.evaluate txnId .shared = some (true, e') := by
  simp [evaluate, hl, scan, hr]

/-- A step makes a first shared holder exactly if it evaluates a shared request at the head. -/
theorem shared_step (h : Counted s) (hn : ¬ ∃ txnId, s.entry.Holds txnId .shared)
    (hs : step s a = some t) : (∃ txnId, t.entry.Holds txnId .shared) ↔ s.SharedFirst a := by
  cases a with
  | request txnId mode =>
    refine iff_of_false ?_ id
    rintro ⟨txnId', hh⟩
    simp only [step] at hs
    split at hs
    · obtain rfl := Option.some.inj hs
      exact hn ⟨txnId', by simpa [Holds, push] using hh⟩
    · simp at hs
  | unlock txnId =>
    obtain rfl := Option.some.inj hs
    refine iff_of_false ?_ id
    rintro ⟨txnId', hh⟩
    exact hn ⟨txnId', (holds_release.mp hh).1⟩
  | evaluate txnId =>
    obtain ⟨mode, b, e, hw, he, rfl⟩ := step_evaluate hs
    cases b with
    | true =>
      obtain ⟨pre, post, hl, -, hpre⟩ := h.disciplined.granted hw he
      constructor
      · rintro ⟨txnId', hh⟩
        rcases ((granted_holds h hw he).1 txnId' .shared).mp hh with hh | ⟨-, rfl⟩
        · exact absurd ⟨txnId', hh⟩ hn
        · -- a record in front would be one of a shared holder
          refine ⟨hw, ?_⟩
          cases pre with
          | nil => simp [hl]
          | cons x pre =>
            obtain ⟨hm, hg, -⟩ := hpre x (by simp)
            exact absurd ⟨x.txnId, by simp [Holds, hl, ← hm, ← hg]⟩ hn
      · rintro ⟨hw', -⟩
        obtain rfl := Option.some.inj (hw.symm.trans hw')
        exact ⟨txnId, ((granted_holds h hw he).1 txnId .shared).mpr (Or.inr ⟨rfl, rfl⟩)⟩
    | false =>
      rw [step_of_not_granted he (by simp)]
      refine iff_of_false hn ?_
      rintro ⟨hw', hhead⟩
      obtain rfl := Option.some.inj (hw.symm.trans hw')
      cases hl : s.entry.waitList with
      | nil => simp [hl] at hhead
      | cons r rest =>
        obtain ⟨e', he'⟩ := evaluate_first hl (by simpa [hl] using hhead)
        simp [he'] at he

/-- A shared holder stays: no release deletes its record. -/
theorem shared_stays (h : Counted s) (hs : step s a = some t)
    (hh : ∃ txnId, s.entry.Holds txnId .shared) : ∃ txnId, t.entry.Holds txnId .shared := by
  obtain ⟨txnId', hh⟩ := hh
  refine ⟨txnId', ?_⟩
  cases a with
  | request txnId mode =>
    simp only [step] at hs
    split at hs
    · obtain rfl := Option.some.inj hs
      exact List.mem_append_left _ hh
    · simp at hs
  | unlock txnId =>
    obtain rfl := Option.some.inj hs
    exact holds_release.mpr ⟨hh, fun hm => h.notShared hm.2.symm⟩
  | evaluate txnId =>
    obtain ⟨mode, b, e, hw, he, rfl⟩ := step_evaluate hs
    cases b with
    | true => exact ((granted_holds h hw he).1 _ _).mpr (Or.inl hh)
    | false =>
      rw [step_of_not_granted he (by simp)]
      exact hh

/-- Without shared holders the holder is the exclusive one, and the mode says so. -/
theorem releasesExactly (h : Counted s) (hn : ¬ ∃ txnId, s.entry.Holds txnId .shared) :
    s.entry.ReleasesExactly := by
  intro txnId mode hh
  cases mode with
  | none => exact absurd rfl (h.disciplined.modes _ hh)
  | shared => exact absurd ⟨txnId, hh⟩ hn
  | exclusive =>
    rw [release_waitList, h.exclusive.mpr ⟨txnId, hh⟩]
    apply List.filter_congr
    intro r hr
    simp only [decide_eq_decide]
    refine not_congr ⟨congrArg Record.txnId, fun hid => ?_⟩
    exact h.disciplined.unique hr hh hid

/-- Nobody ever holds the item shared exactly in the runs that evaluate no shared request at the
head: a first shared holder comes in no other way, and stays. -/
theorem run_not_shared (h : MTr (Guarded UnlocksGranted step) s steps t) (hc : Counted s)
    (hn : ¬ ∃ txnId, s.entry.Holds txnId .shared) :
    (¬ ∃ txnId, t.entry.Holds txnId .shared) ↔
      MTr (Guarded (fun s a => s.UnlocksGranted a ∧ ¬ s.SharedFirst a) step) s steps t := by
  induction h with
  | refl => exact iff_of_true hn .refl
  | @stepL s u t a steps hs hrest ih =>
    have hcu := counted_step _ _ _ hs hc
    rw [mTr_guarded_cons hs.2]
    by_cases hf : s.SharedFirst a
    · have hinv : TrInv (Guarded UnlocksGranted step)
          fun s => Counted s ∧ ∃ txnId, s.entry.Holds txnId .shared :=
        fun _ _ _ hs hh => ⟨counted_step _ _ _ hs hh.1, shared_stays hh.1 hs.2 hh.2⟩
      have hh := mTr_trInv hinv hrest ⟨hcu, (shared_step hc hn hs.2).mpr hf⟩
      exact iff_of_false (fun hnt => hnt hh.2) (fun hrun => hrun.1.2 hf)
    · have hnu := fun hh => hf ((shared_step hc hn hs.2).mp hh)
      rw [ih hcu hnu]
      exact ⟨fun hrun => ⟨⟨hs.1, hf⟩, hrun⟩, And.right⟩

/-- Over whole runs in which a transaction unlocks only what it was granted, the bookkeeping is
right and a release deletes exactly the record of the holder, if and only if no shared request was
ever evaluated at the head of the queue. -/
theorem run_bookkept (h : MTr (Guarded UnlocksGranted step) (init (.new .none 0)) steps s) :
    s.entry.Bookkept ∧ s.entry.ReleasesExactly ↔
      MTr (Guarded (fun s a => s.UnlocksGranted a ∧ ¬ s.SharedFirst a) step)
        (init (.new .none 0)) steps s := by
  have hc := mTr_trInv counted_step h counted_init
  rw [← run_not_shared h counted_init (by simp [init, LockEntry.new, Holds])]
  constructor
  · exact fun hb => (bookkept_iff hc).mp hb.1
  · exact fun hn => ⟨(bookkept_iff hc).mpr hn, releasesExactly hc hn⟩

/-- Two exclusive requests, granted one after the other. -/
theorem run_bookkept_exclusive : ∃ s : LockQueue,
    MTr (Guarded UnlocksGranted step) (init (.new .none 0))
      [.request 1 .exclusive, .request 2 .exclusive, .evaluate 2, .evaluate 1, .unlock 1,
        .evaluate 2] s ∧
    s.entry.waitList = [⟨2, .exclusive, .granted⟩] ∧
    s.entry.Bookkept ∧ s.entry.ReleasesExactly := by
  have h : (execGuarded (fun s a => s.UnlocksGranted a ∧ ¬ s.SharedFirst a) step
      (init (.new .none 0))
      [.request 1 .exclusive, .request 2 .exclusive, .evaluate 2, .evaluate 1, .unlock 1,
        .evaluate 2]).any (fun s => s.entry.waitList = [⟨2, .exclusive, .granted⟩]) = true := by
    decide +kernel
  obtain ⟨s, hs, hp⟩ := exists_mTr_of_execGuarded h
  have hu := hs.mono fun _ _ _ hst => (⟨hst.1.1, hst.2⟩ : Guarded UnlocksGranted step _ _ _)
  exact ⟨s, hu, of_decide_eq_true hp, (run_bookkept hu).mpr hs⟩

/-- A shared lock is granted and unlocked: its record stays, and the mode never was shared. -/
theorem shared_never_released : ∃ s : LockQueue,
    MTr (Guarded UnlocksGranted step) (init (.new .none 0))
      [.request 1 .shared, .evaluate 1, .unlock 1] s ∧
    s.entry.waitList = [⟨1, .shared, .granted⟩] ∧
    ¬ s.entry.Bookkept ∧ ¬ s.entry.ReleasesExactly := by
  have h : (execGuarded UnlocksGranted step (init (.new .none 0))
      [.request 1 .shared, .evaluate 1, .unlock 1]).any (fun s =>
        s.entry.waitList = [⟨1, .shared, .granted⟩] ∧ s.entry.currentLockMode = .none) = true := by
    decide +kernel
  obtain ⟨s, hs, hp⟩ := exists_mTr_of_execGuarded h
  obtain ⟨hl, hm⟩ := of_decide_eq_true hp
  have hh : s.entry.Holds 1 .shared := by simp [Holds, hl]
  refine ⟨s, hs, hl, fun hb => ?_, fun hr => ?_⟩
  · have := hb.shared.mpr ⟨1, hh⟩
    simp [hm] at this
  · have := hr 1 .shared hh
    simp [release_waitList, hl, hm] at this

end LockQueue

end AlphaDb.Transaction
