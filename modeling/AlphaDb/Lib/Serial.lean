import Mathlib

/-! Operations in a list brought together into one block for each key. Where two operations that
do not commute stand in the order of their keys, the blocks have the effect of the list. -/
namespace Serial

variable {α κ σ : Type*} {f : σ → α → σ} {s : σ} {l : List α} {a b : α}

/-- Two operations have the same effect in both orders. -/
def Commute (f : σ → α → σ) (a b : α) : Prop := ∀ s, f (f s a) b = f (f s b) a

theorem foldl_concat_of_commute (h : ∀ a ∈ l, Commute f a b) :
    f (l.foldl f s) b = l.foldl f (f s b) := by
  induction l generalizing s with
  | nil => rfl
  | cons a l ih =>
    rw [List.foldl_cons, List.foldl_cons, ih fun x hx => h x (List.mem_cons_of_mem _ hx),
      h a List.mem_cons_self s]

/-- The operations with a property come first, if each of them commutes with those without it that
stand before it. -/
theorem foldl_filter_append (p : α → Prop) [DecidablePred p]
    (h : l.Pairwise fun a b => ¬ p a → p b → Commute f a b) :
    (l.filter (fun a => p a) ++ l.filter fun a => ¬ p a).foldl f s = l.foldl f s := by
  induction l generalizing s with
  | nil => rfl
  | cons a l ih =>
    obtain ⟨ha, hl⟩ := List.pairwise_cons.mp h
    rw [List.foldl_cons, ← ih hl]
    by_cases hp : p a
    · simp [hp]
    · -- the operation is moved behind those of the rest that have the property
      have hmove : f ((l.filter fun a => p a).foldl f s) a =
          (l.filter fun a => p a).foldl f (f s a) := by
        apply foldl_concat_of_commute
        intro b hb
        rw [List.mem_filter, decide_eq_true_eq] at hb
        exact fun s => (ha b hb.1 hp hb.2 s).symm
      simp [hp, List.foldl_append, hmove]

/-- The operations of every key together, one block after another. -/
def blocks [DecidableEq κ] (key : α → κ) (keys : List κ) (l : List α) : List α :=
  keys.flatMap fun k => l.filter fun a => key a = k

variable [DecidableEq κ] {key : α → κ} {k : κ} {keys : List κ}

@[simp] theorem blocks_nil : blocks key [] l = [] := rfl

@[simp] theorem blocks_cons :
    blocks key (k :: keys) l = (l.filter fun a => key a = k) ++ blocks key keys l := rfl

/-- A block takes nothing from the operations of another key. -/
theorem blocks_filter_ne (hk : k ∉ keys) :
    blocks key keys (l.filter fun a => ¬ key a = k) = blocks key keys l := by
  induction keys with
  | nil => rfl
  | cons i keys ih =>
    obtain ⟨hi, hk⟩ := not_or.mp (List.mem_cons.not.mp hk)
    rw [blocks_cons, blocks_cons, ih hk, List.filter_filter]
    congr 1
    apply List.filter_congr
    intro a _
    by_cases ha : key a = i
    · simp [ha, Ne.symm hi]
    · simp [ha]

/-- The blocks have the effect of the list, if their order agrees with the order of any two
operations of different keys that do not commute. -/
theorem foldl_blocks (key : α → κ) (before : κ → κ → Prop) (hnodup : keys.Nodup)
    (hkeys : keys.Pairwise fun i j => ¬ before j i) (hmem : ∀ a ∈ l, key a ∈ keys)
    (hl : l.Pairwise fun a b =>
      Commute f a b ∨ key a = key b ∨ before (key a) (key b)) :
    (blocks key keys l).foldl f s = l.foldl f s := by
  induction keys generalizing l s with
  | nil =>
    obtain rfl : l = [] := List.eq_nil_iff_forall_not_mem.mpr fun a ha => by simpa using hmem a ha
    rfl
  | cons k keys ih =>
    obtain ⟨hk, hnodup⟩ := List.nodup_cons.mp hnodup
    obtain ⟨hfirst, hkeys⟩ := List.pairwise_cons.mp hkeys
    -- nothing of a later key holds back an operation of the first
    have hfront : l.Pairwise fun a b => ¬ key a = k → key b = k → Commute f a b := by
      refine hl.imp_of_mem ?_
      rintro a b ha - (hc | he | hb) hne rfl
      · exact hc
      · exact absurd he hne
      · exact absurd hb (hfirst _ ((List.mem_cons.mp (hmem a ha)).resolve_left hne))
    rw [← foldl_filter_append (fun a => key a = k) hfront, blocks_cons, List.foldl_append,
      List.foldl_append, ← blocks_filter_ne hk]
    refine ih hnodup hkeys ?_ (hl.sublist List.filter_sublist)
    intro a ha
    rw [List.mem_filter, decide_eq_true_eq] at ha
    exact (List.mem_cons.mp (hmem a ha.1)).resolve_left ha.2

end Serial
