import Mathlib

/-! Finite labelled traces of a step relation, and of a partial step function. -/
namespace Trace

variable {σ α : Type*} {Tr : σ → α → σ → Prop} {s t u : σ} {a : α} {xs ys : List α}

/-- `MTr Tr s xs t`: the labels `xs`, taken one after another, lead from `s` to `t`. -/
inductive MTr (Tr : σ → α → σ → Prop) : σ → List α → σ → Prop
  | refl {s : σ} : MTr Tr s [] s
  | stepL {s u t : σ} {a : α} {xs : List α} : Tr s a u → MTr Tr u xs t → MTr Tr s (a :: xs) t

/-- A predicate that every single transition keeps. -/
def TrInv (Tr : σ → α → σ → Prop) (P : σ → Prop) : Prop :=
  ∀ s a t, Tr s a t → P s → P t

theorem mTr_trInv {P : σ → Prop} (hP : TrInv Tr P) (h : MTr Tr s xs t) (hs : P s) : P t := by
  induction h with
  | refl => exact hs
  | stepL h _ ih => exact ih (hP _ _ _ h hs)

theorem MTr.append (h : MTr Tr s xs t) (h' : MTr Tr t ys u) : MTr Tr s (xs ++ ys) u := by
  induction h with
  | refl => exact h'
  | stepL h _ ih => exact .stepL h (ih h')

theorem MTr.single (h : Tr s a t) : MTr Tr s [a] t := .stepL h .refl

theorem MTr.mono {Tr' : σ → α → σ → Prop} (hT : ∀ s a t, Tr s a t → Tr' s a t)
    (h : MTr Tr s xs t) : MTr Tr' s xs t := by
  induction h with
  | refl => exact .refl
  | stepL h _ ih => exact .stepL (hT _ _ _ h) ih

/-- The transitions of a partial step function that meet a condition before the step. -/
def Guarded (C : σ → α → Prop) (step : σ → α → Option σ) (s : σ) (a : α) (t : σ) : Prop :=
  C s a ∧ step s a = some t

theorem mTr_guarded_cons {C : σ → α → Prop} {step : σ → α → Option σ} (h : step s a = some u) :
    MTr (Guarded C step) s (a :: xs) t ↔ C s a ∧ MTr (Guarded C step) u xs t := by
  constructor
  · intro hrun
    cases hrun with
    | stepL hstep hrest =>
      obtain ⟨hc, hu⟩ := hstep
      obtain rfl := Option.some.inj (hu.symm.trans h)
      exact ⟨hc, hrest⟩
  · rintro ⟨hc, hrest⟩
    exact .stepL ⟨hc, h⟩ hrest

/-- Running a list of labels through a partial step function. -/
def exec (step : σ → α → Option σ) : σ → List α → Option σ
  | s, [] => some s
  | s, a :: xs => (step s a).bind fun u => exec step u xs

theorem mTr_of_exec {step : σ → α → Option σ} (h : exec step s xs = some t) :
    MTr (fun s a t => step s a = some t) s xs t := by
  induction xs generalizing s with
  | nil =>
    obtain rfl : s = t := by simpa [exec] using h
    exact .refl
  | cons a xs ih =>
    obtain ⟨u, hu, ht⟩ := Option.bind_eq_some_iff.mp h
    exact .stepL hu (ih ht)

/-- A run given by its labels, with a test of the state it ends in. -/
theorem exists_mTr_of_exec {step : σ → α → Option σ} {p : σ → Bool}
    (h : (exec step s xs).any p = true) :
    ∃ t, MTr (fun s a t => step s a = some t) s xs t ∧ p t = true := by
  cases ht : exec step s xs with
  | none => simp [ht] at h
  | some t => exact ⟨t, mTr_of_exec ht, by simpa [ht] using h⟩

/-- `exec` that also tests a decidable condition before every step. -/
def execGuarded (C : σ → α → Prop) [∀ s a, Decidable (C s a)] (step : σ → α → Option σ) :
    σ → List α → Option σ :=
  exec fun s a => if C s a then step s a else none

theorem mTr_of_execGuarded {C : σ → α → Prop} [∀ s a, Decidable (C s a)]
    {step : σ → α → Option σ} (h : execGuarded C step s xs = some t) :
    MTr (Guarded C step) s xs t := by
  apply (mTr_of_exec h).mono
  intro s a t hst
  by_cases hc : C s a
  · exact ⟨hc, by simpa [hc] using hst⟩
  · simp [hc] at hst

theorem exists_mTr_of_execGuarded {C : σ → α → Prop} [∀ s a, Decidable (C s a)]
    {step : σ → α → Option σ} {p : σ → Bool} (h : (execGuarded C step s xs).any p = true) :
    ∃ t, MTr (Guarded C step) s xs t ∧ p t = true := by
  cases ht : execGuarded C step s xs with
  | none => simp [ht] at h
  | some t => exact ⟨t, mTr_of_execGuarded ht, by simpa [ht] using h⟩

section Calls

variable {τ β : Type*} {f : α → σ → Option (β × σ)} {g : α → τ → Option (β × τ)}
  {R : σ → τ → Prop} {r : τ}

/-- The answers to the calls `xs`, up to the first call that is undefined. -/
def answers (f : α → σ → Option (β × σ)) : List α → σ → List β
  | [], _ => []
  | a :: xs, s => match f a s with
    | some (b, t) => b :: answers f xs t
    | none => []

/-- In related states a call has one answer, if any, and leads to related states. -/
def Alike (R : σ → τ → Prop) (f : α → σ → Option (β × σ)) (g : α → τ → Option (β × τ)) : Prop :=
  ∀ a s r, R s r → Option.Rel (fun x y => x.1 = y.1 ∧ R x.2 y.2) (f a s) (g a r)

theorem Alike.answers_eq (h : Alike R f g) (hR : R s r) (xs : List α) :
    answers f xs s = answers g xs r := by
  induction xs generalizing s r with
  | nil => rfl
  | cons a xs ih =>
    have hrel := h a s r hR
    rw [answers, answers]
    generalize f a s = x, g a r = y at hrel ⊢
    cases hrel with
    | none => rfl
    | some hxy =>
      dsimp only
      rw [hxy.1, ih hxy.2]

end Calls

end Trace
