import Mathlib

/-! Inversion rules for computations that change a state and may throw, keeping the state
they had reached when they threw. -/
namespace EStateM

variable {ε σ α β : Type} {x : EStateM ε σ α} {f : α → EStateM ε σ β} {s t : σ} {a : α} {b : β}
  {e e' : ε}

theorem bind_ok_iff : (x >>= f) s = .ok b t ↔ ∃ a u, x s = .ok a u ∧ f a u = .ok b t := by
  change EStateM.bind x f s = _ ↔ _
  unfold EStateM.bind
  cases x s <;> simp

theorem bind_error_iff : (x >>= f) s = .error e t ↔
    x s = .error e t ∨ ∃ a u, x s = .ok a u ∧ f a u = .error e t := by
  change EStateM.bind x f s = _ ↔ _
  unfold EStateM.bind
  cases x s <;> simp

theorem bind_of_ok {u : σ} (h : x s = .ok a u) : (x >>= f) s = f a u := by
  change EStateM.bind x f s = _
  simp [EStateM.bind, h]

@[simp] theorem pure_ok_iff {a' : α} : (pure a : EStateM ε σ α) s = .ok a' t ↔ a = a' ∧ s = t := by
  change EStateM.pure a s = _ ↔ _
  simp [EStateM.pure]

@[simp] theorem pure_ne_error : (pure a : EStateM ε σ α) s ≠ .error e t := by
  change EStateM.pure a s ≠ _
  simp [EStateM.pure]

@[simp] theorem throw_ne_ok : (throw e : EStateM ε σ α) s ≠ .ok a t := by
  change EStateM.throw e s ≠ _
  simp [EStateM.throw]

@[simp] theorem throw_error_iff :
    (throw e : EStateM ε σ α) s = .error e' t ↔ e = e' ∧ s = t := by
  change EStateM.throw e s = _ ↔ _
  simp [EStateM.throw]

@[simp] theorem get_ok_iff {u : σ} : (get : EStateM ε σ σ) s = .ok u t ↔ s = u ∧ s = t := by
  change EStateM.get s = _ ↔ _
  simp [EStateM.get]

@[simp] theorem get_ne_error : (get : EStateM ε σ σ) s ≠ .error e t := by
  change EStateM.get s ≠ _
  simp [EStateM.get]

/-- A computation that reads the state first goes on with the state it reads. -/
theorem get_bind_ok_iff {g : σ → EStateM ε σ β} : (get >>= g) s = .ok b t ↔ g s s = .ok b t :=
  Iff.rfl

theorem get_bind_error_iff {g : σ → EStateM ε σ β} :
    (get >>= g) s = .error e t ↔ g s s = .error e t :=
  Iff.rfl

@[simp] theorem set_ok_iff {u : σ} {v : PUnit} :
    (set u : EStateM ε σ PUnit) s = .ok v t ↔ u = t := by
  change EStateM.set u s = _ ↔ _
  simp [EStateM.set]

@[simp] theorem set_ne_error {u : σ} : (set u : EStateM ε σ PUnit) s ≠ .error e t := by
  change EStateM.set u s ≠ _
  simp [EStateM.set]

@[simp] theorem modify_ok_iff {g : σ → σ} {v : PUnit} :
    (modify g : EStateM ε σ PUnit) s = .ok v t ↔ g s = t := by
  simp [modify, modifyGet, MonadStateOf.modifyGet, EStateM.modifyGet]

@[simp] theorem modify_ne_error {g : σ → σ} :
    (modify g : EStateM ε σ PUnit) s ≠ .error e t := by
  simp [modify, modifyGet, MonadStateOf.modifyGet, EStateM.modifyGet]

/-- The state a computation leaves behind, whether it returns or throws. -/
def after (x : EStateM ε σ α) (s : σ) : σ :=
  match x s with
  | .ok _ t => t
  | .error _ t => t

theorem after_bind_ok {u : σ} (h : x s = .ok a u) : after (x >>= f) s = after (f a) u := by
  simp [after, bind_of_ok h]

theorem after_bind_error (h : x s = .error e t) : after (x >>= f) s = t := by
  simp [after, bind_error_iff.mpr (Or.inl h)]

/-- What holds behind a computation that throws, and behind whatever follows one that returns,
holds behind both. -/
theorem after_bind {R : σ → Prop} (herror : ∀ e t, x s = .error e t → R t)
    (hok : ∀ a t, x s = .ok a t → R (after (f a) t)) : R (after (x >>= f) s) := by
  cases hx : x s with
  | ok a t =>
    rw [after_bind_ok hx]
    exact hok a t hx
  | error e t =>
    rw [after_bind_error hx]
    exact herror e t hx

/-- From a state with `P`, the computation returns in one with `Q` or throws in one with `R`. -/
def Leads (P Q R : σ → Prop) (x : EStateM ε σ α) : Prop :=
  ∀ s, P s → (∀ a t, x s = .ok a t → Q t) ∧ ∀ e t, x s = .error e t → R t

theorem Leads.bind {P Q Q' R : σ → Prop} (hx : Leads P Q R x) (hf : ∀ a, Leads Q Q' R (f a)) :
    Leads P Q' R (x >>= f) := by
  intro s hs
  obtain ⟨hok, herror⟩ := hx s hs
  constructor
  · intro b t h
    obtain ⟨a, u, hu, h⟩ := bind_ok_iff.mp h
    exact (hf a u (hok a u hu)).1 b t h
  · intro e t h
    obtain h | ⟨a, u, hu, h⟩ := bind_error_iff.mp h
    · exact herror e t h
    · exact (hf a u (hok a u hu)).2 e t h

theorem Leads.after {P Q R : σ → Prop} (h : Leads P Q R x) (hQR : ∀ s, Q s → R s) (hs : P s) :
    R (after x s) := by
  obtain ⟨hok, herror⟩ := h s hs
  unfold EStateM.after
  split
  · next hx => exact hQR _ (hok _ _ hx)
  · next hx => exact herror _ _ hx

/-- The computation returned. -/
def Result.returned (r : Result ε σ α) : Bool :=
  match r with
  | .ok _ _ => true
  | .error _ _ => false

theorem returned_iff {r : Result ε σ α} : r.returned = true ↔ ∃ a t, r = .ok a t := by
  cases r <;> simp [Result.returned]

/-- What the computation returned, if it did. -/
def Result.value (r : Result ε σ α) : Option α :=
  match r with
  | .ok a _ => some a
  | .error _ _ => none

theorem value_eq_some_iff {r : Result ε σ α} : r.value = some a ↔ ∃ t, r = .ok a t := by
  cases r <;> simp [Result.value]

/-- What the computation threw, if it did. -/
def Result.thrown (r : Result ε σ α) : Option ε :=
  match r with
  | .ok _ _ => none
  | .error e _ => some e

theorem thrown_eq_some_iff {r : Result ε σ α} : r.thrown = some e ↔ ∃ t, r = .error e t := by
  cases r <;> simp [Result.thrown]

end EStateM
