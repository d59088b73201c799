import AlphaDb.Lib.Exception

/-! Computations of one thread over a state that a mutex guards. The mutex is not recursive: a
thread that locks it a second time waits for itself, for good. -/
namespace Mutex

/-- Why a computation does not return. -/
inductive Stop
  | waits
  | undefined
  deriving DecidableEq, Repr

/-- A computation that is told whether its thread has the mutex. -/
abbrev Code (σ : Type) := ReaderT Bool (EStateM Stop σ)

variable {σ α β : Type} {x : Code σ α} {f : α → Code σ β} {held : Bool} {s t : σ} {a : α}
  {e : Stop}

def withLock (x : Code σ α) : Code σ α :=
  fun held s => if held then .error .waits s else x true s

/-- A step that is undefined where it gives no value. -/
def attempt (f : σ → Option (α × σ)) : Code σ α :=
  fun _ s => (f s).elim (.error .undefined s) fun y => .ok y.1 y.2

/-- A value of the state, undefined where there is none. -/
def inspect (f : σ → Option α) : Code σ α := attempt fun s => (f s).map fun a => (a, s)

@[simp] theorem withLock_held : withLock x true s = .error .waits s := rfl

@[simp] theorem withLock_free : withLock x false s = x true s := rfl

@[simp] theorem pure_apply : (pure a : Code σ α) held s = .ok a s := rfl

@[simp] theorem get_apply : (get : Code σ σ) held s = .ok s s := rfl

@[simp] theorem set_apply : (set t : Code σ PUnit) held s = .ok ⟨⟩ t := rfl

@[simp] theorem modify_apply {g : σ → σ} :
    (modify g : Code σ PUnit) held s = .ok ⟨⟩ (g s) := rfl

@[simp] theorem attempt_ok_iff {g : σ → Option (α × σ)} :
    (attempt g : Code σ α) held s = .ok a t ↔ g s = some (a, t) := by
  unfold attempt
  cases g s <;> simp [Prod.ext_iff]

@[simp] theorem attempt_error_iff {g : σ → Option (α × σ)} :
    (attempt g : Code σ α) held s = .error e t ↔ g s = none ∧ e = .undefined ∧ t = s := by
  unfold attempt
  cases g s <;> simp [eq_comm]

@[simp] theorem inspect_ok_iff {g : σ → Option α} :
    (inspect g : Code σ α) held s = .ok a t ↔ g s = some a ∧ t = s := by
  rw [inspect, attempt_ok_iff]
  cases g s <;> simp [eq_comm]

@[simp] theorem inspect_error_iff {g : σ → Option α} :
    (inspect g : Code σ α) held s = .error e t ↔ g s = none ∧ e = .undefined ∧ t = s := by
  rw [inspect, attempt_error_iff, Option.map_eq_none_iff]

theorem bind_of_ok (h : x held s = .ok a t) : (x >>= f) held s = f a held t :=
  EStateM.bind_of_ok (f := fun a => f a held) h

theorem bind_of_error (h : x held s = .error e t) : (x >>= f) held s = .error e t :=
  EStateM.bind_error_iff.mpr (Or.inl h)

/-- A computation that reads the state first. -/
@[simp] theorem get_bind {g : σ → Code σ β} : ((get : Code σ σ) >>= g) held s = g s held s := rfl

@[simp] theorem pure_bind : ((pure a : Code σ α) >>= f) held s = f a held s := rfl

@[simp] theorem modify_bind {g : σ → σ} {h : PUnit → Code σ β} :
    ((modify g : Code σ PUnit) >>= h) held s = h ⟨⟩ held (g s) := rfl

@[simp] theorem set_bind {h : PUnit → Code σ β} :
    ((set t : Code σ PUnit) >>= h) held s = h ⟨⟩ held t := rfl

/-- A thread that has the mutex waits at the first part that locks it. -/
@[simp] theorem withLock_bind_held : (withLock x >>= f) true s = .error .waits s :=
  bind_of_error withLock_held

end Mutex
