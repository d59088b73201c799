import Mathlib

/-! Memoised computations that may fail: a map of what succeeded before is asked first. -/
namespace Memo

variable {K V : Type*} [DecidableEq K] {P : K → V → Prop} {cache : K → Option V} {k : K}
  {opened : Option V} {v : V}

/-- `opened` is what the computation gives for `k` now; only a success is kept. -/
def fetch (cache : K → Option V) (k : K) (opened : Option V) : Option V × (K → Option V) :=
  match cache k with
  | some v => (some v, cache)
  | none =>
    match opened with
    | some v => (some v, Function.update cache k (some v))
    | none => (none, cache)

theorem fetch_of_hit (h : cache k = some v) : fetch cache k opened = (some v, cache) := by
  simp [fetch, h]

theorem fetch_of_miss (h : cache k = none) :
    fetch cache k (some v) = (some v, Function.update cache k (some v)) := by
  simp [fetch, h]

theorem fetch_of_fail (h : cache k = none) : fetch cache k none = (none, cache) := by
  simp [fetch, h]

/-- What is kept for a key is right for it. -/
def Holds (P : K → V → Prop) (cache : K → Option V) : Prop := ∀ k, ∀ v ∈ cache k, P k v

/-- The key decides what is right: the memoised computation then gives only what the direct one
may give, and keeps only that. -/
theorem Holds.fetch (hc : Holds P cache) (ho : ∀ v ∈ opened, P k v) :
    (∀ v ∈ (fetch cache k opened).1, P k v) ∧ Holds P (fetch cache k opened).2 := by
  cases hk : cache k with
  | some v =>
    rw [fetch_of_hit hk]
    exact ⟨fun w hw => hc k w (hk.trans hw), hc⟩
  | none =>
    cases opened with
    | none =>
      rw [fetch_of_fail hk]
      exact ⟨by simp, hc⟩
    | some v =>
      rw [fetch_of_miss hk]
      refine ⟨ho, fun j w hw => ?_⟩
      by_cases hj : j = k
      · subst hj
        exact ho w (by simpa using hw)
      · exact hc j w (by simpa [Function.update_of_ne hj] using hw)

end Memo
