import Mathlib

/-! Singly linked chains: a partial successor map followed from a head to a stop mark. -/

/-- Following `next` from `a` visits the nodes of `l` in order and then reaches `stop`. -/
def Follows {α : Type*} (next : α → Option α) (stop : α) : α → List α → Prop
  | a, [] => a = stop
  | a, p :: l => a = p ∧ a ≠ stop ∧ ∃ b, next p = some b ∧ Follows next stop b l

namespace Follows

variable {α : Type*} {next next' : α → Option α} {stop a : α} {l : List α}

/-- The chain depends on the successors of its own nodes alone. -/
theorem frame (h : Follows next stop a l) (hn : ∀ p ∈ l, next' p = next p) :
    Follows next' stop a l := by
  induction l generalizing a with
  | nil => exact h
  | cons p l ih =>
    obtain ⟨ha, hs, b, hb, hl⟩ := h
    refine ⟨ha, hs, b, ?_, ih hl fun q hq => hn q (List.mem_cons_of_mem _ hq)⟩
    rw [hn p List.mem_cons_self]
    exact hb

theorem eq_nil_iff (h : Follows next stop a l) : l = [] ↔ a = stop := by
  cases l with
  | nil => simpa [Follows] using h
  | cons p l => simpa using h.2.1

/-- The head of a chain that has not stopped, and the chain behind it. -/
theorem pop (h : Follows next stop a l) (ha : a ≠ stop) :
    ∃ b l', l = a :: l' ∧ next a = some b ∧ Follows next stop b l' := by
  cases l with
  | nil => exact absurd h ha
  | cons p l =>
    obtain ⟨rfl, -, b, hb, hl⟩ := h
    exact ⟨b, l, rfl, hb, hl⟩

end Follows
