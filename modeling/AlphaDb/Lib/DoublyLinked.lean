import Mathlib

/-! Doubly linked chains of nodes in memory, whose heads are held elsewhere. -/
namespace DoublyLinked

/-- Nodes with links to the addresses of other nodes. -/
class Links (N : Type*) (A : outParam (Type*)) where
  next : N → Option A
  prev : N → Option A
  withNext : N → Option A → N
  withPrev : N → Option A → N
  next_withNext : ∀ e x, next (withNext e x) = x
  prev_withNext : ∀ e x, prev (withNext e x) = prev e
  next_withPrev : ∀ e x, next (withPrev e x) = next e
  prev_withPrev : ∀ e x, prev (withPrev e x) = x

open Links

attribute [simp] next_withNext prev_withNext next_withPrev prev_withPrev

variable {N A : Type*} [Links N A] {node node' : A → Option N} {before head : Option A}
  {p q : A} {e e' f f' : N} {l l₁ l₂ : List A}

/-- The chain `l` from `head` on, with its back links; that of the head itself plays no part unless
there is a node `before` it. -/
def Linked (node : A → Option N) : Option A → Option A → List A → Prop
  | _, head, [] => head = none
  | before, head, p :: l => head = some p ∧ ∃ e, node p = some e ∧
      (before ≠ none → prev e = before) ∧ Linked node (some p) (next e) l

theorem Linked.frame (h : Linked node before head l) (hn : ∀ p ∈ l, node' p = node p) :
    Linked node' before head l := by
  induction l generalizing before head with
  | nil => exact h
  | cons p l ih =>
    obtain ⟨hp, e, he, hprev, hl⟩ := h
    refine ⟨hp, e, ?_, hprev, ih hl fun q hq => hn q (List.mem_cons_of_mem _ hq)⟩
    rw [hn p List.mem_cons_self]
    exact he

theorem Linked.forget (h : Linked node before head l) : Linked node none head l := by
  cases l with
  | nil => exact h
  | cons p l =>
    obtain ⟨hp, e, he, -, hl⟩ := h
    exact ⟨hp, e, he, by simp, hl⟩

theorem Linked.allocated (h : Linked node before head l) (hp : p ∈ l) : ∃ e, node p = some e := by
  induction l generalizing before head with
  | nil => cases hp
  | cons q l ih =>
    obtain ⟨-, e, he, -, hl⟩ := h
    rcases List.mem_cons.mp hp with rfl | hp
    · exact ⟨e, he⟩
    · exact ih hl hp

theorem Linked.head_eq (h : Linked node before head l) : head = l.head? := by
  cases l with
  | nil => exact h
  | cons p l => exact h.1

/-- The node at the head, and the chain behind it. -/
theorem Linked.pop (h : Linked node before (some p) l) :
    ∃ e l', l = p :: l' ∧ node p = some e ∧ Linked node (some p) (next e) l' := by
  cases l with
  | nil => simp [Linked] at h
  | cons q l =>
    obtain ⟨hp, e, he, -, hl⟩ := h
    obtain rfl := Option.some.inj hp
    exact ⟨e, l, rfl, he, hl⟩

/-- Two neighbours in a chain, and the chain behind them. -/
theorem Linked.split (h : Linked node before head (l₁ ++ q :: p :: l₂)) :
    ∃ f e, node q = some f ∧ node p = some e ∧ prev e = some q ∧
      Linked node (some p) (next e) l₂ := by
  induction l₁ generalizing before head with
  | nil =>
    obtain ⟨-, f, hf, -, -, e, he, hprev, hl⟩ := h
    exact ⟨f, e, hf, he, hprev (by simp), hl⟩
  | cons x l₁ ih =>
    obtain ⟨-, _, -, -, hl⟩ := h
    exact ih hl

/-- The node `p` drops out of a chain when the one before it takes over its successors. -/
theorem Linked.unlink (h : Linked node before head (l₁ ++ q :: p :: l₂)) (hf : node q = some f)
    (hn : ∀ x ∈ l₁, node' x = node x) (hq : node' q = some f') (hprev : prev f' = prev f)
    (hl : Linked node' (some q) (next f') l₂) : Linked node' before head (l₁ ++ q :: l₂) := by
  induction l₁ generalizing before head with
  | nil =>
    obtain ⟨hh, g, hg, hback, -⟩ := h
    obtain rfl := Option.some.inj (hf.symm.trans hg)
    refine ⟨hh, f', hq, ?_, hl⟩
    rw [hprev]
    exact hback
  | cons x l₁ ih =>
    obtain ⟨hh, e, he, hback, hrest⟩ := h
    refine ⟨hh, e, ?_, hback, ih hrest fun y hy => hn y (List.mem_cons_of_mem _ hy)⟩
    rw [hn x List.mem_cons_self]
    exact he

/-- Another node comes to stand before the chain, and its head points back to it. -/
theorem Linked.reprev (h : Linked node before (some q) (q :: l)) (hf : node q = some f)
    (hq : node' q = some f') (hnext : next f' = next f) (hprev : prev f' = some p)
    (hn : ∀ x ∈ l, node' x = node x) : Linked node' (some p) (some q) (q :: l) := by
  obtain ⟨-, g, hg, -, hl⟩ := h
  obtain rfl := Option.some.inj (hf.symm.trans hg)
  refine ⟨rfl, f', hq, fun _ => hprev, ?_⟩
  rw [hnext]
  exact hl.frame hn

/-- The first node of a chain with the key `k`, found from the head on; nothing if a node is read
that is not there. `fuel` bounds the rounds. -/
def walk {K : Type*} [DecidableEq K] (key : N → K) (k : K) (node : A → Option N) :
    ℕ → Option A → Option (Option A)
  | _, none => some none
  | 0, some _ => none
  | fuel + 1, some p =>
    (node p).bind fun e => if key e = k then some (some p) else walk key k node fuel (next e)

theorem walk_eq {K : Type*} [DecidableEq K] {key : N → K} {k : K} {fuel : ℕ}
    (h : Linked node before head l) (hf : l.length ≤ fuel) :
    walk key k node fuel head = some (l.find? fun p => (node p).map key = some k) := by
  induction l generalizing before head fuel with
  | nil =>
    obtain rfl : head = none := h
    cases fuel <;> rfl
  | cons p l ih =>
    obtain ⟨rfl, e, he, -, hl⟩ := h
    cases fuel with
    | zero => simp at hf
    | succ fuel =>
      rw [walk, he, Option.bind_some]
      by_cases hk : key e = k
      · simp [he, hk]
      · simp [he, hk, ih hl (by simpa using hf)]

/-- Disjoint chains, one from each head. -/
structure Chains {B : Type*} (heads : B → Option A) (node : A → Option N) (chain : B → List A) :
    Prop where
  linked : ∀ b, Linked node none (heads b) (chain b)
  nodup : ∀ b, (chain b).Nodup
  apart : ∀ b b' p, p ∈ chain b → p ∈ chain b' → b = b'

variable {B : Type*} [DecidableEq B] {heads heads' : B → Option A} {chain : B → List A} {b : B}

/-- One chain is replaced; its nodes are its old ones or in no chain yet. -/
theorem Chains.update (h : Chains heads node chain) (hheads : ∀ b', b' ≠ b → heads' b' = heads b')
    (hlinked : Linked node' none (heads' b) l) (hnodup : l.Nodup)
    (hmem : ∀ p ∈ l, p ∈ chain b ∨ ∀ b', p ∉ chain b')
    (hframe : ∀ b', b' ≠ b → ∀ p ∈ chain b', node' p = node p) :
    Chains heads' node' (Function.update chain b l) := by
  -- a node of the new chain is in no other
  have hother : ∀ b' p, b' ≠ b → p ∈ l → p ∉ chain b' := by
    intro b' p hb hp hp'
    rcases hmem p hp with hp | hp
    · exact hb (h.apart b' b p hp' hp)
    · exact hp b' hp'
  refine ⟨?_, ?_, ?_⟩
  · intro b'
    by_cases hb : b' = b
    · subst hb
      simpa using hlinked
    · rw [Function.update_of_ne hb, hheads b' hb]
      exact (h.linked b').frame (hframe b' hb)
  · intro b'
    by_cases hb : b' = b
    · subst hb
      simpa using hnodup
    · simpa [hb] using h.nodup b'
  · intro b₁ b₂ p h₁ h₂
    by_cases hb₁ : b₁ = b <;> by_cases hb₂ : b₂ = b
    · exact hb₁.trans hb₂.symm
    · subst hb₁
      rw [Function.update_self] at h₁
      rw [Function.update_of_ne hb₂] at h₂
      exact absurd h₂ (hother b₂ p hb₂ h₁)
    · subst hb₂
      rw [Function.update_self] at h₂
      rw [Function.update_of_ne hb₁] at h₁
      exact absurd h₁ (hother b₁ p hb₁ h₂)
    · rw [Function.update_of_ne hb₁] at h₁
      rw [Function.update_of_ne hb₂] at h₂
      exact h.apart b₁ b₂ p h₁ h₂

/-- A new node goes before the head of a chain, which points back to it. -/
theorem Chains.push (h : Chains heads node chain) (hfresh : ∀ b', p ∉ chain b')
    (hp : node' p = some e) (hnext : next e = heads b)
    (hhead : ∀ q f, heads b = some q → node q = some f →
      ∃ f', node' q = some f' ∧ next f' = next f ∧ prev f' = some p)
    (hn : ∀ x, x ≠ p → heads b ≠ some x → node' x = node x) :
    Chains (Function.update heads b (some p)) node' (Function.update chain b (p :: chain b)) := by
  have hlink := h.linked b
  have hne : ∀ b', ∀ x ∈ chain b', x ≠ p := fun b' x hx => ne_of_mem_of_not_mem hx (hfresh b')
  apply h.update (fun b' hb => Function.update_of_ne hb ..)
  · refine ⟨by simp, e, hp, by simp, ?_⟩
    rw [hnext]
    cases hl : chain b with
    | nil =>
      rw [hl] at hlink
      exact hlink
    | cons q l =>
      rw [hl] at hlink
      obtain ⟨hq, f, hf, -, -⟩ := id hlink
      obtain ⟨f', hf', hnext', hprev'⟩ := hhead q f hq hf
      have hql : q ∉ l := by
        have := h.nodup b
        rw [hl] at this
        exact (List.nodup_cons.mp this).1
      rw [hq] at hlink hn ⊢
      apply hlink.reprev hf hf' hnext' hprev'
      intro x hx
      apply hn x (hne b x (by simp [hl, hx]))
      intro he
      exact hql (Option.some.inj he ▸ hx)
  · exact List.nodup_cons.mpr ⟨hfresh b, h.nodup b⟩
  · intro x hx
    rcases List.mem_cons.mp hx with rfl | hx
    · exact .inr hfresh
    · exact .inl hx
  · intro b' hb x hx
    apply hn x (hne b' x hx)
    intro hhx
    -- the head of one chain is in no other
    cases hl : chain b with
    | nil =>
      rw [hl] at hlink
      rw [hlink] at hhx
      cases hhx
    | cons q l =>
      rw [hl] at hlink
      obtain rfl := Option.some.inj (hhx.symm.trans hlink.1)
      exact hb (h.apart b' b x hx (by simp [hl]))

/-- The head leaves its chain; the link of the next node back to it stays. -/
theorem Chains.dropHead (h : Chains heads node chain) (hl : chain b = p :: l)
    (he : node p = some e) (hn : ∀ x, x ≠ p → node' x = node x) :
    Chains (Function.update heads b (next e)) node' (Function.update chain b l) := by
  have hlink := h.linked b
  have hnodup := h.nodup b
  rw [hl] at hlink hnodup
  obtain ⟨hpl, hnodup⟩ := List.nodup_cons.mp hnodup
  obtain ⟨-, f, hf, -, hrest⟩ := hlink
  obtain rfl := Option.some.inj (he.symm.trans hf)
  apply h.update (fun b' hb => Function.update_of_ne hb ..)
  · rw [Function.update_self]
    exact hrest.forget.frame fun x hx => hn x (ne_of_mem_of_not_mem hx hpl)
  · exact hnodup
  · intro x hx
    exact .inl (by simp [hl, hx])
  · intro b' hb x hx
    apply hn
    rintro rfl
    exact hb (h.apart b' b x hx (by simp [hl]))

/-- Another node leaves its chain: the links on both sides pass it by. -/
theorem Chains.dropInside (h : Chains heads node chain) (hl : chain b = l₁ ++ q :: p :: l₂)
    (hf : node q = some f) (he : node p = some e) (hq : node' q = some f')
    (hnext : next f' = next e) (hprev : prev f' = prev f)
    (hback : ∀ x g, next e = some x → node x = some g →
      ∃ g', node' x = some g' ∧ next g' = next g ∧ prev g' = some q)
    (hn : ∀ x, x ≠ q → x ≠ p → next e ≠ some x → node' x = node x) :
    Chains heads node' (Function.update chain b (l₁ ++ q :: l₂)) := by
  have hlink := h.linked b
  have hnodup := h.nodup b
  rw [hl] at hlink hnodup
  obtain ⟨g, e', hg, he', -, hrest⟩ := hlink.split
  obtain rfl := Option.some.inj (he.symm.trans he')
  have hsub : (l₁ ++ q :: l₂).Sublist (l₁ ++ q :: p :: l₂) := by simp
  obtain ⟨-, hnodup₂, hdisj⟩ := List.nodup_append.mp hnodup
  obtain ⟨hq₂, hnodup₂⟩ := List.nodup_cons.mp hnodup₂
  obtain ⟨hp₂, hnodup₂⟩ := List.nodup_cons.mp hnodup₂
  have hnext_mem : ∀ x, next e = some x → x ∈ l₂ := by
    intro x hx
    rw [hx] at hrest
    obtain ⟨-, l', rfl, -⟩ := hrest.pop
    exact List.mem_cons_self
  apply h.update (fun _ _ => rfl)
  · apply hlink.unlink hf ?_ hq hprev
    · -- behind `q` the chain goes on after `p`
      rw [hnext]
      cases l₂ with
      | nil => exact hrest
      | cons x l₂ =>
        obtain ⟨hx, g, hg, -⟩ := id hrest
        obtain ⟨g', hg', hnext', hprev'⟩ := hback x g hx hg
        rw [hx] at hrest hn ⊢
        apply hrest.reprev hg hg' hnext' hprev'
        intro y hy
        have hxl : x ∉ l₂ := (List.nodup_cons.mp hnodup₂).1
        apply hn y
        · exact fun he => hq₂ (by simp [← he, hy])
        · exact fun he => hp₂ (by simp [← he, hy])
        · exact fun he => hxl (Option.some.inj he ▸ hy)
    · intro x hx
      apply hn x (hdisj x hx q (by simp)) (hdisj x hx p (by simp))
      intro he'
      exact hdisj x hx x (by simp [hnext_mem x he']) rfl
  · exact hnodup.sublist hsub
  · intro x hx
    exact .inl (hl ▸ hsub.subset hx)
  · intro b' hb x hx
    have hx' : x ∉ chain b := fun hx' => hb (h.apart b' b x hx hx')
    rw [hl] at hx'
    apply hn
    · rintro rfl
      exact hx' (by simp)
    · rintro rfl
      exact hx' (by simp)
    · intro he'
      exact hx' (by simp [hnext_mem x he'])

/-! ### Writes through pointers -/

section Memory

variable [DecidableEq A] {V : Type*} {content : N → V} {x : Option A}

/-- `p->next = x`; nothing if `p` is null or its node is not there. -/
def setNext (node : A → Option N) (p x : Option A) : Option (A → Option N) :=
  p.bind fun p => (node p).map fun e => Function.update node p (some (withNext e x))

/-- `p->prev = x`. -/
def setPrev (node : A → Option N) (p x : Option A) : Option (A → Option N) :=
  p.bind fun p => (node p).map fun e => Function.update node p (some (withPrev e x))

theorem setNext_some (he : node p = some e) :
    setNext node (some p) x = some (Function.update node p (some (withNext e x))) := by
  simp [setNext, he]

theorem setPrev_some (he : node p = some e) :
    setPrev node (some p) x = some (Function.update node p (some (withPrev e x))) := by
  simp [setPrev, he]

/-- What a node holds besides its links. -/
structure Unlinked (content : N → V) : Prop where
  withNext : ∀ e x, content (withNext e x) = content e
  withPrev : ∀ e x, content (withPrev e x) = content e

omit [Links N A] in
theorem map_update (he : node p = some e) (hc : content e' = content e) (q : A) :
    (Function.update node p (some e') q).map content = (node q).map content := by
  by_cases hq : q = p
  · subst hq
    rw [Function.update_self, he, Option.map_some, Option.map_some, hc]
  · rw [Function.update_of_ne hq]

/-- The node at `p` leaves the chain of the head at `b`: as the head of the chain, as its last node,
or from between two others. -/
def unlink (heads : B → Option A) (node : A → Option N) (b : B) (p : A) (e : N) :
    Option ((B → Option A) × (A → Option N)) :=
  if heads b = some p then some (Function.update heads b (next e), node)
  else if next e = none then (setNext node (prev e) none).map fun node => (heads, node)
  else
    (setPrev node (next e) (prev e)).bind fun node =>
      (setNext node (prev e) (next e)).map fun node => (heads, node)

/-- A node can be unlinked wherever it stands, and deleted. -/
theorem Chains.unlink (h : Chains heads node chain) (hl : chain b = l₁ ++ p :: l₂)
    (hc : Unlinked content) :
    ∃ e u, node p = some e ∧ DoublyLinked.unlink heads node b p e = some u ∧
      Chains u.1 (Function.update u.2 p none) (Function.update chain b (l₁ ++ l₂)) ∧
      (∀ b', b' ≠ b → u.1 b' = heads b') ∧
      ∀ q, q ≠ p → (u.2 q).map content = (node q).map content := by
  have hlink := h.linked b
  have hnodup := h.nodup b
  rw [hl] at hlink hnodup
  rcases List.eq_nil_or_concat l₁ with rfl | ⟨l₀, q, rfl⟩
  · -- the head: its links are not followed
    obtain ⟨hhead, e, he, -, -⟩ := hlink
    refine ⟨e, (Function.update heads b (next e), node), he, by simp [DoublyLinked.unlink, hhead],
      ?_, fun b' hb => Function.update_of_ne hb .., fun _ _ => rfl⟩
    exact h.dropHead hl he fun x hx => Function.update_of_ne hx ..
  · rw [List.concat_eq_append, List.append_assoc, List.singleton_append] at hl hlink hnodup ⊢
    have htail := (List.nodup_append.mp hnodup).2.1
    have hqp : q ≠ p := by
      rintro rfl
      simp at htail
    have hhead : heads b ≠ some p := by
      rw [hlink.head_eq]
      cases l₀ with
      | nil => simpa using hqp
      | cons x l₀ =>
        intro he
        obtain rfl : x = p := by simpa using he
        simp at hnodup
    obtain ⟨f, e, hf, he, hprev, hrest⟩ := hlink.split
    cases hnext : next e with
    | none =>
      refine ⟨e, (heads, Function.update node q (some (withNext f none))), he, ?_, ?_,
        fun _ _ => rfl, fun x _ => map_update hf (hc.withNext f none) x⟩
      · simp [DoublyLinked.unlink, hhead, hnext, hprev, setNext_some hf]
      · have hq : Function.update (Function.update node q (some (withNext f none))) p none q =
            some (withNext f none) := by
          simp [hqp]
        apply h.dropInside hl hf he hq
        · simp [hnext]
        · simp
        · intro x g hx
          cases hnext.symm.trans hx
        · intro x hxq hxp _
          simp [hxq, hxp]
    | some x =>
      have hrest' : Linked node (some p) (some x) l₂ := hnext ▸ hrest
      obtain ⟨g, l₃, rfl, hg, -⟩ := hrest'.pop
      have hqx : q ≠ x := by
        rintro rfl
        simp at htail
      have hxp : x ≠ p := by
        rintro rfl
        simp at htail
      have hf' : Function.update node x (some (withPrev g (some q))) q = some f := by
        rw [Function.update_of_ne hqx]
        exact hf
      refine ⟨e, (heads, Function.update (Function.update node x (some (withPrev g (some q)))) q
        (some (withNext f (some x)))), he, ?_, ?_, fun _ _ => rfl, ?_⟩
      · simp [DoublyLinked.unlink, hhead, hnext, hprev, setPrev_some hg, setNext_some hf']
      · have hq : Function.update (Function.update (Function.update node x
            (some (withPrev g (some q)))) q (some (withNext f (some x)))) p none q =
            some (withNext f (some x)) := by
          simp [hqp]
        apply h.dropInside hl hf he hq
        · simp [hnext]
        · simp
        · intro y g' hy hg'
          obtain rfl := Option.some.inj (hnext.symm.trans hy)
          obtain rfl := Option.some.inj (hg.symm.trans hg')
          exact ⟨withPrev g (some q), by simp [hxp, hqx.symm], by simp, by simp⟩
        · intro y hyq hyp hy
          have hyx : y ≠ x := by
            rintro rfl
            exact hy hnext
          simp [hyq, hyp, hyx]
      · intro y _
        rw [map_update hf' (hc.withNext f (some x)) y, map_update hg (hc.withPrev g (some q)) y]

end Memory

end DoublyLinked
