import Mathlib

/-! Texts of tokens that show where an item ends, and operator trees that their leaves and operators
in a row determine. -/
namespace Decoding

variable {τ α σ : Type*} {Ok : α → Prop} {text : α → List τ} {Stop : List τ → Prop}

/-- In front of a rest that `Stop` allows, the text of `a` is the text of no other item. -/
def Unique (Ok : α → Prop) (text : α → List τ) (Stop : List τ → Prop) (a : α) : Prop :=
  ∀ b r s, Ok b → Stop r → Stop s → text a ++ r = text b ++ s → a = b ∧ r = s

/-- A rest that does not begin with a token of a kind. -/
def Without (p : τ → Prop) (r : List τ) : Prop := ∀ c ∈ r.head?, ¬ p c

theorem without_nil (p : τ → Prop) : Without p [] := by simp [Without]

@[simp] theorem without_cons {p : τ → Prop} {c : τ} {r : List τ} :
    Without p (c :: r) ↔ ¬ p c := by simp [Without]

/-- Items with a separator in front of each but the first. -/
def joined (text : α → List τ) (sep : σ → τ) (a : α) (l : List (σ × α)) : List τ :=
  text a ++ l.flatMap fun x => sep x.1 :: text x.2

theorem joined_cons {sep : σ → τ} {a : α} {x : σ × α} {l : List (σ × α)} :
    joined text sep a (x :: l) = text a ++ sep x.1 :: joined text sep x.2 l := by
  simp [joined]

theorem joined_append {sep : σ → τ} {a b : α} {x : σ} {l m : List (σ × α)} :
    joined text sep a (l ++ (x, b) :: m) =
      joined text sep a l ++ sep x :: joined text sep b m := by
  simp [joined]

/-- Items that are told apart in front of a separator are so in a row. -/
theorem joined_unique {sep : σ → τ} (hsep : Function.Injective sep)
    (hstop : ∀ x r, Stop (sep x :: r)) {a : α} {l : List (σ × α)}
    (ha : Unique Ok text Stop a) (hl : ∀ x ∈ l, Unique Ok text Stop x.2) {b : α}
    {m : List (σ × α)} (hb : Ok b) (hm : ∀ x ∈ m, Ok x.2) {r s : List τ}
    (hr : Stop r) (hr' : Without (· ∈ Set.range sep) r) (hs : Stop s)
    (hs' : Without (· ∈ Set.range sep) s)
    (h : joined text sep a l ++ r = joined text sep b m ++ s) : a = b ∧ l = m ∧ r = s := by
  induction l generalizing a b m with
  | nil =>
    cases m with
    | nil =>
      obtain ⟨rfl, rfl⟩ := ha b r s hb hr hs (by simpa [joined] using h)
      exact ⟨rfl, rfl, rfl⟩
    | cons y m =>
      rw [joined_cons, List.append_assoc] at h
      obtain ⟨-, rfl⟩ := ha b r _ hb hr (hstop y.1 _) (by simpa [joined] using h)
      exact absurd ⟨y.1, rfl⟩ (without_cons.mp hr')
  | cons x l ih =>
    rw [joined_cons, List.append_assoc] at h
    cases m with
    | nil =>
      obtain ⟨-, rfl⟩ := ha b _ s hb (hstop x.1 _) hs (by simpa [joined] using h)
      exact absurd ⟨x.1, rfl⟩ (without_cons.mp hs')
    | cons y m =>
      rw [joined_cons, List.append_assoc] at h
      obtain ⟨rfl, hrest⟩ := ha b _ _ hb (hstop x.1 _) (hstop y.1 _) h
      obtain ⟨hxy, hrest⟩ := List.cons.inj hrest
      obtain ⟨hitem, rfl, rfl⟩ := ih (hl x List.mem_cons_self)
        (fun z hz => hl z (List.mem_cons_of_mem _ hz)) (hm y List.mem_cons_self)
        (fun z hz => hm z (List.mem_cons_of_mem _ hz)) hrest
      obtain rfl : x = y := Prod.ext (hsep hxy) hitem
      exact ⟨rfl, rfl, rfl⟩

end Decoding

/-! Binary operators between operands. -/

inductive OpTree (α κ : Type*)
  | leaf (a : α)
  | node (left : OpTree α κ) (op : κ) (right : OpTree α κ)

namespace OpTree

variable {α κ lev : Type*} {t t' : OpTree α κ} {op : κ}

/-- The first operand, and the others with the operator in front of each. -/
def inorder : OpTree α κ → α × List (κ × α)
  | leaf a => (a, [])
  | node left op right =>
    (left.inorder.1, left.inorder.2 ++ (op, right.inorder.1) :: right.inorder.2)

def All (P : α → Prop) : OpTree α κ → Prop
  | leaf a => P a
  | node left _ right => left.All P ∧ right.All P

theorem all_iff {P : α → Prop} : t.All P ↔ P t.inorder.1 ∧ ∀ x ∈ t.inorder.2, P x.2 := by
  induction t with
  | leaf a => simp [All, inorder]
  | node left op right ihl ihr =>
    simp only [All, inorder, ihl, ihr, List.forall_mem_append, List.forall_mem_cons]
    tauto

section

variable [Preorder lev] {level : κ → lev}

/-- The operator at the root, if any, binds more tightly than `op`. -/
def Above (level : κ → lev) (op : κ) : OpTree α κ → Prop
  | leaf _ => True
  | node _ op' _ => level op < level op'

/-- Operators bind more tightly than those above them. Two of one level do in no order. -/
def Legal (level : κ → lev) : OpTree α κ → Prop
  | leaf _ => True
  | node left op right =>
    left.Legal level ∧ right.Legal level ∧ left.Above level op ∧ right.Above level op

theorem above_of_forall (h : ∀ x ∈ t.inorder.2, level op < level x.1) :
    t.Above level op := by
  cases t with
  | leaf a => trivial
  | node left op' right => exact h (op', right.inorder.1) (by simp [inorder])

/-- All operators of a legal tree bind more tightly than what its root is above. -/
theorem Legal.lt_of_mem (h : t.Legal level) (habove : t.Above level op) {x : κ × α}
    (hx : x ∈ t.inorder.2) : level op < level x.1 := by
  induction t generalizing op with
  | leaf a => cases hx
  | node left op' right ihl ihr =>
    obtain ⟨hl, hr, hal, har⟩ := h
    rcases List.mem_append.mp hx with hx | hx
    · exact habove.trans (ihl hl hal hx)
    · rcases List.mem_cons.mp hx with rfl | hx
      · exact habove
      · exact habove.trans (ihr hr har hx)

/-- Of two operators in a row, each before all that it binds less than, none is the first. -/
theorem eq_nil_of_split {l k m m' : List (κ × α)} {x y : κ × α}
    (hk : ∀ z ∈ l ++ k, level y.1 < level z.1) (hm : ∀ z ∈ m, level x.1 < level z.1)
    (h : x :: m = k ++ y :: m') : k = [] := by
  cases k with
  | nil => rfl
  | cons z k =>
    obtain ⟨rfl, rfl⟩ := List.cons.inj h
    exact absurd (hk x (by simp)) (lt_asymm (hm y (by simp)))

/-- The operator that binds least is at the root, so the row determines the tree. -/
theorem Legal.eq_of_inorder_eq (h : t.Legal level) (h' : t'.Legal level)
    (heq : t.inorder = t'.inorder) : t = t' := by
  induction t generalizing t' with
  | leaf a =>
    cases t' with
    | leaf b => rw [(Prod.mk.inj heq).1]
    | node left op right => simp [inorder] at heq
  | node left op right ihl ihr =>
    cases t' with
    | leaf b => simp [inorder] at heq
    | node left' op' right' =>
      obtain ⟨hl, hr, hal, har⟩ := h
      obtain ⟨hl', hr', hal', har'⟩ := h'
      obtain ⟨hfirst, hrow⟩ := Prod.mk.inj heq
      have hsame : left.inorder.2 = left'.inorder.2 ∧ (op, right.inorder.1) :: right.inorder.2 =
          (op', right'.inorder.1) :: right'.inorder.2 := by
        rcases List.append_eq_append_iff.mp hrow with ⟨k, hk, hrest⟩ | ⟨k, hk, hrest⟩
        · obtain rfl := eq_nil_of_split (fun z hz => hl'.lt_of_mem hal' (hk ▸ hz))
            (fun z hz => hr.lt_of_mem har hz) hrest
          exact ⟨by simpa using hk.symm, by simpa using hrest⟩
        · obtain rfl := eq_nil_of_split (fun z hz => hl.lt_of_mem hal (hk ▸ hz))
            (fun z hz => hr'.lt_of_mem har' hz) hrest
          exact ⟨by simpa using hk, by simpa using hrest.symm⟩
      obtain ⟨hleft, hright⟩ := hsame
      obtain ⟨hop, hothers⟩ := List.cons.inj hright
      obtain ⟨rfl, hsecond⟩ := Prod.mk.inj hop
      rw [ihl hl hl' (Prod.ext hfirst hleft), ihr hr hr' (Prod.ext hsecond hothers)]

end

section

variable [LinearOrder lev] {level : κ → lev} {opened opened' : List lev} {ops ops' : List κ}

/-- The levels of a row of operators that no operator of a lower level has closed. -/
def openedBy (level : κ → lev) (opened : List lev) (ops : List κ) : List lev :=
  ops.foldl (fun opened op => level op :: opened.filter fun l => decide (l < level op)) opened

/-- No operator stands in a row while its own level is open. -/
def Graded (level : κ → lev) (opened : List lev) : List κ → Prop
  | [] => True
  | op :: ops => level op ∉ opened ∧
      Graded level (level op :: opened.filter fun l => decide (l < level op)) ops

theorem graded_append : Graded level opened (ops ++ ops') ↔
    Graded level opened ops ∧ Graded level (openedBy level opened ops) ops' := by
  induction ops generalizing opened with
  | nil => simp [Graded, openedBy]
  | cons op ops ih => simp [Graded, ih, openedBy, and_assoc]

theorem Graded.mono (h : Graded level opened' ops) (hsub : opened ⊆ opened') :
    Graded level opened ops := by
  induction ops generalizing opened opened' with
  | nil => trivial
  | cons op ops ih =>
    refine ⟨fun hmem => h.1 (hsub hmem), ih h.2 (List.cons_subset_cons _ ?_)⟩
    intro l hl
    simp only [List.mem_filter] at hl ⊢
    exact ⟨hsub hl.1, hl.2⟩

/-- A level is open until one that is lower. -/
theorem Graded.stays_open {l : lev} (h : Graded level opened ops) (hl : l ∈ opened)
    (hops : ∀ op ∈ ops, l ≤ level op) :
    l ∈ openedBy level opened ops ∧ ∀ op ∈ ops, l < level op := by
  induction ops generalizing opened with
  | nil => exact ⟨hl, by simp⟩
  | cons op ops ih =>
    obtain ⟨hop, hops⟩ := List.forall_mem_cons.mp hops
    have hlt : l < level op := by
      refine hop.lt_of_ne ?_
      rintro rfl
      exact h.1 hl
    obtain ⟨hopen, hall⟩ := ih h.2 (List.mem_cons_of_mem _ (by simp [hl, hlt])) hops
    exact ⟨hopen, List.forall_mem_cons.mpr ⟨hlt, hall⟩⟩

/-- Around an operator of the least level, the others of a row bind more tightly. -/
theorem Graded.lt_of_le {op : κ} (h : Graded level opened (ops ++ op :: ops'))
    (hle : ∀ x ∈ ops ++ ops', level op ≤ level x) : ∀ x ∈ ops ++ ops', level op < level x := by
  obtain ⟨hops, hop, hops'⟩ := graded_append.mp h
  obtain ⟨hle, hle'⟩ := List.forall_mem_append.mp hle
  refine List.forall_mem_append.mpr ⟨fun x hx => (hle x hx).lt_of_ne ?_, ?_⟩
  · intro heq
    obtain ⟨before, behind, rfl⟩ := List.append_of_mem hx
    obtain ⟨-, -, hbehind⟩ := graded_append.mp hops
    have hstay := (hbehind.stays_open (l := level op) (by simp [heq])
      (fun y hy => hle y (by simp [hy]))).1
    exact hop (by simpa [openedBy] using hstay)
  · exact (hops'.stays_open List.mem_cons_self hle').2

theorem exists_least (level : κ → lev) (hne : ops ≠ []) : ∃ before op behind,
    ops = before ++ op :: behind ∧ ∀ x ∈ ops, level op ≤ level x := by
  obtain ⟨op, hmem, hle⟩ := (ops.finite_toSet).exists_minimalFor level _
    (List.exists_mem_of_ne_nil ops hne)
  obtain ⟨before, behind, rfl⟩ := List.append_of_mem hmem
  exact ⟨before, op, behind, rfl, fun x hx => by
    rcases le_total (level op) (level x) with h | h
    · exact h
    · exact hle hx h⟩

/-- Behind the row of a legal tree whose operators all bind more tightly than what was open, that is
open still, and besides levels of the row. -/
theorem Legal.graded (h : t.Legal level)
    (hopened : ∀ x ∈ t.inorder.2, ∀ l ∈ opened, l < level x.1) :
    Graded level opened (t.inorder.2.map Prod.fst) ∧
      ∃ new, openedBy level opened (t.inorder.2.map Prod.fst) = new ++ opened ∧
        ∀ l ∈ new, ∃ x ∈ t.inorder.2, l = level x.1 := by
  induction t generalizing opened with
  | leaf a => exact ⟨trivial, [], rfl, by simp⟩
  | node left op right ihl ihr =>
    obtain ⟨hl, hr, hal, har⟩ := h
    simp only [inorder, List.forall_mem_append, List.forall_mem_cons] at hopened
    obtain ⟨hleft, hop, hright⟩ := hopened
    obtain ⟨hgl, new, hnew, hmem⟩ := ihl hl hleft
    have hclosed : (new ++ opened).filter (fun l => decide (l < level op)) = opened := by
      rw [List.filter_append, List.filter_eq_nil_iff.mpr, List.filter_eq_self.mpr,
        List.nil_append]
      · simpa using hop
      · intro l hl'
        obtain ⟨x, hx, rfl⟩ := hmem l hl'
        simpa using (hl.lt_of_mem hal hx).le
    have habove : ∀ x ∈ right.inorder.2, ∀ l ∈ level op :: opened, l < level x.1 := fun x hx =>
      List.forall_mem_cons.mpr ⟨hr.lt_of_mem har hx, hright x hx⟩
    obtain ⟨hgr, new', hnew', hmem'⟩ := ihr hr habove
    simp only [inorder, List.map_append, List.map_cons]
    refine ⟨graded_append.mpr ⟨hgl, ?_, ?_⟩, new' ++ [level op], ?_, ?_⟩
    · rw [hnew]
      simp only [List.mem_append, not_or]
      refine ⟨fun hmem'' => ?_, fun hmem'' => lt_irrefl _ (hop _ hmem'')⟩
      obtain ⟨x, hx, heq⟩ := hmem _ hmem''
      exact (hl.lt_of_mem hal hx).ne heq
    · rwa [hnew, hclosed]
    · simp only [openedBy, List.foldl_append, List.foldl_cons] at hnew hnew' ⊢
      rw [hnew, hclosed, hnew', List.append_assoc, List.singleton_append]
    · intro l hl'
      rcases List.mem_append.mp hl' with hl' | hl'
      · obtain ⟨x, hx, rfl⟩ := hmem' l hl'
        exact ⟨x, by simp [hx], rfl⟩
      · exact ⟨(op, right.inorder.1), by simp, List.mem_singleton.mp hl'⟩

/-- A row has a legal tree where no operator stands while its level is open. -/
theorem exists_legal_iff {a : α} {row : List (κ × α)} :
    (∃ t : OpTree α κ, t.Legal level ∧ t.inorder = (a, row)) ↔
      Graded level [] (row.map Prod.fst) := by
  constructor
  · rintro ⟨t, h, hrow⟩
    have hgraded : Graded level [] (t.inorder.2.map Prod.fst) := (h.graded (by simp)).1
    rwa [hrow] at hgraded
  · intro h
    induction hlen : row.length using Nat.strong_induction_on generalizing a row with
    | h len ih =>
      subst hlen
      rcases eq_or_ne row [] with rfl | hne
      · exact ⟨.leaf a, trivial, rfl⟩
      · obtain ⟨before, x, behind, rfl, hle⟩ :=
          exists_least (fun x : κ × α => level x.1) hne
        simp only [List.map_append, List.map_cons] at h
        have hlt : ∀ y ∈ before ++ behind, level x.1 < level y.1 := by
          intro y hy
          refine h.lt_of_le ?_ y.1 ?_
          · intro op hop
            rw [← List.map_append] at hop
            obtain ⟨z, hz, rfl⟩ := List.mem_map.mp hop
            exact hle z (by simp only [List.mem_append, List.mem_cons] at hz ⊢; tauto)
          · rw [← List.map_append]
            exact List.mem_map_of_mem hy
        obtain ⟨hlt, hlt'⟩ := List.forall_mem_append.mp hlt
        obtain ⟨hbefore, -, hbehind⟩ := graded_append.mp h
        obtain ⟨left, hleft, hrow⟩ : ∃ t : OpTree α κ, t.Legal level ∧ t.inorder = (a, before) :=
          ih before.length (by simp) hbefore rfl
        obtain ⟨right, hright, hrow'⟩ :
            ∃ t : OpTree α κ, t.Legal level ∧ t.inorder = (x.2, behind) :=
          ih behind.length (by simp; omega) (hbehind.mono (List.nil_subset _)) rfl
        refine ⟨.node left x.1 right, ⟨hleft, hright, ?_, ?_⟩, ?_⟩
        · exact above_of_forall (by rwa [hrow])
        · exact above_of_forall (by rwa [hrow'])
        · simp [inorder, hrow, hrow']

end

end OpTree
