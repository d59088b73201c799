import Mathlib

/-! Lexers in the way of `flex`: patterns over sets of characters, the longest match, the earliest
rule on ties, and start conditions. -/
namespace Flex

variable {α σ τ : Type}

/-- A regular expression over sets of characters. -/
inductive Pattern (α : Type)
  | never
  | empty
  | set (p : α → Bool)
  | seq (p q : Pattern α)
  | alt (p q : Pattern α)
  | star (p : Pattern α)

namespace Pattern

/-- One or more. -/
def plus (p : Pattern α) : Pattern α := seq p (star p)

/-- None or one. -/
def opt (p : Pattern α) : Pattern α := alt empty p

def lang : Pattern α → Language α
  | never => 0
  | empty => 1
  | set p => {x | ∃ c, p c = true ∧ x = [c]}
  | seq p q => p.lang * q.lang
  | alt p q => p.lang + q.lang
  | star p => KStar.kstar p.lang

def matchesEmpty : Pattern α → Bool
  | never => false
  | empty => true
  | set _ => false
  | seq p q => p.matchesEmpty && q.matchesEmpty
  | alt p q => p.matchesEmpty || q.matchesEmpty
  | star _ => true

/-- What is left to match behind a character. -/
def deriv : Pattern α → α → Pattern α
  | never, _ => never
  | empty, _ => never
  | set p, c => if p c then empty else never
  | seq p q, c =>
    if p.matchesEmpty then alt (seq (p.deriv c) q) (q.deriv c) else seq (p.deriv c) q
  | alt p q, c => alt (p.deriv c) (q.deriv c)
  | star p, c => seq (p.deriv c) (star p)

def accepts (p : Pattern α) : List α → Bool
  | [] => p.matchesEmpty
  | c :: x => (p.deriv c).accepts x

variable {p q : Pattern α} {c : α} {x y : List α} {n m : ℕ}

theorem matchesEmpty_iff : p.matchesEmpty = true ↔ [] ∈ p.lang := by
  induction p with
  | never => simp [matchesEmpty, lang]
  | empty => simp [matchesEmpty, lang]
  | set p =>
    simp only [matchesEmpty, lang, Bool.false_eq_true, false_iff]
    rintro ⟨c, -, h⟩
    cases h
  | seq p q ihp ihq => simp [matchesEmpty, lang, Language.mem_mul, ihp, ihq]
  | alt p q ihp ihq => simp [matchesEmpty, lang, Language.mem_add, ihp, ihq]
  | star p _ => simp [matchesEmpty, lang, Language.nil_mem_kstar]

theorem cons_mem_mul {l m : Language α} :
    c :: x ∈ l * m ↔ (∃ a b, c :: a ∈ l ∧ b ∈ m ∧ a ++ b = x) ∨ [] ∈ l ∧ c :: x ∈ m := by
  rw [Language.mem_mul]
  constructor
  · rintro ⟨a, ha, b, hb, hab⟩
    cases a with
    | nil =>
      rw [List.nil_append] at hab
      subst hab
      exact Or.inr ⟨ha, hb⟩
    | cons d a =>
      obtain ⟨rfl, rfl⟩ := List.cons.inj hab
      exact Or.inl ⟨a, b, ha, hb, rfl⟩
  · rintro (⟨a, b, ha, hb, rfl⟩ | ⟨hnil, hm⟩)
    · exact ⟨c :: a, ha, b, hb, rfl⟩
    · exact ⟨[], hnil, c :: x, hm, rfl⟩

theorem cons_mem_kstar {l : Language α} :
    c :: x ∈ KStar.kstar l ↔ ∃ a b, c :: a ∈ l ∧ b ∈ KStar.kstar l ∧ a ++ b = x := by
  constructor
  · intro h
    obtain ⟨parts, hx, hparts⟩ := Language.mem_kstar_iff_exists_nonempty.mp h
    cases parts with
    | nil => cases hx
    | cons part parts =>
      obtain ⟨hpart, hne⟩ := hparts part List.mem_cons_self
      cases part with
      | nil => exact absurd rfl hne
      | cons d part =>
        rw [List.flatten_cons, List.cons_append] at hx
        obtain ⟨rfl, rfl⟩ := List.cons.inj hx
        refine ⟨part, parts.flatten, hpart, Language.join_mem_kstar fun y hy => ?_, rfl⟩
        exact (hparts y (List.mem_cons_of_mem _ hy)).1
  · rintro ⟨a, b, ha, hb, rfl⟩
    obtain ⟨parts, rfl, hparts⟩ := Language.mem_kstar.mp hb
    refine Language.mem_kstar.mpr ⟨(c :: a) :: parts, rfl, fun y hy => ?_⟩
    rcases List.mem_cons.mp hy with rfl | hy
    · exact ha
    · exact hparts y hy

theorem mem_lang_deriv : x ∈ (p.deriv c).lang ↔ c :: x ∈ p.lang := by
  induction p generalizing x with
  | never => simp [deriv, lang]
  | empty => simp [deriv, lang, Language.mem_one]
  | set p =>
    have hset : c :: x ∈ (set p).lang ↔ p c = true ∧ x = [] := by
      constructor
      · rintro ⟨d, hd, h⟩
        cases h
        exact ⟨hd, rfl⟩
      · rintro ⟨hc, rfl⟩
        exact ⟨c, hc, rfl⟩
    rw [hset, deriv]
    split <;> simp_all [lang, Language.mem_one]
  | seq p q ihp ihq =>
    have hleft : x ∈ (seq (p.deriv c) q).lang ↔
        ∃ a b, c :: a ∈ p.lang ∧ b ∈ q.lang ∧ a ++ b = x := by
      simp only [lang, Language.mem_mul, ihp]
      constructor
      · rintro ⟨a, ha, b, hb, rfl⟩
        exact ⟨a, b, ha, hb, rfl⟩
      · rintro ⟨a, b, ha, hb, rfl⟩
        exact ⟨a, ha, b, hb, rfl⟩
    rw [lang, cons_mem_mul, ← matchesEmpty_iff, deriv]
    split
    · next hempty =>
      rw [lang, Language.mem_add, hleft, ihq]
      simp [hempty]
    · next hempty =>
      rw [hleft]
      simp [hempty]
  | alt p q ihp ihq => simp only [deriv, lang, Language.mem_add, ihp, ihq]
  | star p ih =>
    rw [deriv, lang, lang, cons_mem_kstar, Language.mem_mul]
    constructor
    · rintro ⟨a, ha, b, hb, rfl⟩
      exact ⟨a, b, ih.mp ha, hb, rfl⟩
    · rintro ⟨a, b, ha, hb, rfl⟩
      exact ⟨a, ih.mpr ha, b, hb, rfl⟩

/-- The matcher decides the language of the pattern. -/
theorem accepts_iff : p.accepts x = true ↔ x ∈ p.lang := by
  induction x generalizing p with
  | nil => exact matchesEmpty_iff
  | cons c x ih => rw [accepts, ih, mem_lang_deriv]

/-- No match has the character. -/
def avoids (c : α) : Pattern α → Bool
  | never => true
  | empty => true
  | set p => !p c
  | seq p q => p.avoids c && q.avoids c
  | alt p q => p.avoids c && q.avoids c
  | star p => p.avoids c

theorem not_mem_of_avoids (h : p.avoids c = true) (hx : x ∈ p.lang) : c ∉ x := by
  induction p generalizing x with
  | never => cases hx
  | empty =>
    obtain rfl := (Language.mem_one x).mp hx
    exact List.not_mem_nil
  | set p =>
    obtain ⟨d, hd, rfl⟩ := hx
    rw [List.mem_singleton]
    rintro rfl
    simp [avoids, hd] at h
  | seq p q ihp ihq =>
    obtain ⟨hp, hq⟩ := Bool.and_eq_true_iff.mp h
    obtain ⟨a, ha, b, hb, rfl⟩ := Language.mem_mul.mp hx
    rw [List.mem_append, not_or]
    exact ⟨ihp hp ha, ihq hq hb⟩
  | alt p q ihp ihq =>
    obtain ⟨hp, hq⟩ := Bool.and_eq_true_iff.mp h
    rcases (Language.mem_add ..).mp hx with hx | hx
    · exact ihp hp hx
    · exact ihq hq hx
  | star p ih =>
    obtain ⟨parts, rfl, hparts⟩ := Language.mem_kstar.mp hx
    rw [List.mem_flatten]
    rintro ⟨part, hpart, hc⟩
    exact ih h (hparts part hpart) hc

/-- No branch of the pattern is left. -/
def fails : Pattern α → Bool
  | never => true
  | empty => false
  | set _ => false
  | seq p q => p.fails || q.fails
  | alt p q => p.fails && q.fails
  | star _ => false

theorem not_mem_of_fails (h : p.fails = true) : x ∉ p.lang := by
  induction p generalizing x with
  | never => exact Language.notMem_zero x
  | empty => cases h
  | set p => cases h
  | seq p q ihp ihq =>
    intro hx
    obtain ⟨a, ha, b, hb, -⟩ := Language.mem_mul.mp hx
    rcases Bool.or_eq_true_iff.mp h with h | h
    · exact ihp h ha
    · exact ihq h hb
  | alt p q ihp ihq =>
    obtain ⟨hp, hq⟩ := Bool.and_eq_true_iff.mp h
    rw [lang, Language.mem_add, not_or]
    exact ⟨ihp hp, ihq hq⟩
  | star p _ => cases h

theorem mem_star_set {p : α → Bool} : x ∈ (star (set p)).lang ↔ ∀ c ∈ x, p c = true := by
  induction x with
  | nil => exact iff_of_true (Language.nil_mem_kstar _) (by simp)
  | cons c x ih =>
    rw [List.forall_mem_cons, ← ih]
    change c :: x ∈ KStar.kstar (set p).lang ↔ p c = true ∧ x ∈ KStar.kstar (set p).lang
    rw [cons_mem_kstar]
    constructor
    · rintro ⟨a, b, ⟨d, hd, ha⟩, hb, rfl⟩
      cases ha
      exact ⟨hd, hb⟩
    · rintro ⟨hc, hx⟩
      exact ⟨[], x, ⟨c, hc, rfl⟩, hx, rfl⟩

theorem mem_seq_set {p : α → Bool} : c :: x ∈ (seq (set p) q).lang ↔ p c = true ∧ x ∈ q.lang := by
  rw [lang, cons_mem_mul]
  constructor
  · rintro (⟨a, b, ⟨d, hd, ha⟩, hb, rfl⟩ | ⟨⟨d, -, h⟩, -⟩)
    · cases ha
      exact ⟨hd, hb⟩
    · cases h
  · rintro ⟨hc, hx⟩
    exact Or.inl ⟨[], x, ⟨c, hc, rfl⟩, hx, rfl⟩

theorem mem_plus_set {p : α → Bool} :
    x ∈ (plus (set p)).lang ↔ x ≠ [] ∧ ∀ c ∈ x, p c = true := by
  cases x with
  | nil =>
    refine iff_of_false ?_ (by simp)
    rintro ⟨a, ⟨d, -, rfl⟩, b, -, h⟩
    cases h
  | cons c x =>
    rw [plus, mem_seq_set, mem_star_set, List.forall_mem_cons]
    simp

/-- The length of the longest match at the start of a text; 0 where nothing matches, or nothing but
the empty text. -/
def longest (p : Pattern α) (text : List α) : ℕ :=
  Nat.findGreatest (fun n => p.accepts (text.take n) = true) text.length

theorem longest_le_length : p.longest x ≤ x.length := Nat.findGreatest_le _

theorem accepts_longest (h : 0 < p.longest x) : x.take (p.longest x) ∈ p.lang :=
  accepts_iff.mp (Nat.findGreatest_of_ne_zero rfl h.ne')

theorem le_longest (hn : n ≤ x.length) (h : x.take n ∈ p.lang) : n ≤ p.longest x :=
  Nat.le_findGreatest hn (accepts_iff.mpr h)

theorem longest_le (h : ∀ m, n < m → m ≤ x.length → x.take m ∉ p.lang) : p.longest x ≤ n := by
  by_contra hlt
  rw [not_le] at hlt
  exact h _ hlt longest_le_length (accepts_longest (by omega))

/-- Text behind, which no match reaches, changes nothing. -/
theorem longest_append (h : ∀ m, x.length < m → m ≤ (x ++ y).length → (x ++ y).take m ∉ p.lang) :
    p.longest (x ++ y) = p.longest x := by
  have hle := longest_le h
  apply le_antisymm
  · by_cases hpos : 0 < p.longest (x ++ y)
    · apply le_longest hle
      have hmem := accepts_longest hpos
      rwa [List.take_append_of_le_length hle] at hmem
    · omega
  · by_cases hpos : 0 < p.longest x
    · apply le_longest
      · rw [List.length_append]
        exact longest_le_length.trans (Nat.le_add_right _ _)
      · rw [List.take_append_of_le_length longest_le_length]
        exact accepts_longest hpos
    · omega

end Pattern

/-- What is done at a match. -/
inductive Action (α σ τ : Type)
  | skip
  | begin (s : σ)
  | token (f : List α → τ)
  | stop

/-- The text `x` that is left behind a match has the property. -/
def Action.Leaves (P : σ → List α → Prop) (s : σ) (x : List α) : Action α σ τ → Prop
  | .skip => P s x
  | .begin s' => P s' x
  | .token _ => P s x
  | .stop => False

/-- A rule. Without start conditions it is active in all of them, as they are inclusive. -/
structure Rule (α σ τ : Type) where
  start : List σ
  pattern : Pattern α
  action : Action α σ τ

variable [DecidableEq σ] {s s' : σ} {text rest : List α} {r : Rule α σ τ}
  {rules before behind : List (Rule α σ τ)} {n m : ℕ}

namespace Rule

def longest (r : Rule α σ τ) (s : σ) (text : List α) : ℕ :=
  if r.start = [] ∨ s ∈ r.start then r.pattern.longest text else 0

theorem longest_of_active (h : r.start = [] ∨ s ∈ r.start) :
    r.longest s text = r.pattern.longest text := if_pos h

theorem longest_le_pattern : r.longest s text ≤ r.pattern.longest text := by
  unfold longest
  split
  · exact le_rfl
  · exact Nat.zero_le _

end Rule

/-- The rule with the longest match, the earliest of these, and the length of its match. -/
def best (s : σ) (text : List α) : List (Rule α σ τ) → Option (Rule α σ τ × ℕ)
  | [] => none
  | r :: rules =>
    match best s text rules with
    | none => if 0 < r.longest s text then some (r, r.longest s text) else none
    | some (r', m) => if m ≤ r.longest s text then some (r, r.longest s text) else some (r', m)

theorem best_eq_none : best s text rules = none ↔ ∀ r ∈ rules, r.longest s text = 0 := by
  induction rules with
  | nil => simp [best]
  | cons r rules ih =>
    rw [best, List.forall_mem_cons, ← ih]
    cases best s text rules with
    | none => simp [Nat.pos_iff_ne_zero]
    | some b =>
      simp only [reduceCtorEq, and_false, iff_false]
      split <;> simp

theorem longest_le_of_split {before behind : List (Rule α σ τ)} (hlen : r.longest s text = n)
    (hbefore : ∀ r' ∈ before, r'.longest s text < n)
    (hbehind : ∀ r' ∈ behind, r'.longest s text ≤ n) :
    ∀ r' ∈ before ++ r :: behind, r'.longest s text ≤ n := by
  intro r' hr'
  rcases List.mem_append.mp hr' with hr' | hr'
  · exact (hbefore r' hr').le
  · rcases List.mem_cons.mp hr' with rfl | hr'
    · exact hlen.le
    · exact hbehind r' hr'

/-- The best rule matches the most, and more than every rule before it. -/
theorem best_eq_some : best s text rules = some (r, n) ↔ 0 < n ∧ r.longest s text = n ∧
    ∃ before behind, rules = before ++ r :: behind ∧ (∀ r' ∈ before, r'.longest s text < n) ∧
      ∀ r' ∈ behind, r'.longest s text ≤ n := by
  induction rules generalizing r n with
  | nil => simp [best]
  | cons r₀ rules ih =>
    rw [best]
    constructor
    · intro h
      cases hb : best s text rules with
      | none =>
        simp only [hb] at h
        split at h
        · next hpos =>
          cases h
          refine ⟨hpos, rfl, [], rules, rfl, by simp, fun r' hr' => ?_⟩
          rw [best_eq_none.mp hb r' hr']
          exact Nat.zero_le _
        · cases h
      | some b =>
        obtain ⟨r₁, m⟩ := b
        obtain ⟨hpos, hlen, before, behind, hrules, hbefore, hbehind⟩ := ih.mp hb
        simp only [hb] at h
        split at h
        · next hle =>
          cases h
          refine ⟨hpos.trans_le hle, rfl, [], rules, rfl, by simp, fun r' hr' => ?_⟩
          rw [hrules] at hr'
          exact (longest_le_of_split hlen hbefore hbehind r' hr').trans hle
        · next hlt =>
          cases h
          refine ⟨hpos, hlen, r₀ :: before, behind, by rw [hrules, List.cons_append], ?_, hbehind⟩
          exact List.forall_mem_cons.mpr ⟨not_le.mp hlt, hbefore⟩
    · rintro ⟨hpos, hlen, before, behind, hrules, hbefore, hbehind⟩
      cases before with
      | nil =>
        obtain ⟨rfl, rfl⟩ := List.cons.inj hrules
        cases hb : best s text rules with
        | none => simp only [hlen, if_pos hpos]
        | some b =>
          obtain ⟨r₁, m⟩ := b
          obtain ⟨-, hm, before, behind, hrules', -, -⟩ := ih.mp hb
          have hmem : r₁ ∈ rules := by
            rw [hrules']
            exact List.mem_append_right _ List.mem_cons_self
          have hle : m ≤ n := by
            rw [← hm]
            exact hbehind r₁ hmem
          simp only [hlen, if_pos hle]
      | cons b before =>
        rw [List.cons_append] at hrules
        obtain ⟨rfl, rfl⟩ := List.cons.inj hrules
        obtain ⟨hlt, hbefore⟩ := List.forall_mem_cons.mp hbefore
        simp only [ih.mpr ⟨hpos, hlen, before, behind, rfl, hbefore, hbehind⟩]
        rw [if_neg (not_le.mpr hlt)]

/-- The match is within the text. -/
theorem best_le_length (h : best s text rules = some (r, n)) : 0 < n ∧ n ≤ text.length := by
  obtain ⟨hpos, hlen, -⟩ := best_eq_some.mp h
  exact ⟨hpos, hlen.ge.trans (Rule.longest_le_pattern.trans Pattern.longest_le_length)⟩

theorem best_congr {text' : List α}
    (h : ∀ r ∈ rules, r.longest s text = r.longest s text') :
    best s text rules = best s text' rules := by
  induction rules with
  | nil => rfl
  | cons r rules ih =>
    obtain ⟨hr, hrules⟩ := List.forall_mem_cons.mp h
    rw [best, best, ih hrules, hr]

/-- The tokens of a text, and the start condition at its end unless the lexer was stopped. Each
round takes a character at least; one that no rule matches is copied to the output. -/
def run (rules : List (Rule α σ τ)) : ℕ → σ → List α → List τ × Option σ
  | 0, s, _ => ([], some s)
  | _ + 1, s, [] => ([], some s)
  | rounds + 1, s, c :: text =>
    match best s (c :: text) rules with
    | none => run rules rounds s text
    | some (r, n) =>
      match r.action with
      | .skip => run rules rounds s ((c :: text).drop n)
      | .begin s' => run rules rounds s' ((c :: text).drop n)
      | .token f =>
        let result := run rules rounds s ((c :: text).drop n)
        (f ((c :: text).take n) :: result.1, result.2)
      | .stop => ([], none)

def lex (rules : List (Rule α σ τ)) (s : σ) (text : List α) : List τ × Option σ :=
  run rules text.length s text

/-- What follows a match of so many characters. -/
def goOn (rules : List (Rule α σ τ)) (s : σ) (text : List α) (n : ℕ) :
    Action α σ τ → List τ × Option σ
  | .skip => lex rules s (text.drop n)
  | .begin s' => lex rules s' (text.drop n)
  | .token f =>
    (f (text.take n) :: (lex rules s (text.drop n)).1, (lex rules s (text.drop n)).2)
  | .stop => ([], none)

/-- More rounds than characters change nothing. -/
theorem run_congr {rounds rounds' : ℕ} (h : text.length ≤ rounds) (h' : text.length ≤ rounds') :
    run rules rounds s text = run rules rounds' s text := by
  induction rounds generalizing rounds' s text with
  | zero =>
    obtain rfl := List.length_eq_zero_iff.mp (Nat.le_zero.mp h)
    cases rounds' <;> rfl
  | succ rounds ih =>
    cases text with
    | nil => cases rounds' <;> rfl
    | cons c text =>
      obtain ⟨rounds', rfl⟩ := Nat.exists_eq_add_one_of_ne_zero (n := rounds') (by
        rintro rfl
        cases h')
      rw [List.length_cons, Nat.add_le_add_iff_right] at h h'
      rw [run, run]
      cases hb : best s (c :: text) rules with
      | none => exact ih h h'
      | some b =>
        obtain ⟨r, n⟩ := b
        obtain ⟨hpos, -⟩ := best_le_length hb
        have hdrop : ((c :: text).drop n).length ≤ text.length := by
          rw [List.length_drop, List.length_cons]
          omega
        have hrest := fun s => ih (s := s) (hdrop.trans h) (hdrop.trans h')
        simp only [hrest]

@[simp] theorem lex_nil : lex rules s [] = ([], some s) := rfl

theorem lex_of_best (h : best s text rules = some (r, n)) :
    lex rules s text = goOn rules s text n r.action := by
  obtain ⟨hpos, hle⟩ := best_le_length h
  cases text with
  | nil => exact absurd (hpos.trans_le hle) (by simp)
  | cons c text =>
    have hdrop : ((c :: text).drop n).length ≤ text.length := by
      rw [List.length_drop, List.length_cons]
      omega
    have hrest : ∀ s, run rules text.length s ((c :: text).drop n) =
        lex rules s ((c :: text).drop n) := fun s => run_congr hdrop le_rfl
    rw [lex, List.length_cons, run]
    simp only [h, hrest]
    cases r.action <;> rfl

/-- A text with another one behind: if every match in the first is the same with the other behind
it, the tokens are those of the first and then those of the other. `P` is what is known of the part
that is left. -/
theorem lex_append {P : σ → List α → Prop}
    (hstep : ∀ s x, P s x → x ≠ [] → ∃ r n, best s x rules = some (r, n) ∧
      best s (x ++ rest) rules = some (r, n) ∧ r.action.Leaves P s (x.drop n))
    (h : P s text) : ∃ t, (lex rules s text).2 = some t ∧ lex rules s (text ++ rest) =
      ((lex rules s text).1 ++ (lex rules t rest).1, (lex rules t rest).2) := by
  induction hlen : text.length using Nat.strong_induction_on generalizing s text with
  | h len ih =>
    subst hlen
    by_cases hnil : text = []
    · subst hnil
      exact ⟨s, rfl, rfl⟩
    obtain ⟨r, n, hb, hb', hP⟩ := hstep s text h hnil
    obtain ⟨hpos, hle⟩ := best_le_length hb
    have hlt : (text.drop n).length < text.length := by
      rw [List.length_drop]
      omega
    rw [lex_of_best hb, lex_of_best hb']
    cases haction : r.action with
    | skip =>
      rw [haction] at hP
      simp only [goOn, List.drop_append_of_le_length hle]
      exact ih _ hlt hP rfl
    | begin s' =>
      rw [haction] at hP
      simp only [goOn, List.drop_append_of_le_length hle]
      exact ih _ hlt hP rfl
    | token f =>
      rw [haction] at hP
      obtain ⟨t, ht, hlex⟩ := ih _ hlt hP rfl
      refine ⟨t, ht, ?_⟩
      simp only [goOn, List.drop_append_of_le_length hle, List.take_append_of_le_length hle, hlex,
        List.cons_append]
    | stop =>
      rw [haction] at hP
      exact absurd hP id

theorem Pattern.longest_take {p : Pattern α} {x : List α} (h : p.longest x ≤ n) :
    p.longest (x.take n) = p.longest x := by
  apply le_antisymm
  · by_cases hpos : 0 < p.longest (x.take n)
    · have hle : p.longest (x.take n) ≤ min n x.length := by
        rw [← List.length_take]
        exact longest_le_length
      have hmem := accepts_longest hpos
      rw [List.take_take, min_eq_left (hle.trans (min_le_left _ _))] at hmem
      exact le_longest (hle.trans (min_le_right _ _)) hmem
    · omega
  · by_cases hpos : 0 < p.longest x
    · apply le_longest
      · rw [List.length_take]
        exact le_min h longest_le_length
      · rw [List.take_take, min_eq_left h]
        exact accepts_longest hpos
    · omega

theorem longest_le_best (h : best s text rules = some (r, n)) :
    ∀ r' ∈ rules, r'.longest s text ≤ n := by
  obtain ⟨-, hlen, before, behind, rfl, hbefore, hbehind⟩ := best_eq_some.mp h
  exact longest_le_of_split hlen hbefore hbehind

theorem best_mem (h : best s text rules = some (r, n)) : r ∈ rules := by
  obtain ⟨-, -, before, behind, rfl, -⟩ := best_eq_some.mp h
  exact List.mem_append_right _ List.mem_cons_self

/-- The best rule is active, and what it takes is in its language. -/
theorem best_lang (h : best s text rules = some (r, n)) :
    (r.start = [] ∨ s ∈ r.start) ∧ text.take n ∈ r.pattern.lang := by
  obtain ⟨hpos, hlen, -⟩ := best_eq_some.mp h
  unfold Rule.longest at hlen
  split at hlen
  · next hactive =>
    subst hlen
    exact ⟨hactive, Pattern.accepts_longest hpos⟩
  · omega

/-- What is matched is matched alike without the text behind it. -/
theorem best_take (h : best s text rules = some (r, n)) :
    best s (text.take n) rules = some (r, n) := by
  rw [← h]
  refine best_congr fun r' hr' => ?_
  have hle := longest_le_best h r' hr'
  unfold Rule.longest at hle ⊢
  split
  · next hactive =>
    rw [if_pos hactive] at hle
    exact Pattern.longest_take hle
  · rfl

theorem lex_of_none {c : α} (h : best s (c :: text) rules = none) :
    lex rules s (c :: text) = lex rules s text := by
  rw [lex, List.length_cons, run]
  simp only [h]
  rfl

/-- Every token is what some rule makes of its match. -/
theorem mem_lex {t : τ} (h : t ∈ (lex rules s text).1) : ∃ s' x r n f,
    best s' x rules = some (r, n) ∧ r.action = .token f ∧ t = f (x.take n) := by
  induction hlen : text.length using Nat.strong_induction_on generalizing s text with
  | h len ih =>
    subst hlen
    cases text with
    | nil => simp at h
    | cons c text =>
      cases hb : best s (c :: text) rules with
      | none =>
        rw [lex_of_none hb] at h
        exact ih _ (by simp) h rfl
      | some b =>
        obtain ⟨r, n⟩ := b
        obtain ⟨hpos, hle⟩ := best_le_length hb
        have hlt : ((c :: text).drop n).length < (c :: text).length := by
          rw [List.length_drop]
          omega
        rw [lex_of_best hb] at h
        cases haction : r.action with
        | skip =>
          rw [haction] at h
          exact ih _ hlt h rfl
        | begin s' =>
          rw [haction] at h
          exact ih _ hlt h rfl
        | token f =>
          rw [haction] at h
          rcases List.mem_cons.mp h with rfl | h
          · exact ⟨s, c :: text, r, n, f, hb, haction, rfl⟩
          · exact ih _ hlt h rfl
        | stop =>
          rw [haction] at h
          cases h

section Map

variable {f : α → α} {moved : List α}

/-- The pattern takes `f c` for `c`, whenever `f` moves `c`. -/
def Pattern.respects (f : α → α) (moved : List α) : Pattern α → Bool
  | never => true
  | empty => true
  | set p => moved.all fun c => p (f c) == p c
  | seq p q => p.respects f moved && q.respects f moved
  | alt p q => p.respects f moved && q.respects f moved
  | star p => p.respects f moved

theorem Pattern.deriv_map {p : Pattern α} {c : α} (hf : ∀ c, c ∉ moved → f c = c)
    (h : p.respects f moved = true) :
    p.deriv (f c) = p.deriv c ∧ (p.deriv c).respects f moved = true := by
  induction p with
  | never => exact ⟨rfl, rfl⟩
  | empty => exact ⟨rfl, rfl⟩
  | set p =>
    have hp : p (f c) = p c := by
      by_cases hc : c ∈ moved
      · simpa using List.all_eq_true.mp h c hc
      · rw [hf c hc]
    refine ⟨by rw [deriv, deriv, hp], ?_⟩
    rw [deriv]
    split <;> rfl
  | seq p q ihp ihq =>
    obtain ⟨hp, hq⟩ := Bool.and_eq_true_iff.mp h
    obtain ⟨hdp, hrp⟩ := ihp hp
    obtain ⟨hdq, hrq⟩ := ihq hq
    refine ⟨by rw [deriv, deriv, hdp, hdq], ?_⟩
    rw [deriv]
    split
    · simp [respects, hrp, hq, hrq]
    · simp [respects, hrp, hq]
  | alt p q ihp ihq =>
    obtain ⟨hp, hq⟩ := Bool.and_eq_true_iff.mp h
    obtain ⟨hdp, hrp⟩ := ihp hp
    obtain ⟨hdq, hrq⟩ := ihq hq
    exact ⟨by rw [deriv, deriv, hdp, hdq], by simp [deriv, respects, hrp, hrq]⟩
  | star p ih =>
    obtain ⟨hdp, hrp⟩ := ih h
    exact ⟨by rw [deriv, deriv, hdp], by simpa [deriv, respects, hrp] using h⟩

theorem Pattern.accepts_map {p : Pattern α} {x : List α} (hf : ∀ c, c ∉ moved → f c = c)
    (h : p.respects f moved = true) : p.accepts (x.map f) = p.accepts x := by
  induction x generalizing p with
  | nil => rfl
  | cons c x ih =>
    obtain ⟨hd, hr⟩ := deriv_map hf h (c := c)
    rw [List.map_cons, accepts, accepts, hd, ih hr]

theorem Pattern.longest_map {p : Pattern α} {x : List α} (hf : ∀ c, c ∉ moved → f c = c)
    (h : p.respects f moved = true) : p.longest (x.map f) = p.longest x := by
  have hn : ∀ n, p.accepts ((x.map f).take n) = p.accepts (x.take n) := by
    intro n
    rw [← List.map_take, accepts_map hf h]
  simp only [longest, hn, List.length_map]

/-- Rules that treat every character as its image find the same tokens in the image of a text. -/
theorem lex_map {g : τ → τ} (hf : ∀ c, c ∉ moved → f c = c)
    (hr : ∀ r ∈ rules, r.pattern.respects f moved = true)
    (hg : ∀ r ∈ rules, ∀ k, r.action = .token k → ∀ x ∈ r.pattern.lang, k (x.map f) = g (k x)) :
    lex rules s (text.map f) = ((lex rules s text).1.map g, (lex rules s text).2) := by
  have hbest : ∀ s x, best s (x.map f) rules = best s x rules := by
    intro s x
    refine best_congr fun r hmem => ?_
    simp only [Rule.longest, Pattern.longest_map hf (hr r hmem)]
  induction hlen : text.length using Nat.strong_induction_on generalizing s text with
  | h len ih =>
    subst hlen
    cases text with
    | nil => rfl
    | cons c text =>
      cases hb : best s (c :: text) rules with
      | none =>
        have hb' := hbest s (c :: text)
        rw [hb, List.map_cons] at hb'
        rw [lex_of_none hb, List.map_cons, lex_of_none hb']
        exact ih _ (by simp) rfl
      | some b =>
        obtain ⟨r, n⟩ := b
        obtain ⟨hpos, hle⟩ := best_le_length hb
        have hlt : ((c :: text).drop n).length < (c :: text).length := by
          rw [List.length_drop]
          omega
        rw [lex_of_best hb, lex_of_best ((hbest s (c :: text)).trans hb)]
        cases haction : r.action with
        | skip =>
          simp only [goOn, ← List.map_drop]
          exact ih _ hlt rfl
        | begin s' =>
          simp only [goOn, ← List.map_drop]
          exact ih _ hlt rfl
        | token k =>
          have hk := hg r (best_mem hb) k haction _ (best_lang hb).2
          simp only [goOn, ← List.map_drop, ← List.map_take, hk, ih _ hlt rfl]
          rfl
        | stop => rfl

end Map

end Flex
