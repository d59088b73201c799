import AlphaDb.Sql.Lexer

/-! Comments in SQL texts: what the lexer makes of the text behind them (`sql/parser/lexer.l`). -/
namespace AlphaDb.Sql

open Flex Flex.Pattern

variable {s : StartCondition} {r : LexRule} {x c u v w b : List Char} {a q : Char} {n : ℕ}

section Rules

/-- The rules whose matches have no white space and no quotes. -/
def words : List LexRule :=
  dashes :: (keywords ++ operators ++ signRule :: numbers ++ [identifier])

theorem words_avoid : ∀ r ∈ words, ∀ a ∈ [' ', '\t', '\n', doubleQuote, singleQuote],
    r.pattern.avoids a = true := by
  have hall : (words.all fun r => [' ', '\t', '\n', doubleQuote, singleQuote].all fun a =>
      r.pattern.avoids a) = true := by decide +kernel
  intro r hr
  exact List.all_eq_true.mp (List.all_eq_true.mp hall r hr)

theorem known_cases (hr : r ∈ known) : r ∈ words ∨ r = restOfLine ∨ r = endOfLine ∨ r = space ∨
    r = quotedIdentifier ∨ r = string := by
  simp only [known, words, List.mem_cons, List.mem_append, List.not_mem_nil, or_false] at hr ⊢
  tauto

theorem mem_quote {y : List Char} : x ∈ (quote y).lang ↔ x = y := by
  induction y generalizing x with
  | nil => exact Language.mem_one x
  | cons d y ih =>
    cases x with
    | nil =>
      refine iff_of_false ?_ (by simp)
      rintro ⟨_, ⟨_, -, rfl⟩, _, -, h⟩
      cases h
    | cons a x =>
      change a :: x ∈ (Pattern.seq (lit d) (quote y)).lang ↔ _
      rw [lit, mem_seq_set, ih]
      simp

/-- A quoted text begins and ends with its quote. -/
theorem mem_quoted {inner : Pattern Char} (h : x ∈ (quoted q inner).lang) :
    ∃ i ∈ inner.lang, x = q :: (i ++ [q]) := by
  cases x with
  | nil =>
    obtain ⟨_, ⟨_, -, rfl⟩, _, -, h⟩ := h
    cases h
  | cons a x =>
    rw [quoted, lit, mem_seq_set] at h
    obtain ⟨ha, i, hi, y, ⟨d, hd, rfl⟩, rfl⟩ := h
    obtain rfl : a = q := by simpa using ha
    obtain rfl : d = a := by simpa using hd
    exact ⟨i, hi, rfl⟩

/-- A pattern that avoids the first character matches nothing. -/
theorem longest_eq_zero {p : Pattern Char} (h : p.avoids a = true) : p.longest (a :: x) = 0 := by
  refine Nat.le_zero.mp (longest_le fun m hm _ hmem => ?_)
  obtain ⟨m, rfl⟩ := Nat.exists_eq_add_one_of_ne_zero hm.ne'
  exact not_mem_of_avoids h hmem (by simp)

theorem take_of_lt {m : ℕ} (h : x.length < m) :
    ∃ k, (x ++ a :: v).take m = x ++ a :: v.take k := by
  obtain ⟨k, rfl⟩ := Nat.exists_eq_add_of_lt h
  refine ⟨k, ?_⟩
  rw [List.take_append, List.take_of_length_le (by omega),
    show x.length + k + 1 - x.length = k + 1 by omega, List.take_succ_cons]

theorem mem_take_of_lt {m : ℕ} (h : x.length < m) : a ∈ (x ++ a :: v).take m := by
  obtain ⟨k, hk⟩ := take_of_lt h (a := a) (v := v)
  rw [hk]
  simp

/-- A pattern that avoids a character matches at most what is before it. -/
theorem longest_le_of_avoids {p : Pattern Char} (h : p.avoids a = true) :
    p.longest (x ++ a :: v) ≤ x.length :=
  longest_le fun _ hm _ hmem => not_mem_of_avoids h hmem (mem_take_of_lt hm)

theorem longest_set_le {p : Char → Bool} : (Pattern.set p).longest x ≤ 1 := by
  refine longest_le fun m hm hle hmem => ?_
  obtain ⟨d, -, h⟩ := hmem
  have hlen := congrArg List.length h
  rw [List.length_take, List.length_singleton] at hlen
  omega

/-- White space with a text behind that does not begin with it. -/
theorem longest_space (hb : ∀ a ∈ b, isBlank a = true) (hw : ∀ a ∈ w.head?, isBlank a = false) :
    space.pattern.longest (b ++ w) = b.length := by
  apply le_antisymm
  · cases w with
    | nil =>
      rw [List.append_nil]
      exact longest_le_length
    | cons a w =>
      refine longest_le fun m hm _ hmem => ?_
      obtain ⟨-, hall⟩ := mem_plus_set.mp hmem
      have hblank := hall a (mem_take_of_lt hm)
      rw [hw a rfl] at hblank
      cases hblank
  · by_cases hnil : b = []
    · rw [hnil]
      exact Nat.zero_le _
    · apply le_longest
      · rw [List.length_append]
        exact Nat.le_add_right _ _
      · rw [List.take_left']
        · exact mem_plus_set.mpr ⟨hnil, hb⟩
        · rfl

/-- In a comment, the rest of the line. -/
theorem longest_restOfLine (hc : '\n' ∉ c) :
    restOfLine.pattern.longest (c ++ '\n' :: v) = c.length := by
  apply le_antisymm
  · exact longest_le_of_avoids rfl
  · apply le_longest
    · rw [List.length_append]
      exact Nat.le_add_right _ _
    · rw [List.take_left' rfl]
      refine mem_star_set.mpr fun a ha => ?_
      exact decide_eq_true fun h : a = '\n' => hc (h ▸ ha)

end Rules

section Before

/-- Some rule matches, whatever the text. -/
theorem best_ne_none (hx : x ≠ []) : best s x rules ≠ none := by
  rw [Ne, best_eq_none]
  intro h
  obtain ⟨a, x, rfl⟩ := List.exists_cons_of_ne_nil hx
  by_cases ha : a = '\n'
  · subst ha
    have hspace := h space (by simp [rules, known])
    rw [Rule.longest_of_active (Or.inl rfl)] at hspace
    have hone : 1 ≤ space.pattern.longest ('\n' :: x) :=
      le_longest (by simp) (mem_plus_set.mpr ⟨by simp, by simp [isBlank]⟩)
    omega
  · have hunknown := h unknown (by simp [rules])
    rw [Rule.longest_of_active (Or.inl rfl)] at hunknown
    have hone : 1 ≤ unknown.pattern.longest (a :: x) :=
      le_longest (by simp) ⟨a, by simpa using ha, rfl⟩
    omega

/-- A line that ends in a blank does not end a comment. -/
theorem lex_comment_line (hline : '\n' ∉ x) (hlast : ' ' ∈ x) :
    (lex rules .comment x).2 = some .comment := by
  have hpos : 0 < x.length := List.length_pos_of_mem hlast
  have hbest : best .comment x rules = some (restOfLine, x.length) := by
    refine best_eq_some.mpr ⟨hpos, ?_, [dashes], known.drop 2 ++ [unknown], rfl, ?_, fun r _ => ?_⟩
    · rw [Rule.longest_of_active (Or.inr (by decide))]
      apply le_antisymm longest_le_length
      apply le_longest le_rfl
      rw [List.take_length]
      refine mem_star_set.mpr fun a ha => ?_
      exact decide_eq_true fun h : a = '\n' => hline (h ▸ ha)
    · rw [List.forall_mem_singleton]
      refine (Rule.longest_le_pattern).trans_lt (lt_of_le_of_ne longest_le_length fun h => ?_)
      have hmem := accepts_longest (h ▸ hpos)
      rw [h, List.take_length] at hmem
      exact not_mem_of_avoids (by decide) hmem hlast
    · exact Rule.longest_le_pattern.trans longest_le_length
  rw [lex_of_best hbest]
  change (lex rules .comment (x.drop x.length)).2 = _
  rw [List.drop_length, lex_nil]

/-- A quote that is not closed on its line is an unknown character. -/
theorem lex_open_quote (hq : q = doubleQuote ∨ q = singleQuote) (hclosed : q ∉ x) :
    (lex rules .initial (q :: x)).2 = none := by
  have hquoted : ∀ (q' : Char) (inner : Pattern Char),
      (quoted q' inner).longest (q :: x) = 0 := by
    intro q' inner
    refine Nat.le_zero.mp (longest_le fun m hm _ hmem => ?_)
    obtain ⟨m, rfl⟩ := Nat.exists_eq_add_one_of_ne_zero hm.ne'
    obtain ⟨i, -, h⟩ := mem_quoted hmem
    rw [List.take_succ_cons] at h
    obtain ⟨rfl, hrest⟩ := List.cons.inj h
    refine hclosed (List.mem_of_mem_take (i := m) ?_)
    rw [hrest]
    simp
  have havoid : ∀ r ∈ words, r.pattern.longest (q :: x) = 0 := fun r hr =>
    longest_eq_zero (words_avoid r hr q (by rcases hq with rfl | rfl <;> decide))
  have hknown : ∀ r ∈ known, r.longest .initial (q :: x) = 0 := by
    intro r hr
    rcases known_cases hr with hr | rfl | rfl | rfl | rfl | rfl
    · exact Nat.le_zero.mp (Rule.longest_le_pattern.trans (havoid r hr).le)
    · rfl
    · rfl
    · exact longest_eq_zero (by rcases hq with rfl | rfl <;> decide)
    · exact hquoted ..
    · exact hquoted ..
  have hunknown : unknown.pattern.longest (q :: x) = 1 := by
    apply le_antisymm longest_set_le
    exact le_longest (by simp) ⟨q, by rcases hq with rfl | rfl <;> decide, rfl⟩
  have hbest : best .initial (q :: x) rules = some (unknown, 1) := by
    refine best_eq_some.mpr ⟨by decide, hunknown, known, [], rfl, fun r hr => ?_, by simp⟩
    rw [hknown r hr]
    exact Nat.zero_lt_one
  rw [lex_of_best hbest]
  rfl

/-- In a text that ends in a blank and leads back to the first start condition, no quote and no
comment is open. -/
theorem not_mem_quoted {inner : Pattern Char} (hq : q = doubleQuote ∨ q = singleQuote)
    (hinner : ∀ i ∈ inner.lang, q ∉ i ∧ '\n' ∉ i) (hend : (lex rules s x).2 = some .initial)
    (hlast : ' ' ∈ x) : x ++ '-' :: v ∉ (quoted q inner).lang := by
  intro hmem
  obtain ⟨i, hi, heq⟩ := mem_quoted hmem
  obtain ⟨d, y, rfl⟩ := List.exists_cons_of_ne_nil (List.ne_nil_of_mem hlast)
  rw [List.cons_append] at heq
  obtain ⟨rfl, hrest⟩ := List.cons.inj heq
  have hlen := congrArg List.length hrest
  simp only [List.length_append, List.length_cons, List.length_nil] at hlen
  have hpre : y <+: i := List.prefix_of_prefix_length_le (List.prefix_append y ('-' :: v))
    (hrest ▸ List.prefix_append i [d]) (by omega)
  obtain ⟨hclosed, hline⟩ := hinner i hi
  cases s with
  | initial =>
    rw [lex_open_quote hq fun h => hclosed (hpre.subset h)] at hend
    cases hend
  | comment =>
    have hline' : '\n' ∉ d :: y := by
      rw [List.mem_cons, not_or]
      exact ⟨by rcases hq with rfl | rfl <;> decide, fun h => hline (hpre.subset h)⟩
    rw [lex_comment_line hline' hlast] at hend
    cases hend

/-- Such a text is matched alike with and without dashes behind it. -/
theorem longest_before_dash (hr : r ∈ rules) (hend : (lex rules s x).2 = some .initial)
    (hlast : ' ' ∈ x) : r.longest s (x ++ '-' :: v) = r.longest s x := by
  unfold Rule.longest
  split
  swap
  · rfl
  · next hactive =>
    refine longest_append fun m hm _ hmem => ?_
    obtain ⟨k, hk⟩ := take_of_lt hm (a := '-') (v := v)
    rw [hk] at hmem
    rcases List.mem_append.mp hr with hr | hr
    · rcases known_cases hr with hr | rfl | rfl | rfl | rfl | rfl
      · exact not_mem_of_avoids (words_avoid r hr ' ' (by decide)) hmem
          (List.mem_append_left _ hlast)
      · obtain rfl : s = .comment := by simpa [restOfLine] using hactive
        have hline : '\n' ∉ x := fun h => by
          have hne := mem_star_set.mp hmem '\n' (List.mem_append_left _ h)
          exact absurd hne (by decide)
        rw [lex_comment_line hline hlast] at hend
        cases hend
      · exact not_mem_of_avoids (c := ' ') rfl hmem (List.mem_append_left _ hlast)
      · exact not_mem_of_avoids (c := '-') (by decide) hmem (by simp)
      · refine not_mem_quoted (.inl rfl) (fun i hi => ?_) hend hlast hmem
        exact ⟨not_mem_of_avoids (by decide) hi, not_mem_of_avoids (by decide) hi⟩
      · refine not_mem_quoted (.inr rfl) (fun i hi => ?_) hend hlast hmem
        exact ⟨not_mem_of_avoids (by decide) hi, not_mem_of_avoids (by decide) hi⟩
    · obtain rfl := List.mem_singleton.mp hr
      obtain ⟨d, -, h⟩ := hmem
      have hlen := congrArg List.length h
      have hpos := List.length_pos_of_mem hlast
      simp only [List.length_append, List.length_cons, List.length_nil] at hlen
      omega

/-- The text before a comment is lexed as if it stood alone. -/
theorem lex_before_dash (hend : (lex rules .initial u).2 = some .initial)
    (hlast : u.getLast? = some ' ') : lex rules .initial (u ++ '-' :: v) =
      ((lex rules .initial u).1 ++ (lex rules .initial ('-' :: v)).1,
        (lex rules .initial ('-' :: v)).2) := by
  let P := fun (s : StartCondition) (x : List Char) =>
    (lex rules s x).2 = some .initial ∧ (x = [] ∨ x.getLast? = some ' ')
  have hstep : ∀ s x, P s x → x ≠ [] → ∃ r n, best s x rules = some (r, n) ∧
      best s (x ++ '-' :: v) rules = some (r, n) ∧ r.action.Leaves P s (x.drop n) := by
    rintro s x ⟨hend, hlast⟩ hx
    replace hlast := hlast.resolve_left hx
    obtain ⟨⟨r, n⟩, hb⟩ := Option.ne_none_iff_exists'.mp (best_ne_none (s := s) hx)
    have hblank : ' ' ∈ x := List.mem_of_getLast? hlast
    have hdrop : x.drop n = [] ∨ (x.drop n).getLast? = some ' ' := by
      rw [List.getLast?_drop]
      split
      · next hle => exact Or.inl (List.drop_eq_nil_of_le hle)
      · exact Or.inr hlast
    refine ⟨r, n, hb, ?_, ?_⟩
    · rw [← hb]
      exact best_congr fun r hr => longest_before_dash hr hend hblank
    · rw [lex_of_best hb] at hend
      cases haction : r.action with
      | stop =>
        rw [haction] at hend
        cases hend
      | _ =>
        rw [haction] at hend
        exact ⟨hend, hdrop⟩
  obtain ⟨t, ht, hlex⟩ := lex_append hstep ⟨hend, Or.inr hlast⟩
  obtain rfl := Option.some.inj (hend.symm.trans ht)
  exact hlex

end Before

section Behind

/-- The rules behind the one for white space. -/
def others : List LexRule := known.drop 4 ++ [unknown]

theorem rules_eq : rules = dashes :: restOfLine :: endOfLine :: space :: others := rfl

/-- The dashes take two characters, and no other rule takes both. -/
theorem lex_dashes (x : List Char) :
    lex rules .initial ('-' :: '-' :: x) = lex rules .comment x := by
  have hdashes : dashes.pattern.longest ('-' :: '-' :: x) = 2 := by
    apply le_antisymm
    · refine longest_le fun m hm hle hmem => ?_
      have hlen := congrArg List.length (mem_quote.mp hmem)
      rw [List.length_take] at hlen
      simp only [List.length_cons, List.length_nil] at hlen hle
      omega
    · exact le_longest (by simp) (mem_quote.mpr rfl)
  have hfails : ∀ r ∈ rules.tail, r.start = [] →
      ((r.pattern.deriv '-').deriv '-').fails = true := by
    decide +kernel
  have hbest : best .initial ('-' :: '-' :: x) rules = some (dashes, 2) := by
    refine best_eq_some.mpr ⟨by decide, hdashes, [], rules.tail, rfl, by simp, fun r hr => ?_⟩
    unfold Rule.longest
    split
    swap
    · exact Nat.zero_le _
    · next hactive =>
      have hall : r.start = [] := hactive.resolve_right fun h => by
        have hstart : ∀ r ∈ rules, .initial ∉ r.start := by decide +kernel
        exact hstart r (List.mem_of_mem_tail hr) h
      refine longest_le fun m hm _ hmem => ?_
      obtain ⟨k, rfl⟩ := Nat.exists_eq_add_of_lt hm
      rw [show 2 + k + 1 = k + 1 + 1 + 1 by omega, List.take_succ_cons, List.take_succ_cons] at hmem
      exact not_mem_of_fails (hfails r hr hall) (mem_lang_deriv.mpr (mem_lang_deriv.mpr hmem))
  rw [lex_of_best hbest]
  rfl

theorem others_le : ∀ r ∈ others, r.longest s (c ++ '\n' :: v) ≤ c.length := by
  have havoid : ∀ r ∈ others, r.pattern.avoids '\n' = true := by decide +kernel
  exact fun r hr => Rule.longest_le_pattern.trans (longest_le_of_avoids (havoid r hr))

/-- A comment with a visible character is skipped up to the end of its line. -/
theorem lex_comment_text (hc : '\n' ∉ c) (hvisible : ∃ a ∈ c, isBlank a = false) :
    lex rules .comment (c ++ '\n' :: v) = lex rules .comment ('\n' :: v) := by
  obtain ⟨a, ha, hblank⟩ := hvisible
  have hpos : 0 < c.length := List.length_pos_of_mem ha
  have hdashes : dashes.longest .comment (c ++ '\n' :: v) ≤ c.length :=
    Rule.longest_le_pattern.trans (longest_le_of_avoids (by decide))
  have hrest : restOfLine.longest .comment (c ++ '\n' :: v) = c.length := longest_restOfLine hc
  have hend : endOfLine.longest .comment (c ++ '\n' :: v) ≤ c.length :=
    longest_set_le.trans hpos
  have hspace : space.longest .comment (c ++ '\n' :: v) ≤ c.length := by
    refine longest_le fun m hm _ hmem => ?_
    obtain ⟨k, hk⟩ := take_of_lt hm (a := '\n') (v := v)
    rw [hk] at hmem
    have hall := (mem_plus_set.mp hmem).2 a (List.mem_append_left _ ha)
    rw [hblank] at hall
    cases hall
  have hskip : ∀ r, (r = dashes ∨ r = restOfLine) →
      best .comment (c ++ '\n' :: v) rules = some (r, c.length) →
      lex rules .comment (c ++ '\n' :: v) = lex rules .comment ('\n' :: v) := by
    intro r hr hbest
    rw [lex_of_best hbest]
    rcases hr with rfl | rfl
    · simp only [dashes, goOn, List.drop_left]
    · simp only [restOfLine, goOn, List.drop_left]
  by_cases htie : dashes.longest .comment (c ++ '\n' :: v) = c.length
  · refine hskip dashes (.inl rfl) (best_eq_some.mpr ⟨hpos, htie, [], _, rules_eq, by simp, ?_⟩)
    simp only [List.forall_mem_cons]
    exact ⟨hrest.le, hend, hspace, others_le⟩
  · refine hskip restOfLine (.inr rfl)
      (best_eq_some.mpr ⟨hpos, hrest, [dashes], _, rules_eq, ?_, ?_⟩)
    · exact List.forall_mem_singleton.mpr (lt_of_le_of_ne hdashes htie)
    · simp only [List.forall_mem_cons]
      exact ⟨hend, hspace, others_le⟩

/-- A text that does not begin with white space ends the comment at the end of the line. -/
theorem lex_end_of_line (hv : ∀ a ∈ v.head?, isBlank a = false) :
    lex rules .comment ('\n' :: v) = lex rules .initial v := by
  have hbest : best .comment ('\n' :: v) rules = some (endOfLine, 1) := by
    refine best_eq_some.mpr ⟨by decide, ?_, [dashes, restOfLine], _, rules_eq, ?_, ?_⟩
    · exact le_antisymm longest_set_le (le_longest (by simp) ⟨'\n', rfl, rfl⟩)
    · simp only [List.forall_mem_cons, List.not_mem_nil, false_imp_iff, implies_true, and_true]
      constructor
      · exact (Rule.longest_le_pattern.trans (longest_eq_zero (by decide)).le).trans_lt one_pos
      · exact (Rule.longest_le_pattern.trans (longest_eq_zero rfl).le).trans_lt one_pos
    · simp only [List.forall_mem_cons]
      refine ⟨?_, fun r hr => (others_le (c := []) r hr).trans (Nat.zero_le _)⟩
      exact (longest_space (b := ['\n']) (by simp [isBlank]) hv).le
  rw [lex_of_best hbest]
  rfl

/-- White space around the end of the line is skipped with it, and the comment goes on. -/
theorem lex_comment_blank (hc : ∀ a ∈ c, isBlank a = true) (hb : ∀ a ∈ b, isBlank a = true)
    (hw : ∀ a ∈ w.head?, isBlank a = false) (hne : ¬ (c = [] ∧ b = [])) :
    lex rules .comment (c ++ '\n' :: (b ++ w)) = lex rules .comment w := by
  have hblank : ∀ a ∈ c ++ '\n' :: b, isBlank a = true := by
    intro a ha
    rcases List.mem_append.mp ha with ha | ha
    · exact hc a ha
    · rcases List.mem_cons.mp ha with rfl | ha
      · rfl
      · exact hb a ha
  have htext : c ++ '\n' :: (b ++ w) = (c ++ '\n' :: b) ++ w := by simp
  have hlen : c.length + 1 + b.length = (c ++ '\n' :: b).length := by
    rw [List.length_append, List.length_cons]
    omega
  have hlong : 1 < (c ++ '\n' :: b).length := by
    rw [← hlen]
    rcases not_and_or.mp hne with hne | hne
    · have := List.length_pos_iff.mpr hne
      omega
    · have := List.length_pos_iff.mpr hne
      omega
  have hbest : best .comment (c ++ '\n' :: (b ++ w)) rules =
      some (space, (c ++ '\n' :: b).length) := by
    refine best_eq_some.mpr ⟨by omega, ?_, [dashes, restOfLine, endOfLine], _, rules_eq, ?_, ?_⟩
    · rw [htext]
      exact longest_space hblank hw
    · have hline : ∀ r : LexRule, r.pattern.avoids '\n' = true →
          r.longest .comment (c ++ '\n' :: (b ++ w)) < (c ++ '\n' :: b).length := by
        intro r hr
        have hle := (Rule.longest_le_pattern (r := r) (s := .comment)).trans
          (longest_le_of_avoids (x := c) (v := b ++ w) hr)
        omega
      simp only [List.forall_mem_cons, List.not_mem_nil, false_imp_iff, implies_true, and_true]
      exact ⟨hline _ (by decide), hline _ rfl,
        Rule.longest_le_pattern.trans_lt (longest_set_le.trans_lt hlong)⟩
    · exact fun r hr => (others_le r hr).trans (by omega)
  rw [lex_of_best hbest, htext]
  simp only [space, goOn, List.drop_left]

/-- Outside comments, white space is skipped. -/
theorem lex_initial_blank (hb : ∀ a ∈ b, isBlank a = true)
    (hw : ∀ a ∈ w.head?, isBlank a = false) :
    lex rules .initial (b ++ w) = lex rules .initial w := by
  cases b with
  | nil => rfl
  | cons a b =>
    have ha : a = ' ' ∨ a = '\n' ∨ a = '\t' := by simpa [isBlank, or_assoc] using hb a (by simp)
    have hfails : ∀ r ∈ dashes :: known.drop 4, (r.pattern.deriv a).fails = true := by
      rcases ha with rfl | rfl | rfl <;> decide +kernel
    have hzero : ∀ r ∈ dashes :: known.drop 4, r.longest .initial (a :: b ++ w) = 0 := by
      intro r hr
      refine Nat.le_zero.mp (Rule.longest_le_pattern.trans (longest_le fun m hm _ hmem => ?_))
      obtain ⟨m, rfl⟩ := Nat.exists_eq_add_one_of_ne_zero hm.ne'
      exact not_mem_of_fails (hfails r hr) (mem_lang_deriv.mpr hmem)
    have hbest : best .initial (a :: b ++ w) rules = some (space, (a :: b).length) := by
      refine best_eq_some.mpr ⟨by simp, longest_space hb hw, [dashes, restOfLine, endOfLine], _,
        rules_eq, ?_, ?_⟩
      · simp only [List.forall_mem_cons, List.not_mem_nil, false_imp_iff, implies_true, and_true]
        refine ⟨?_, Nat.succ_pos _, Nat.succ_pos _⟩
        rw [hzero dashes (by simp)]
        exact Nat.succ_pos _
      · intro r hr
        rcases List.mem_append.mp hr with hr | hr
        · rw [hzero r (List.mem_cons_of_mem _ hr)]
          exact Nat.zero_le _
        · obtain rfl := List.mem_singleton.mp hr
          exact Rule.longest_le_pattern.trans (longest_set_le.trans (by simp))
    rw [lex_of_best hbest]
    simp only [space, goOn, List.drop_left]

end Behind

/-- The comment `c` and the white space `b` behind its line leave the comment: there is something to
see in `c` unless it is empty, and nothing between the end of the line and the next text. -/
def EndsComment (c b : List Char) : Prop := b = [] ∧ (c = [] ∨ ∃ a ∈ c, isBlank a = false)

instance (c b : List Char) : Decidable (EndsComment c b) :=
  decidable_of_iff (b = [] ∧ (c = [] ∨ c.any (fun a => !isBlank a) = true)) (by simp [EndsComment])

/-- A text before a comment, the comment and its line, and a text behind. -/
def withComment (u c v : List Char) : List Char := u ++ '-' :: '-' :: (c ++ '\n' :: v)

/-- What is behind the comment is lexed inside or outside of it. -/
theorem tokens_withComment (hend : (lex rules .initial u).2 = some .initial)
    (hlast : u.getLast? = some ' ') (hc : '\n' ∉ c) (hb : ∀ a ∈ b, isBlank a = true)
    (hw : ∀ a ∈ w.head?, isBlank a = false) : tokens (withComment u c (b ++ w)) =
      tokens u ++ (lex rules (if EndsComment c b then .initial else .comment) w).1 := by
  have hbefore := congrArg Prod.fst
    (lex_before_dash (v := '-' :: (c ++ '\n' :: (b ++ w))) hend hlast)
  rw [lex_dashes] at hbefore
  refine hbefore.trans ?_
  have hbehind : lex rules .comment (c ++ '\n' :: (b ++ w)) =
      lex rules (if EndsComment c b then .initial else .comment) w := by
    by_cases hends : EndsComment c b
    · rw [if_pos hends]
      obtain ⟨rfl, rfl | hvisible⟩ := hends
      · exact lex_end_of_line hw
      · exact (lex_comment_text hc hvisible).trans (lex_end_of_line hw)
    · rw [if_neg hends]
      by_cases hvisible : ∃ a ∈ c, isBlank a = false
      · have hne : b ≠ [] := fun h => hends ⟨h, Or.inr hvisible⟩
        exact (lex_comment_text hc hvisible).trans
          (lex_comment_blank (c := []) (by simp) hb hw fun h => hne h.2)
      · have hblank : ∀ a ∈ c, isBlank a = true := by simpa using hvisible
        exact lex_comment_blank hblank hb hw fun h => hends ⟨h.2, Or.inl h.1⟩
  rw [hbehind, tokens]

/-- Every text behind the comment, with white space `b` before it, is lexed as it is alone exactly
where the comment is left at the end of its line. -/
theorem comment_transparent_iff (hend : (lex rules .initial u).2 = some .initial)
    (hlast : u.getLast? = some ' ') (hc : '\n' ∉ c) (hb : ∀ a ∈ b, isBlank a = true) :
    (∀ w : List Char, (∀ a ∈ w.head?, isBlank a = false) →
      tokens (withComment u c (b ++ w)) = tokens u ++ tokens (b ++ w)) ↔ EndsComment c b := by
  constructor
  · intro h
    by_contra hends
    have hvisible : ∀ a ∈ ['a'].head?, isBlank a = false := by simp [isBlank]
    have hname := h ['a'] hvisible
    rw [tokens_withComment hend hlast hc hb hvisible, if_neg hends, List.append_cancel_left_eq,
      tokens, lex_initial_blank hb hvisible] at hname
    exact absurd hname (by decide +kernel)
  · intro hends w hw
    rw [tokens_withComment hend hlast hc hb hw, if_pos hends, tokens,
      tokens.eq_1 (b ++ w), lex_initial_blank hb hw]

theorem comment_transparent_text : tokens (withComment ['a', ' '] [' ', 'x'] ['b']) =
    tokens ['a', ' '] ++ tokens ['b'] :=
  (comment_transparent_iff (b := []) (by decide +kernel) (by decide) (by decide) (by simp)).mpr
    (by decide) ['b'] (by simp [isBlank])

/-- A blank before the text behind the comment's line, and a comment of one blank. -/
theorem statement_swallowed : (lex rules .initial [' ']).2 = some .initial ∧
    tokens (withComment [' '] ['x'] [' ', 'a']) ≠ tokens [' '] ++ tokens [' ', 'a'] ∧
    tokens (withComment [' '] [' '] ['a']) ≠ tokens [' '] ++ tokens ['a'] := by
  decide +kernel

end AlphaDb.Sql
