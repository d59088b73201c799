import AlphaDb.Sql.Comments

/-! The texts of tokens: written out with blanks between them they are lexed to the same tokens, and
the case of their letters makes no difference (`sql/parser/lexer.l`). -/
namespace AlphaDb.Sql

open Flex Flex.Pattern

variable {r : LexRule} {x v text : List Char} {t : Token} {ts : List Token} {n : ℕ}
  {f : List Char → Token}

/-- The texts of tokens, a blank behind each. -/
def render (ts : List Token) : List Char := ts.flatMap fun t => t.text ++ [' ']

theorem tokenRule_of_mem (hr : r ∈ keywords ++ operators ++ numbers ++
    [quotedIdentifier, identifier, string]) : ∃ p c, r = tokenRule p c := by
  have hall : ∀ r ∈ keywords ++ operators ++ numbers ++ [quotedIdentifier, identifier, string],
      ∃ p c, r = tokenRule p c := by
    simp only [keywords, operators, numbers, quotedIdentifier, identifier, string,
      List.forall_mem_append, List.forall_mem_cons, List.not_mem_nil, false_imp_iff, implies_true,
      and_true]
    and_intros <;> exact ⟨_, _, rfl⟩
  exact hall r hr

/-- A token keeps the text that it is made of, and has a code that only a sign takes from it. -/
theorem token_made (hr : r ∈ rules) (hf : r.action = .token f) :
    (∃ code, f = fun x => ⟨code, x⟩) ∨
      (r = signRule ∧ f = fun x => ⟨.sign (x.headD ' '), x⟩) := by
  by_cases hsign : r = signRule
  · subst hsign
    exact .inr ⟨rfl, (Action.token.inj hf).symm⟩
  · left
    by_cases hmem : r ∈ keywords ++ operators ++ numbers ++ [quotedIdentifier, identifier, string]
    · obtain ⟨p, c, rfl⟩ := tokenRule_of_mem hmem
      exact ⟨c, (Action.token.inj hf).symm⟩
    · simp only [rules, known, List.mem_append, List.mem_cons, List.not_mem_nil, or_false]
        at hr hmem
      have hskip : r = dashes ∨ r = restOfLine ∨ r = endOfLine ∨ r = space ∨ r = unknown := by
        tauto
      rcases hskip with rfl | rfl | rfl | rfl | rfl <;> cases hf

theorem token_text (hr : r ∈ rules) (hf : r.action = .token f) (x : List Char) :
    (f x).text = x := by
  obtain ⟨code, rfl⟩ | ⟨-, rfl⟩ := token_made hr hf <;> rfl

/-- The rules that make tokens are those for words and the two for quoted texts. -/
theorem token_rule (hr : r ∈ rules) (hf : r.action = .token f) :
    r ∈ words ∨ r = quotedIdentifier ∨ r = string := by
  rcases List.mem_append.mp hr with hr | hr
  · rcases known_cases hr with hr | rfl | rfl | rfl | rfl | rfl
    · exact .inl hr
    · cases hf
    · cases hf
    · cases hf
    · exact .inr (.inl rfl)
    · exact .inr (.inr rfl)
  · obtain rfl := List.mem_singleton.mp hr
    cases hf

theorem token_avoids_newline (hr : r ∈ rules) (hf : r.action = .token f) :
    r.pattern.avoids '\n' = true := by
  rcases token_rule hr hf with hr | rfl | rfl
  · exact words_avoid r hr '\n' (by decide)
  · decide
  · decide

/-- In a comment the rest of the line is skipped before any rule makes a token of it. -/
theorem best_comment (h : best .comment text rules = some (r, n)) : r.action ≠ .token f := by
  intro hf
  have hline := not_mem_of_avoids (token_avoids_newline (best_mem h) hf) (best_lang h).2
  obtain ⟨-, hle⟩ := best_le_length h
  obtain ⟨-, -, before, behind, hsplit, hbefore, -⟩ := best_eq_some.mp h
  have hrest : restOfLine ∈ before := by
    rw [rules_eq] at hsplit
    match before with
    | [] =>
      obtain ⟨rfl, -⟩ := List.cons.inj hsplit
      cases hf
    | [_] =>
      obtain ⟨-, hsplit⟩ := List.cons.inj hsplit
      obtain ⟨rfl, -⟩ := List.cons.inj hsplit
      cases hf
    | _ :: _ :: before =>
      obtain ⟨-, hsplit⟩ := List.cons.inj hsplit
      obtain ⟨rfl, -⟩ := List.cons.inj hsplit
      simp
  have hlt := hbefore restOfLine hrest
  rw [Rule.longest_of_active (Or.inr (by decide))] at hlt
  refine absurd (le_longest hle (mem_star_set.mpr fun a ha => ?_)) (not_le.mpr hlt)
  exact decide_eq_true fun he : a = '\n' => hline (he ▸ ha)

/-- A token that some text has: its own text is one match, of the rule that makes the token. -/
theorem mem_tokens (h : t ∈ tokens text) : ∃ r f,
    best .initial t.text rules = some (r, t.text.length) ∧ r.action = .token f ∧ f t.text = t := by
  obtain ⟨s, x, r, n, f, hb, hf, rfl⟩ := mem_lex h
  have hs : s = .initial := by
    cases s with
    | initial => rfl
    | comment => exact absurd hf (best_comment hb)
  subst hs
  obtain ⟨-, hle⟩ := best_le_length hb
  rw [token_text (best_mem hb) hf]
  refine ⟨r, f, ?_, hf, rfl⟩
  rw [List.length_take, min_eq_left hle]
  exact best_take hb

/-- What is between two quotes, with a blank and more behind it, is not between two quotes. -/
theorem quoted_blank {q : Char} {inner : Pattern Char} (hinner : inner.avoids q = true)
    (hx : x ∈ (quoted q inner).lang) : x ++ ' ' :: v ∉ (quoted q inner).lang := by
  intro hmem
  obtain ⟨i, hi, rfl⟩ := mem_quoted hx
  obtain ⟨j, hj, heq⟩ := mem_quoted hmem
  rw [List.cons_append] at heq
  obtain ⟨-, heq⟩ := List.cons.inj heq
  have hpre : i ++ [q] <+: j := by
    refine List.prefix_of_prefix_length_le (List.prefix_append (i ++ [q]) (' ' :: v))
      (heq ▸ List.prefix_append j [q]) ?_
    have hlen := congrArg List.length heq
    simp only [List.length_append, List.length_cons, List.length_nil] at hlen ⊢
    omega
  exact not_mem_of_avoids hinner hj (hpre.subset (by simp))

/-- A match of a rule that makes tokens begins with a quote, or has neither quotes nor blanks. -/
theorem token_head {a : Char} (hr : r ∈ rules) (hf : r.action = .token f)
    (hx : a :: x ∈ r.pattern.lang) :
    (r = quotedIdentifier ∧ a = doubleQuote) ∨ (r = string ∧ a = singleQuote) ∨
      (r ∈ words ∧ a ∉ [' ', '\t', '\n', doubleQuote, singleQuote]) := by
  rcases token_rule hr hf with hr | rfl | rfl
  · refine .inr (.inr ⟨hr, fun ha => ?_⟩)
    exact not_mem_of_avoids (words_avoid r hr a ha) hx List.mem_cons_self
  · obtain ⟨i, -, h⟩ := mem_quoted hx
    exact .inl ⟨rfl, (List.cons.inj h).1⟩
  · obtain ⟨i, -, h⟩ := mem_quoted hx
    exact .inr (.inl ⟨rfl, (List.cons.inj h).1⟩)

/-- A blank behind the text of a token ends every match in it. -/
theorem longest_before_blank {r' : LexRule} (hr : r ∈ rules) (hf : r.action = .token f)
    (hx : x ∈ r.pattern.lang) (hne : x ≠ []) (hr' : r' ∈ rules) :
    r'.longest .initial (x ++ ' ' :: v) = r'.longest .initial x := by
  unfold Rule.longest
  split
  swap
  · rfl
  · next hactive =>
    refine longest_append fun m hm _ hmem => ?_
    obtain ⟨k, hk⟩ := take_of_lt hm (a := ' ') (v := v)
    rw [hk] at hmem
    obtain ⟨a, y, rfl⟩ := List.exists_cons_of_ne_nil hne
    have hhead := token_head hr hf hx
    rcases List.mem_append.mp hr' with hr' | hr'
    · rcases known_cases hr' with hr' | rfl | rfl | rfl | rfl | rfl
      · exact not_mem_of_avoids (words_avoid r' hr' ' ' (by decide)) hmem (by simp)
      · simp [restOfLine] at hactive
      · simp [endOfLine] at hactive
      · have hblank := (mem_plus_set.mp hmem).2 a (by simp)
        rcases hhead with ⟨-, rfl⟩ | ⟨-, rfl⟩ | ⟨-, ha⟩
        · exact absurd hblank (by decide)
        · exact absurd hblank (by decide)
        · have hcases : a = ' ' ∨ a = '\n' ∨ a = '\t' := by simpa [isBlank, or_assoc] using hblank
          rcases hcases with rfl | rfl | rfl <;> simp at ha
      · obtain ⟨j, -, heq⟩ := mem_quoted hmem
        obtain rfl := (List.cons.inj heq).1
        rcases hhead with ⟨rfl, -⟩ | ⟨-, ha⟩ | ⟨-, ha⟩
        · exact quoted_blank (by decide) hx hmem
        · exact absurd ha (by decide)
        · exact absurd ha (by decide)
      · obtain ⟨j, -, heq⟩ := mem_quoted hmem
        obtain rfl := (List.cons.inj heq).1
        rcases hhead with ⟨-, ha⟩ | ⟨rfl, -⟩ | ⟨-, ha⟩
        · exact absurd ha (by decide)
        · exact quoted_blank (by decide) hx hmem
        · exact absurd ha (by decide)
    · obtain rfl := List.mem_singleton.mp hr'
      obtain ⟨d, -, h⟩ := hmem
      simp at h

theorem head_not_blank {a : Char} (hr : r ∈ rules) (hf : r.action = .token f)
    (hx : a :: x ∈ r.pattern.lang) : isBlank a = false := by
  rcases token_head hr hf hx with ⟨-, rfl⟩ | ⟨-, rfl⟩ | ⟨-, ha⟩
  · decide
  · decide
  · simp only [List.mem_cons, List.not_mem_nil, or_false, not_or] at ha
    simp [isBlank, ha]

/-- The text of a token and a blank are lexed to the token, whatever is behind. -/
theorem lex_token (h : t ∈ tokens text) :
    (lex rules .initial (t.text ++ ' ' :: v)).1 = t :: (lex rules .initial (' ' :: v)).1 ∧
      ∀ a ∈ (t.text ++ ' ' :: v).head?, isBlank a = false := by
  obtain ⟨r, f, hb, hf, ht⟩ := mem_tokens h
  have hr := best_mem hb
  have hx : t.text ∈ r.pattern.lang := by
    have hlang := (best_lang hb).2
    rwa [List.take_length] at hlang
  have hne : t.text ≠ [] := List.ne_nil_of_length_pos (best_le_length hb).1
  have hb' : best .initial (t.text ++ ' ' :: v) rules = some (r, t.text.length) := by
    rw [← hb]
    exact best_congr fun r' hr' => longest_before_blank hr hf hx hne hr'
  constructor
  · rw [lex_of_best hb', hf]
    simp only [goOn, List.take_left, List.drop_left, ht]
  · obtain ⟨a, y, hy⟩ := List.exists_cons_of_ne_nil hne
    rw [hy] at hx ⊢
    intro b hb
    obtain rfl := Option.some.inj hb
    exact head_not_blank hr hf hx

/-- Tokens of texts are lexed to themselves. What is left to lex begins with the blank behind a
token, or with a token. -/
theorem tokens_render_lexed (h : ∀ t ∈ ts, ∃ text, t ∈ tokens text) :
    tokens (render ts) = ts ∧ ∀ a ∈ (render ts).head?, isBlank a = false := by
  induction ts with
  | nil => exact ⟨rfl, by simp [render]⟩
  | cons t ts ih =>
    obtain ⟨⟨text, ht⟩, hts⟩ := List.forall_mem_cons.mp h
    obtain ⟨hrest, hhead⟩ := ih hts
    have hsplit : render (t :: ts) = t.text ++ ' ' :: render ts := by simp [render]
    obtain ⟨hlex, hfirst⟩ := lex_token (v := render ts) ht
    have hblank := lex_initial_blank (b := [' ']) (by simp [isBlank]) hhead
    rw [List.singleton_append] at hblank
    refine ⟨?_, hsplit ▸ hfirst⟩
    rw [hsplit, tokens, hlex, hblank]
    exact congrArg (t :: ·) hrest

/-- Tokens written out are lexed to themselves, exactly if each of them is a token of some text. -/
theorem tokens_render_iff : tokens (render ts) = ts ↔ ∀ t ∈ ts, ∃ text, t ∈ tokens text := by
  constructor
  · intro h t ht
    refine ⟨render ts, ?_⟩
    rw [h]
    exact ht
  · intro h
    exact (tokens_render_lexed h).1

/-- A text and its tokens written out have the same tokens: the white space and the comments of the
text, and the places where it has none, are all that is lost. -/
theorem tokens_render (text : List Char) : tokens (render (tokens text)) = tokens text :=
  (tokens_render_lexed fun _ ht => ⟨text, ht⟩).1

example : render (tokens ['a', '<', '-', '1', '-', '-', 'x']) =
    ['a', ' ', '<', ' ', '-', '1', ' '] := by
  decide +kernel

/-- The token with its text in lower case. -/
def Token.lower (t : Token) : Token := ⟨t.code, t.text.map Char.toLower⟩

def capitals : List Char := (List.range 26).map fun i => Char.ofNat ('A'.toNat + i)

theorem toLower_of_not_capital {a : Char} (h : a ∉ capitals) : a.toLower = a := by
  refine dif_neg fun ⟨hlow, hhigh⟩ => h (List.mem_map.mpr ⟨a.toNat - 65, ?_, ?_⟩)
  · have hle : a.toNat ≤ 90 := hhigh
    exact List.mem_range.mpr (by omega)
  · have hge : 65 ≤ a.toNat := hlow
    rw [show 'A'.toNat + (a.toNat - 65) = a.toNat from Nat.add_sub_cancel' hge, Char.ofNat_toNat]

theorem rules_respect (hr : r ∈ rules) : r.pattern.respects Char.toLower capitals = true := by
  have hall : (rules.all fun r => r.pattern.respects Char.toLower capitals) = true := by
    decide +kernel
  exact List.all_eq_true.mp hall r hr

theorem token_lower (hr : r ∈ rules) (hf : r.action = .token f) (hx : x ∈ r.pattern.lang) :
    f (x.map Char.toLower) = (f x).lower := by
  obtain ⟨code, rfl⟩ | ⟨rfl, rfl⟩ := token_made hr hf
  · rfl
  · obtain ⟨a, ha, rfl⟩ := hx
    have hsigns : (signs.all fun a => a.toLower == a) = true := by decide +kernel
    have hlower : a.toLower = a := by
      simpa using List.all_eq_true.mp hsigns a (by simpa using ha)
    simp [Token.lower, hlower]

/-- The case of letters decides nothing: a text in lower case has the same tokens, with their texts
in lower case. -/
theorem tokens_toLower (text : List Char) :
    tokens (text.map Char.toLower) = (tokens text).map Token.lower := by
  have h : lex rules .initial (text.map Char.toLower) =
      ((lex rules .initial text).1.map Token.lower, (lex rules .initial text).2) :=
    lex_map (fun _ => toLower_of_not_capital) (fun _ => rules_respect)
      (fun _ hr _ hf _ hx => token_lower hr hf hx)
  rw [tokens, h]
  rfl

end AlphaDb.Sql
