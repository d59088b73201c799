import AlphaDb.Lib.Decoding
import AlphaDb.Sql.Grammar

/-! The tokens of a text have one derivation at most (`sql/parser/parser.y`). -/
namespace AlphaDb.Sql

open Decoding

theorem Operand.eq_of_tree_eq : ∀ {o o' : Operand}, o.tree = o'.tree → o = o'
  | .paren e, o', h => by
    cases o' with
    | paren e' =>
      cases h
      rfl
    | scalarExpr s' => cases h
    | compExpr left' c' right' => cases h
  | .scalarExpr s, o', h => by
    cases o' with
    | paren e' => cases h
    | scalarExpr s' =>
      cases h
      rfl
    | compExpr left' c' right' => cases h
  | .compExpr left c right, o', h => by
    cases o' with
    | paren e' => cases h
    | scalarExpr s' => cases h
    | compExpr left' c' right' =>
      obtain ⟨hl, rfl, hr⟩ := OpTree.node.inj h
      rw [eq_of_tree_eq hl, eq_of_tree_eq hr]

theorem Operand.tokens_eq : ∀ o : Operand,
    o.tokens = joined Primary.tokens .comparison o.tree.inorder.1 o.tree.inorder.2
  | .paren e => by simp [tokens, tree, OpTree.inorder, joined, Primary.tokens]
  | .scalarExpr s => by simp [tokens, tree, OpTree.inorder, joined, Primary.tokens]
  | .compExpr left c right => by
    rw [tokens, tokens_eq left, tokens_eq right, tree, OpTree.inorder, joined_append]

theorem Operand.legal_iff : ∀ {o : Operand},
    o.Legal ↔ o.tree.Legal Comparison.level ∧ o.tree.All Primary.Legal
  | .paren e => by simp [Legal, tree, OpTree.Legal, OpTree.All, Primary.Legal]
  | .scalarExpr s => by simp [Legal, tree, OpTree.Legal, OpTree.All, Primary.Legal]
  | .compExpr left c right => by
    rw [Legal, legal_iff, legal_iff, tree, OpTree.Legal, OpTree.All, Above, Above]
    tauto

/-! ### Where an expression ends -/

/-- The token goes on with an operand: a comparison, or the point in a column name. -/
def Terminal.GoesOn : Terminal → Prop
  | .comparison _ => True
  | .sign c => c = '.'
  | _ => False

/-- The token goes on with an expression. -/
def Terminal.GoesOnExpr (c : Terminal) : Prop := c.GoesOn ∨ c = .word .between

abbrev NoPoint : List Terminal → Prop := Without (· = .sign '.')

abbrev OperandEnds : List Terminal → Prop := Without Terminal.GoesOn

abbrev ExprEnds : List Terminal → Prop := Without Terminal.GoesOnExpr

theorem OperandEnds.noPoint {r : List Terminal} (h : OperandEnds r) : NoPoint r := by
  rintro c hc rfl
  exact h _ hc rfl

theorem ExprEnds.operandEnds {r : List Terminal} (h : ExprEnds r) : OperandEnds r :=
  fun c hc hgo => h c hc (.inl hgo)

theorem Literal.token_injective : Function.Injective Literal.token := by
  intro l l' h
  obtain x | (_ | _) | n | _ := l <;> obtain x' | (_ | _) | n' | _ := l' <;> cases h <;> rfl

@[simp] theorem Literal.token_ne_identifier (l : Literal) (x : Text) :
    l.token ≠ .identifier x := by
  obtain x' | (_ | _) | n | _ := l <;> simp [token]

@[simp] theorem Literal.token_ne_sign (l : Literal) (c : Char) : l.token ≠ .sign c := by
  obtain x' | (_ | _) | n | _ := l <;> simp [token]

theorem ColumnName.unique (c : ColumnName) :
    Unique (fun _ => True) ColumnName.tokens NoPoint c := by
  intro c' r t _ hr ht h
  cases c with
  | identifier x =>
    cases c' with
    | identifier y => simpa [tokens] using h
    | qualified q y =>
      obtain ⟨-, rfl⟩ : x = q ∧ r = .sign '.' :: .identifier y :: t := by simpa [tokens] using h
      exact (without_cons.mp hr rfl).elim
  | qualified q x =>
    cases c' with
    | identifier y =>
      obtain ⟨-, rfl⟩ : q = y ∧ .sign '.' :: .identifier x :: r = t := by simpa [tokens] using h
      exact (without_cons.mp ht rfl).elim
    | qualified q' y => simpa [tokens, and_assoc] using h

theorem ScalarExpr.unique (s : ScalarExpr) :
    Unique (fun _ => True) ScalarExpr.tokens NoPoint s := by
  intro b r t _ hr ht h
  cases s with
  | columnName c =>
    cases b with
    | columnName c' =>
      obtain ⟨rfl, rfl⟩ := c.unique c' r t trivial hr ht h
      exact ⟨rfl, rfl⟩
    | starExpr => cases c <;> cases h
    | literal l => cases c <;> exact absurd (List.cons.inj h).1.symm (l.token_ne_identifier _)
  | starExpr =>
    cases b with
    | columnName c => cases c <;> cases h
    | starExpr => simpa [tokens] using h
    | literal l => exact absurd (List.cons.inj h).1.symm (l.token_ne_sign _)
  | literal l =>
    cases b with
    | columnName c => cases c <;> exact absurd (List.cons.inj h).1 (l.token_ne_identifier _)
    | starExpr => exact absurd (List.cons.inj h).1 (l.token_ne_sign _)
    | literal l' =>
      obtain ⟨hl, rfl⟩ := List.cons.inj h
      rw [Literal.token_injective hl]
      exact ⟨rfl, rfl⟩

/-- No scalar begins with a parenthesis. -/
theorem ScalarExpr.tokens_ne_paren (s : ScalarExpr) (r t : List Terminal) :
    s.tokens ++ r ≠ .sign '(' :: t := by
  intro h
  cases s with
  | columnName c => cases c <;> cases h
  | starExpr => cases h
  | literal l => exact l.token_ne_sign _ (List.cons.inj h).1

theorem Primary.unique_scalar (s : ScalarExpr) :
    Unique Legal tokens NoPoint (.scalar s) := by
  intro b r t _ hr ht h
  cases b with
  | paren e => exact absurd h (s.tokens_ne_paren _ _)
  | scalar s' =>
    obtain ⟨rfl, rfl⟩ := s.unique s' r t trivial hr ht h
    exact ⟨rfl, rfl⟩

theorem exprEnds_paren (r : List Terminal) : ExprEnds (.sign ')' :: r) := by
  simp [Terminal.GoesOnExpr, Terminal.GoesOn]

theorem Primary.unique_paren {e : Expr} (he : Unique Expr.Legal Expr.tokens ExprEnds e) :
    Unique Legal tokens NoPoint (.paren e) := by
  intro b r t hb hr ht h
  cases b with
  | paren e' =>
    simp only [tokens, List.cons_append, List.append_assoc, List.cons.injEq, true_and] at h
    obtain ⟨rfl, hrest⟩ := he e' _ _ hb (exprEnds_paren _) (exprEnds_paren _) h
    exact ⟨rfl, (List.cons.inj hrest).2⟩
  | scalar s => exact absurd h.symm (s.tokens_ne_paren _ _)

theorem noPoint_comparison (c : Comparison) (r : List Terminal) :
    NoPoint (.comparison c :: r) := by simp

/-- An operand is told apart where its parts are: the parts and the comparisons in a row give the
operand, as none but one of its trees is legal. -/
theorem Operand.unique {o : Operand} (ho : o.Legal)
    (hparts : o.tree.All (Unique Primary.Legal Primary.tokens NoPoint)) :
    Unique Legal tokens OperandEnds o := by
  intro o' r t ho' hr ht h
  obtain ⟨htree, -⟩ := legal_iff.mp ho
  obtain ⟨htree', hall'⟩ := legal_iff.mp ho'
  obtain ⟨hfirst, hothers⟩ := OpTree.all_iff.mp hparts
  obtain ⟨hfirst', hothers'⟩ := OpTree.all_iff.mp hall'
  have hends {r : List Terminal} (hr : OperandEnds r) :
      Without (· ∈ Set.range Terminal.comparison) r := by
    rintro _ hc ⟨c, rfl⟩
    exact hr _ hc trivial
  rw [tokens_eq, tokens_eq] at h
  obtain ⟨hp, hrow, rfl⟩ := joined_unique (fun _ _ h => Terminal.comparison.inj h)
    noPoint_comparison hfirst hothers hfirst' hothers' hr.noPoint (hends hr) ht.noPoint (hends ht) h
  exact ⟨eq_of_tree_eq (htree.eq_of_inorder_eq htree' (Prod.ext hp hrow)), rfl⟩

theorem operandEnds_word (w : Word) (r : List Terminal) : OperandEnds (.word w :: r) := by
  simp [Terminal.GoesOn]

mutual

/-- An expression is told apart in front of what does not go on with it. -/
theorem Expr.unique (e : Expr) (h : e.Legal) : Unique Expr.Legal Expr.tokens ExprEnds e := by
  intro e' r t h' hr ht heq
  cases e with
  | operand o =>
    have ho := Operand.unique h (Operand.primaries_unique o h)
    cases e' with
    | operand o' =>
      obtain ⟨rfl, rfl⟩ := ho o' r t h' hr.operandEnds ht.operandEnds heq
      exact ⟨rfl, rfl⟩
    | betweenExpr o' left' right' =>
      simp only [Expr.tokens, List.append_assoc, List.cons_append] at heq
      obtain ⟨-, rfl⟩ := ho o' r _ h'.1 hr.operandEnds (operandEnds_word _ _) heq
      exact (without_cons.mp hr (.inr rfl)).elim
  | betweenExpr o left right =>
    have ho := Operand.unique h.1 (Operand.primaries_unique o h.1)
    simp only [Expr.tokens, List.append_assoc, List.cons_append] at heq
    cases e' with
    | operand o' =>
      obtain ⟨-, rfl⟩ := ho o' _ t h' (operandEnds_word _ _) ht.operandEnds heq
      exact (without_cons.mp ht (.inr rfl)).elim
    | betweenExpr o' left' right' =>
      simp only [Expr.tokens, List.append_assoc, List.cons_append] at heq
      obtain ⟨rfl, hleft⟩ := ho o' _ _ h'.1 (operandEnds_word _ _) (operandEnds_word _ _) heq
      obtain ⟨rfl, hright⟩ := Operand.unique h.2.1 (Operand.primaries_unique left h.2.1) left' _ _
        h'.2.1 (operandEnds_word _ _) (operandEnds_word _ _) (List.cons.inj hleft).2
      obtain ⟨rfl, rfl⟩ := Operand.unique h.2.2 (Operand.primaries_unique right h.2.2) right' r t
        h'.2.2 hr.operandEnds ht.operandEnds (List.cons.inj hright).2
      exact ⟨rfl, rfl⟩

theorem Operand.primaries_unique (o : Operand) (h : o.Legal) :
    o.tree.All (Unique Primary.Legal Primary.tokens NoPoint) := by
  cases o with
  | paren e => exact Primary.unique_paren (Expr.unique e h)
  | scalarExpr s => exact Primary.unique_scalar s
  | compExpr left c right =>
    exact ⟨Operand.primaries_unique left h.1, Operand.primaries_unique right h.2.1⟩

end

/-! ### Lists -/

namespace CommaList

variable {α : Type}

def first : CommaList α → α
  | one a => a
  | more l _ => l.first

/-- The items behind the first, each with its separator. -/
def others : CommaList α → List (Unit × α)
  | one _ => []
  | more l a => l.others ++ [((), a)]

theorem tokens_eq (text : α → List Terminal) (sep : Terminal) (l : CommaList α) :
    l.tokens text sep = joined text (fun _ => sep) l.first l.others := by
  induction l with
  | one a => simp [tokens, first, others, joined]
  | more l a ih =>
    rw [tokens, ih, first, others, joined_append]
    simp [joined]

theorem items_eq (l : CommaList α) : l.items = l.first :: l.others.map Prod.snd := by
  induction l with
  | one a => rfl
  | more l a ih => simp [items, ih, first, others]

theorem eq_of_others_eq {l l' : CommaList α} (hf : l.first = l'.first)
    (ho : l.others = l'.others) : l = l' := by
  induction l generalizing l' with
  | one a =>
    cases l' with
    | one b => exact congrArg one hf
    | more l' b => simp [others] at ho
  | more l a ih =>
    cases l' with
    | one b => simp [others] at ho
    | more l' b =>
      obtain ⟨hinit, hab⟩ := List.append_inj' ho rfl
      have hlist : l = l' := ih hf hinit
      rw [hlist, (Prod.mk.inj (List.cons.inj hab).1).2]

/-- A list is told apart where each item is, in front of what is no separator. -/
theorem unique {Ok : α → Prop} {text : α → List Terminal} {Stop : List Terminal → Prop}
    {sep : Terminal} (hstop : ∀ r, Stop (sep :: r)) {l : CommaList α}
    (hl : ∀ a ∈ l.items, Unique Ok text Stop a) :
    Unique (fun m => ∀ a ∈ m.items, Ok a) (tokens text sep)
      (fun r => Stop r ∧ Without (· = sep) r) l := by
  have hends {r : List Terminal} (hr : Without (· = sep) r) :
      Without (· ∈ Set.range fun _ : Unit => sep) r := by
    rintro c hc ⟨_, hsep⟩
    exact hr c hc hsep.symm
  intro m r t hm hr ht h
  rw [tokens_eq, tokens_eq] at h
  simp only [items_eq, List.forall_mem_cons, List.forall_mem_map] at hl hm
  obtain ⟨hfirst, hothers, rfl⟩ := joined_unique (Function.injective_of_subsingleton _)
    (fun _ => hstop) hl.1 hl.2 hm.1 hm.2 hr.1 (hends hr.2) ht.1 (hends ht.2) h
  exact ⟨eq_of_others_eq hfirst hothers, rfl⟩

end CommaList

/-! ### Parts of statements -/

/-- What stands behind a statement. -/
abbrev StatementEnds : List Terminal → Prop := Without (· ≠ .sign ';')

theorem StatementEnds.exprEnds {r : List Terminal} (h : StatementEnds r) : ExprEnds r := by
  intro c hc hgo
  obtain rfl : c = .sign ';' := not_not.mp (h c hc)
  simp [Terminal.GoesOnExpr, Terminal.GoesOn] at hgo

theorem StatementEnds.without {p : Terminal → Prop} {r : List Terminal} (h : StatementEnds r)
    (hp : ¬ p (.sign ';')) : Without p r := by
  intro c hc
  rwa [not_not.mp (h c hc)]

theorem exprEnds_comma (r : List Terminal) : ExprEnds (.sign ',' :: r) := by
  simp [Terminal.GoesOnExpr, Terminal.GoesOn]

/-- Tokens that are one for each item tell it apart before anything. -/
theorem unique_token {α : Type} {f : α → Terminal} (hf : Function.Injective f) (a : α) :
    Unique (fun _ => True) (fun a => [f a]) (fun _ => True) a := by
  intro b r t _ _ _ h
  obtain ⟨hab, rfl⟩ := List.cons.inj h
  exact ⟨hf hab, rfl⟩

theorem ColumnType.unique (c : ColumnType) :
    Unique (fun _ => True) ColumnType.tokens (fun _ => True) c := by
  intro c' r t _ _ _ h
  cases c <;> cases c' <;> simp_all [tokens]

/-- The words of `opt_column_nullable`. -/
def Terminal.Nulls (c : Terminal) : Prop := c = .word .null ∨ c = .word .not

theorem Nullable.unique (n : Nullable) :
    Unique (fun _ => True) Nullable.tokens (Without Terminal.Nulls) n := by
  intro n' r t _ hr ht h
  cases n with
  | null =>
    cases n' with
    | null => simpa [tokens] using h
    | notNull => cases h
    | empty =>
      obtain rfl : .word .null :: r = t := h
      exact (without_cons.mp ht (.inl rfl)).elim
  | notNull =>
    cases n' with
    | null => cases h
    | notNull => simpa [tokens] using h
    | empty =>
      obtain rfl : .word .not :: .word .null :: r = t := h
      exact (without_cons.mp ht (.inr rfl)).elim
  | empty =>
    cases n' with
    | null =>
      obtain rfl : r = .word .null :: t := h
      exact (without_cons.mp hr (.inl rfl)).elim
    | notNull =>
      obtain rfl : r = .word .not :: .word .null :: t := h
      exact (without_cons.mp hr (.inr rfl)).elim
    | empty => exact ⟨rfl, h⟩

theorem ColumnDef.unique (d : ColumnDef) :
    Unique (fun _ => True) ColumnDef.tokens (Without Terminal.Nulls) d := by
  intro d' r t _ hr ht h
  obtain ⟨name, type, nullable⟩ := d
  obtain ⟨name', type', nullable'⟩ := d'
  simp only [tokens, List.cons_append, List.append_assoc, List.cons.injEq,
    Terminal.identifier.injEq] at h
  obtain ⟨rfl, htype⟩ := h
  obtain ⟨rfl, hnull⟩ := type.unique type' _ _ trivial trivial trivial htype
  obtain ⟨rfl, rfl⟩ := nullable.unique nullable' r t trivial hr ht hnull
  exact ⟨rfl, rfl⟩

theorem UpdateClause.unique (u : UpdateClause) (hu : u.value.Legal) :
    Unique (fun u => u.value.Legal) UpdateClause.tokens ExprEnds u := by
  intro u' r t hu' hr ht h
  obtain ⟨column, value⟩ := u
  obtain ⟨column', value'⟩ := u'
  simp only [tokens, List.cons_append, List.cons.injEq, Terminal.identifier.injEq, true_and] at h
  obtain ⟨rfl, hvalue⟩ := h
  obtain ⟨rfl, rfl⟩ := value.unique hu value' r t hu' hr ht hvalue
  exact ⟨rfl, rfl⟩

theorem whereTokens_unique {cond : Option Expr} (hc : ∀ e ∈ cond, e.Legal) :
    Unique (fun c => ∀ e ∈ c, e.Legal) whereTokens StatementEnds cond := by
  intro cond' r t hc' hr ht h
  cases cond with
  | none =>
    cases cond' with
    | none => exact ⟨rfl, h⟩
    | some e' =>
      obtain rfl : r = .word .where :: (e'.tokens ++ t) := h
      simp at hr
  | some e =>
    cases cond' with
    | none =>
      obtain rfl : .word .where :: (e.tokens ++ r) = t := h
      simp at ht
    | some e' =>
      obtain ⟨rfl, rfl⟩ := e.unique (hc e rfl) e' r t (hc' e' rfl) hr.exprEnds ht.exprEnds
        (List.cons.inj h).2
      exact ⟨rfl, rfl⟩

theorem whereTokens_without {p : Terminal → Prop} {cond : Option Expr} {r : List Terminal}
    (hp : ¬ p (.word .where)) (hr : Without p r) : Without p (whereTokens cond ++ r) := by
  cases cond with
  | none => exact hr
  | some e => exact without_cons.mpr hp

/-- Lists of items that are one token each. -/
theorem CommaList.unique_tokens {α : Type} {f : α → Terminal} (hf : Function.Injective f)
    (l : CommaList α) : Unique (fun _ => True) (CommaList.tokens (fun a => [f a]) (.sign ','))
      (Without (· = .sign ',')) l := by
  intro m r t _ hr ht h
  exact CommaList.unique (fun _ => trivial) (fun a _ => unique_token hf a) m r t
    (fun _ _ => trivial) ⟨trivial, hr⟩ ⟨trivial, ht⟩ h

/-- `opt_column_list` is told apart in front of `VALUES`. -/
theorem columnListTokens_unique (columns : Option (CommaList Text)) :
    Unique (fun _ => True) columnListTokens (Without (· = .sign '(')) columns := by
  intro columns' r t _ hr ht h
  cases columns with
  | none =>
    cases columns' with
    | none => exact ⟨rfl, h⟩
    | some l' =>
      obtain rfl : r = columnListTokens (some l') ++ t := h
      exact (without_cons.mp hr rfl).elim
  | some l =>
    cases columns' with
    | none =>
      obtain rfl : columnListTokens (some l) ++ r = t := h
      exact (without_cons.mp ht rfl).elim
    | some l' =>
      simp only [columnListTokens, List.cons_append, List.append_assoc, List.cons.injEq,
        true_and] at h
      obtain ⟨rfl, hrest⟩ := CommaList.unique_tokens (fun _ _ h => Terminal.identifier.inj h) l
        l' _ _ trivial (by simp) (by simp) h
      exact ⟨rfl, by simpa using hrest⟩

theorem columnListTokens_without {p : Terminal → Prop} {columns : Option (CommaList Text)}
    {r : List Terminal} (hp : ¬ p (.sign '(')) (hr : Without p r) :
    Without p (columnListTokens columns ++ r) := by
  cases columns with
  | none => exact hr
  | some l => exact without_cons.mpr hp

/-! ### Statements -/

section

variable {table table' : TableName} {cond cond' : Option Expr} {r t : List Terminal}

/-- The end of a statement: a table and `opt_where`. -/
theorem table_where_unique (hc : ∀ e ∈ cond, e.Legal) (hc' : ∀ e ∈ cond', e.Legal)
    (hr : StatementEnds r) (ht : StatementEnds t)
    (h : table.tokens ++ (whereTokens cond ++ r) = table'.tokens ++ (whereTokens cond' ++ t)) :
    table = table' ∧ cond = cond' ∧ r = t := by
  obtain ⟨rfl, hwhere⟩ := table.unique table' _ _ trivial
    (whereTokens_without (by simp) (hr.without (by simp)))
    (whereTokens_without (by simp) (ht.without (by simp))) h
  exact ⟨rfl, whereTokens_unique hc cond' r t hc' hr ht hwhere⟩

theorem select_unique {list list' : CommaList Expr} (hl : ∀ e ∈ list.items, e.Legal)
    (hl' : ∀ e ∈ list'.items, e.Legal) (hc : ∀ e ∈ cond, e.Legal) (hc' : ∀ e ∈ cond', e.Legal)
    (hr : StatementEnds r) (ht : StatementEnds t)
    (h : (Statement.select list table cond).tokens ++ r =
      (Statement.select list' table' cond').tokens ++ t) :
    list = list' ∧ table = table' ∧ cond = cond' ∧ r = t := by
  have hfrom (r : List Terminal) : ExprEnds (.word .from :: r) ∧
      Without (· = .sign ',') (.word .from :: r) := by
    simp [Terminal.GoesOnExpr, Terminal.GoesOn]
  simp only [Statement.tokens, List.cons_append, List.append_assoc, List.cons.injEq,
    true_and] at h
  obtain ⟨rfl, hrest⟩ := CommaList.unique exprEnds_comma (fun e he => e.unique (hl e he)) list' _ _
    hl' (hfrom _) (hfrom _) h
  exact ⟨rfl, table_where_unique hc hc' hr ht (List.cons.inj hrest).2⟩

theorem createTable_unique {columns columns' : CommaList ColumnDef}
    (h : (Statement.createTable table columns).tokens ++ r =
      (Statement.createTable table' columns').tokens ++ t) :
    table = table' ∧ columns = columns' ∧ r = t := by
  have hcomma (r : List Terminal) : Without Terminal.Nulls (.sign ',' :: r) := by
    simp [Terminal.Nulls]
  have hparen (r : List Terminal) : Without Terminal.Nulls (.sign ')' :: r) ∧
      Without (· = .sign ',') (.sign ')' :: r) := by
    simp [Terminal.Nulls]
  simp only [Statement.tokens, List.cons_append, List.append_assoc, List.cons.injEq,
    true_and] at h
  obtain ⟨rfl, hrest⟩ := table.unique table' _ _ trivial (by simp) (by simp) h
  obtain ⟨rfl, hrest⟩ := CommaList.unique hcomma (fun d _ => d.unique) columns' _ _
    (fun _ _ => trivial) (hparen _) (hparen _) (List.cons.inj hrest).2
  exact ⟨rfl, rfl, by simpa using hrest⟩

theorem insert_unique {columns columns' : Option (CommaList Text)}
    {values values' : CommaList Literal}
    (h : (Statement.insert table columns values).tokens ++ r =
      (Statement.insert table' columns' values').tokens ++ t) :
    table = table' ∧ columns = columns' ∧ values = values' ∧ r = t := by
  simp only [Statement.tokens, List.cons_append, List.append_assoc, List.cons.injEq,
    true_and] at h
  obtain ⟨rfl, hcolumns⟩ := table.unique table' _ _ trivial
    (columnListTokens_without (by simp) (by simp)) (columnListTokens_without (by simp) (by simp)) h
  obtain ⟨rfl, hvalues⟩ := columnListTokens_unique columns columns' _ _ trivial (by simp) (by simp)
    hcolumns
  simp only [List.cons.injEq, true_and] at hvalues
  obtain ⟨rfl, hrest⟩ := CommaList.unique_tokens Literal.token_injective values values' _ _ trivial
    (by simp) (by simp) hvalues
  exact ⟨rfl, rfl, rfl, by simpa using hrest⟩

theorem update_unique {updates updates' : CommaList UpdateClause}
    (hu : ∀ u ∈ updates.items, u.value.Legal) (hu' : ∀ u ∈ updates'.items, u.value.Legal)
    (hc : ∀ e ∈ cond, e.Legal) (hc' : ∀ e ∈ cond', e.Legal) (hr : StatementEnds r)
    (ht : StatementEnds t)
    (h : (Statement.update table updates cond).tokens ++ r =
      (Statement.update table' updates' cond').tokens ++ t) :
    table = table' ∧ updates = updates' ∧ cond = cond' ∧ r = t := by
  have hwhere {r : List Terminal} (c : Option Expr) (hr : StatementEnds r) :
      ExprEnds (whereTokens c ++ r) ∧ Without (· = .sign ',') (whereTokens c ++ r) := by
    constructor
    · exact whereTokens_without (by simp [Terminal.GoesOnExpr, Terminal.GoesOn]) hr.exprEnds
    · exact whereTokens_without (by simp) (hr.without (by simp))
  simp only [Statement.tokens, List.cons_append, List.append_assoc, List.cons.injEq,
    true_and] at h
  obtain ⟨rfl, hset⟩ := table.unique table' _ _ trivial (by simp) (by simp) h
  obtain ⟨rfl, hrest⟩ := CommaList.unique exprEnds_comma (fun u hmem => u.unique (hu u hmem))
    updates' _ _ hu' (hwhere cond hr) (hwhere cond' ht) (List.cons.inj hset).2
  obtain ⟨rfl, rfl⟩ := whereTokens_unique hc cond' r t hc' hr ht hrest
  exact ⟨rfl, rfl, rfl, rfl⟩

end

/-- The first word tells the kinds of statements apart. -/
theorem Statement.unique (s : Statement) (hs : s.Legal) :
    Unique Legal tokens StatementEnds s := by
  intro s' r t hs' hr ht h
  cases s with
  | select list table cond =>
    cases s' with
    | select list' table' cond' =>
      obtain ⟨rfl, rfl, rfl, rfl⟩ := select_unique hs.1 hs'.1 hs.2 hs'.2 hr ht h
      exact ⟨rfl, rfl⟩
    | _ => cases h
  | createTable table columns =>
    cases s' with
    | createTable table' columns' =>
      obtain ⟨rfl, rfl, rfl⟩ := createTable_unique h
      exact ⟨rfl, rfl⟩
    | _ => cases h
  | insert table columns values =>
    cases s' with
    | insert table' columns' values' =>
      obtain ⟨rfl, rfl, rfl, rfl⟩ := insert_unique h
      exact ⟨rfl, rfl⟩
    | _ => cases h
  | delete table cond =>
    cases s' with
    | delete table' cond' =>
      simp only [tokens, List.cons_append, List.append_assoc, List.cons.injEq, true_and] at h
      obtain ⟨rfl, rfl, rfl⟩ := table_where_unique hs hs' hr ht h
      exact ⟨rfl, rfl⟩
    | _ => cases h
  | truncate table =>
    cases s' with
    | truncate table' =>
      obtain ⟨rfl, rfl⟩ := table.unique table' r t trivial (hr.without (by simp))
        (ht.without (by simp)) (List.cons.inj h).2
      exact ⟨rfl, rfl⟩
    | _ => cases h
  | update table updates cond =>
    cases s' with
    | update table' updates' cond' =>
      obtain ⟨rfl, rfl, rfl, rfl⟩ := update_unique hs.1 hs'.1 hs.2 hs'.2 hr ht h
      exact ⟨rfl, rfl⟩
    | _ => cases h
  | drop table =>
    cases s' with
    | drop table' =>
      obtain ⟨rfl, rfl⟩ := table.unique table' r t trivial (hr.without (by simp))
        (ht.without (by simp)) (List.cons.inj (List.cons.inj h).2).2
      exact ⟨rfl, rfl⟩
    | _ => cases h

/-! ### Texts -/

/-- The text of a statement, or of nothing behind a last semicolon. -/
def statementTokens : Option Statement → List Terminal
  | none => []
  | some s => s.tokens

theorem Statement.tokens_eq_word (s : Statement) : ∃ w r, s.tokens = .word w :: r := by
  cases s <;> exact ⟨_, _, rfl⟩

theorem Statement.tokens_ne {s : Statement} {r t : List Terminal} (ht : StatementEnds t) :
    s.tokens ++ r ≠ t := by
  rintro rfl
  obtain ⟨w, r', hs⟩ := s.tokens_eq_word
  rw [hs] at ht
  simp at ht

theorem statementTokens_unique {o : Option Statement} (ho : ∀ s ∈ o, s.Legal) :
    Unique (fun o => ∀ s ∈ o, s.Legal) statementTokens StatementEnds o := by
  intro o' r t ho' hr ht h
  cases o with
  | none =>
    cases o' with
    | none => exact ⟨rfl, h⟩
    | some s' => exact absurd h.symm (Statement.tokens_ne hr)
  | some s =>
    cases o' with
    | none => exact absurd h (Statement.tokens_ne ht)
    | some s' =>
      obtain ⟨rfl, rfl⟩ := s.unique (ho s rfl) s' r t (ho' s' rfl) hr ht h
      exact ⟨rfl, rfl⟩

namespace CommaList

variable {α β : Type}

def map (f : α → β) : CommaList α → CommaList β
  | one a => one (f a)
  | more l a => more (l.map f) (f a)

theorem map_injective {f : α → β} (hf : Function.Injective f) : Function.Injective (map f) := by
  intro l m h
  induction l generalizing m with
  | one a =>
    cases m with
    | one b => exact congrArg one (hf (one.inj h))
    | more m b => cases h
  | more l a ih =>
    cases m with
    | one b => cases h
    | more m b =>
      obtain ⟨hl, ha⟩ := more.inj h
      rw [ih hl, hf ha]

theorem items_map (f : α → β) (l : CommaList α) : (l.map f).items = l.items.map f := by
  induction l with
  | one a => rfl
  | more l a ih => simp [map, items, ih]

theorem tokens_map (f : α → β) (text : β → List Terminal) (sep : Terminal) (l : CommaList α) :
    (l.map f).tokens text sep = l.tokens (text ∘ f) sep := by
  induction l with
  | one a => rfl
  | more l a ih => simp [map, tokens, ih]

end CommaList

/-- A last semicolon as one in front of nothing. -/
def Input.list (d : Input) : CommaList (Option Statement) :=
  if d.semicolon then .more (d.statements.map some) none else d.statements.map some

theorem Input.tokens_eq (d : Input) : d.tokens = d.list.tokens statementTokens (.sign ';') := by
  have hsome : statementTokens ∘ some = Statement.tokens := rfl
  unfold tokens list
  split
  · rw [CommaList.tokens, CommaList.tokens_map, hsome]
    rfl
  · rw [CommaList.tokens_map, hsome, List.append_nil]

theorem map_some_ne (l : CommaList Statement) (m : CommaList (Option Statement)) :
    l.map some ≠ .more m none := by
  intro h
  cases l <;> cases h

theorem Input.eq_of_list_eq {d d' : Input} (h : d.list = d'.list) : d = d' := by
  have hmap := CommaList.map_injective (Option.some_injective Statement)
  obtain ⟨l, _ | _⟩ := d <;> obtain ⟨l', _ | _⟩ := d'
  · have hl : l = l' := hmap h
    rw [hl]
  · exact absurd h (map_some_ne l _)
  · exact absurd h.symm (map_some_ne l' _)
  · have hl : l = l' := hmap (CommaList.more.inj h).1
    rw [hl]

theorem Input.legal_list {d : Input} (h : d.Legal) :
    ∀ o ∈ d.list.items, ∀ s ∈ o, s.Legal := by
  have hsome : ∀ o ∈ (d.statements.map some).items, ∀ s ∈ o, s.Legal := by
    rw [CommaList.items_map]
    intro o ho s hs
    obtain ⟨s', hs', rfl⟩ := List.mem_map.mp ho
    cases hs
    exact h _ hs'
  unfold list
  split
  · intro o ho
    rcases List.mem_append.mp ho with ho | ho
    · exact hsome o ho
    · simp [List.mem_singleton.mp ho]
  · exact hsome

/-- `TRUNCATE t` behind `SELECT * FROM t WHERE o`. -/
def Input.where (o : Operand) : Input where
  statements := .more (.one (.select (.one (.operand (.scalarExpr .starExpr))) (.identifier ['t'])
    (some (.operand o)))) (.truncate (.identifier ['t']))
  semicolon := false

/-- Two comparisons in a row, grouped in the two ways. -/
theorem exists_ambiguous : ∃ d d' : Input, d ≠ d' ∧ d.tokens = d'.tokens := by
  let x : Operand := .scalarExpr (.columnName (.identifier ['x']))
  refine ⟨.where (.compExpr x .less (.compExpr x .less x)),
    .where (.compExpr (.compExpr x .less x) .less x), ?_, rfl⟩
  intro h
  injection h with h
  injection h with h
  injection h with h
  injection h with _ _ h
  injection h with h
  injection h with h
  injection h with h
  cases h

/-- Of the derivations that the precedence declarations leave, each text has one at most. Without
the declarations some text has more. -/
theorem Input.unambiguous :
    Set.InjOn Input.tokens {d | d.Legal} ∧ ¬ Function.Injective Input.tokens := by
  constructor
  · intro d h d' h' htokens
    have hnil : StatementEnds [] ∧ Without (· = Terminal.sign ';') [] :=
      ⟨without_nil _, without_nil _⟩
    rw [tokens_eq, tokens_eq] at htokens
    obtain ⟨hlist, -⟩ := CommaList.unique (fun _ => without_cons.mpr (not_not.mpr rfl))
      (fun o ho => statementTokens_unique (legal_list h o ho)) d'.list [] [] (legal_list h')
      hnil hnil (by rw [htokens])
    exact eq_of_list_eq hlist
  · intro hinj
    obtain ⟨d, d', hne, htokens⟩ := exists_ambiguous
    exact hne (hinj htokens)

end AlphaDb.Sql
