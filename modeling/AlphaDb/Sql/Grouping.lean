import AlphaDb.Sql.Unambiguity

/-! The expressions that the precedence declarations leave a derivation (`sql/parser/parser.y`). -/
namespace AlphaDb.Sql

open Decoding

variable {opened : List ℕ} {outer : List (List ℕ)} {r : List Terminal}

/-- No comparison stands while its own level is open: in the row at hand, or in one of those around
its parentheses when they go on. -/
def rowsGraded (opened : List ℕ) (outer : List (List ℕ)) : List Terminal → Bool
  | [] => true
  | t :: r =>
    match t with
    | .comparison c => decide (c.level ∉ opened) &&
        rowsGraded (c.level :: opened.filter fun l => decide (l < c.level)) outer r
    | .sign c =>
      if c = '(' then rowsGraded [] (opened :: outer) r
      else if c = ')' then rowsGraded (outer.headD []) outer.tail r
      else rowsGraded opened outer r
    | .word w =>
      if w = .between ∨ w = .and then rowsGraded [] outer r else rowsGraded opened outer r
    | _ => rowsGraded opened outer r

theorem rowsGraded_comparison (c : Comparison) :
    rowsGraded opened outer (.comparison c :: r) ↔ c.level ∉ opened ∧
      rowsGraded (c.level :: opened.filter fun l => decide (l < c.level)) outer r := by
  simp [rowsGraded]

/-- Between its words, `BETWEEN` has an operand of its own. -/
theorem rowsGraded_word {w : Word} (hw : w = .between ∨ w = .and) :
    rowsGraded opened outer (.word w :: r) = rowsGraded [] outer r := by
  simp [rowsGraded, hw]

theorem rowsGraded_scalar (s : ScalarExpr) :
    rowsGraded opened outer (s.tokens ++ r) = rowsGraded opened outer r := by
  cases s with
  | columnName c => cases c <;> simp [ScalarExpr.tokens, ColumnName.tokens, rowsGraded]
  | starExpr => simp [ScalarExpr.tokens, rowsGraded]
  | literal l =>
    obtain x | (_ | _) | n | _ := l <;> simp [ScalarExpr.tokens, Literal.token, rowsGraded]

/-- The comparisons of an operand, those in parentheses left out. -/
def Operand.row (o : Operand) : List Comparison := o.tree.inorder.2.map Prod.fst

mutual

def Expr.Graded : Expr → Prop
  | .operand o => OpTree.Graded Comparison.level [] o.row ∧ o.PartsGraded
  | .betweenExpr o left right =>
    (OpTree.Graded Comparison.level [] o.row ∧ o.PartsGraded) ∧
      (OpTree.Graded Comparison.level [] left.row ∧ left.PartsGraded) ∧
      OpTree.Graded Comparison.level [] right.row ∧ right.PartsGraded

def Operand.PartsGraded : Operand → Prop
  | .paren e => e.Graded
  | .scalarExpr _ => True
  | .compExpr left _ right => left.PartsGraded ∧ right.PartsGraded

end

theorem Operand.row_compExpr (left : Operand) (c : Comparison) (right : Operand) :
    (Operand.compExpr left c right).row = left.row ++ c :: right.row := by
  simp [row, tree, OpTree.inorder]

mutual

/-- What is open behind an expression is that of its last operand. -/
theorem Expr.rowsGraded_iff (e : Expr) : ∃ last, ∀ outer r,
    rowsGraded [] outer (e.tokens ++ r) ↔ e.Graded ∧ rowsGraded last outer r := by
  cases e with
  | operand o =>
    refine ⟨OpTree.openedBy Comparison.level [] o.row, fun outer r => ?_⟩
    rw [Expr.tokens, Operand.rowsGraded_iff o, Expr.Graded, and_assoc]
  | betweenExpr o left right =>
    refine ⟨OpTree.openedBy Comparison.level [] right.row, fun outer r => ?_⟩
    simp only [Expr.tokens, List.append_assoc, List.cons_append]
    rw [Operand.rowsGraded_iff o, rowsGraded_word (.inl rfl), Operand.rowsGraded_iff left,
      rowsGraded_word (.inr rfl), Operand.rowsGraded_iff right, Expr.Graded]
    tauto

theorem Operand.rowsGraded_iff (o : Operand) (opened : List ℕ) (outer : List (List ℕ))
    (r : List Terminal) : rowsGraded opened outer (o.tokens ++ r) ↔
      OpTree.Graded Comparison.level opened o.row ∧ o.PartsGraded ∧
        rowsGraded (OpTree.openedBy Comparison.level opened o.row) outer r := by
  cases o with
  | paren e =>
    obtain ⟨last, hlast⟩ := Expr.rowsGraded_iff e
    have hopen (r : List Terminal) : rowsGraded opened outer (.sign '(' :: r) =
        rowsGraded [] (opened :: outer) r := by
      simp [rowsGraded]
    have hclose : rowsGraded last (opened :: outer) (.sign ')' :: r) =
        rowsGraded opened outer r := by
      simp [rowsGraded]
    simp only [Operand.tokens, List.cons_append, List.append_assoc, List.nil_append]
    rw [hopen, hlast, hclose]
    simp [Operand.row, Operand.tree, OpTree.inorder, OpTree.Graded, OpTree.openedBy,
      Operand.PartsGraded]
  | scalarExpr s =>
    rw [Operand.tokens, rowsGraded_scalar]
    simp [Operand.row, Operand.tree, OpTree.inorder, OpTree.Graded, OpTree.openedBy,
      Operand.PartsGraded]
  | compExpr left c right =>
    have hopened : OpTree.openedBy Comparison.level opened (left.row ++ c :: right.row) =
        OpTree.openedBy Comparison.level (c.level ::
          (OpTree.openedBy Comparison.level opened left.row).filter fun l => decide (l < c.level))
          right.row := by
      simp [OpTree.openedBy]
    simp only [Operand.tokens, List.append_assoc, List.cons_append]
    rw [Operand.rowsGraded_iff left, rowsGraded_comparison, Operand.rowsGraded_iff right,
      Operand.row_compExpr, OpTree.graded_append, OpTree.Graded, Operand.PartsGraded, hopened]
    tauto

end

theorem Operand.graded_row {o : Operand} (h : o.Legal) :
    OpTree.Graded Comparison.level [] o.row :=
  OpTree.exists_legal_iff.mp ⟨o.tree, (Operand.legal_iff.mp h).1, rfl⟩

mutual

theorem Expr.Legal.graded {e : Expr} (h : e.Legal) : e.Graded := by
  cases e with
  | operand o => exact ⟨Operand.graded_row h, Operand.Legal.partsGraded h⟩
  | betweenExpr o left right =>
    exact ⟨⟨Operand.graded_row h.1, Operand.Legal.partsGraded h.1⟩,
      ⟨Operand.graded_row h.2.1, Operand.Legal.partsGraded h.2.1⟩,
      Operand.graded_row h.2.2, Operand.Legal.partsGraded h.2.2⟩

theorem Operand.Legal.partsGraded {o : Operand} (h : o.Legal) : o.PartsGraded := by
  cases o with
  | paren e => exact Expr.Legal.graded h
  | scalarExpr s => trivial
  | compExpr left c right =>
    exact ⟨Operand.Legal.partsGraded h.1, Operand.Legal.partsGraded h.2.1⟩

end

theorem Operand.exists_tree_eq (t : OpTree Primary Comparison) : ∃ o : Operand, o.tree = t := by
  induction t with
  | leaf p =>
    cases p with
    | paren e => exact ⟨.paren e, rfl⟩
    | scalar s => exact ⟨.scalarExpr s, rfl⟩
  | node left c right ihl ihr =>
    obtain ⟨o, rfl⟩ := ihl
    obtain ⟨o', rfl⟩ := ihr
    exact ⟨.compExpr o c o', rfl⟩

/-- The parts of an operand in a row, regrouped in parentheses, and the comparisons between. -/
def Operand.Regroups (o : Operand) (p : Primary) (l : List (Comparison × Primary)) : Prop :=
  p.Legal ∧ (∀ x ∈ l, x.2.Legal) ∧ joined Primary.tokens .comparison p l = o.tokens ∧
    l.map Prod.fst = o.row

theorem Operand.Regroups.exists_legal {o : Operand} {p : Primary} {l : List (Comparison × Primary)}
    (h : o.Regroups p l) (hrow : OpTree.Graded Comparison.level [] o.row) :
    ∃ o' : Operand, o'.Legal ∧ o'.tokens = o.tokens := by
  obtain ⟨hp, hl, htokens, hops⟩ := h
  obtain ⟨t, ht, hinorder⟩ := OpTree.exists_legal_iff.mpr (hops ▸ hrow)
  obtain ⟨o', rfl⟩ := exists_tree_eq t
  refine ⟨o', legal_iff.mpr ⟨ht, OpTree.all_iff.mpr ?_⟩, ?_⟩
  · rw [hinorder]
    exact ⟨hp, hl⟩
  · rw [tokens_eq, hinorder, htokens]

mutual

theorem Expr.Graded.exists_legal {e : Expr} (h : e.Graded) :
    ∃ e' : Expr, e'.Legal ∧ e'.tokens = e.tokens := by
  cases e with
  | operand o =>
    obtain ⟨p, l, hparts⟩ := Operand.exists_regroups o h.2
    obtain ⟨o', ho, htokens⟩ := hparts.exists_legal h.1
    exact ⟨.operand o', ho, htokens⟩
  | betweenExpr o left right =>
    obtain ⟨⟨hrow, hparts⟩, ⟨hrow', hparts'⟩, hrow'', hparts''⟩ := h
    obtain ⟨p, l, hregroups⟩ := Operand.exists_regroups o hparts
    obtain ⟨p', l', hregroups'⟩ := Operand.exists_regroups left hparts'
    obtain ⟨p'', l'', hregroups''⟩ := Operand.exists_regroups right hparts''
    obtain ⟨a, ha, htokens⟩ := hregroups.exists_legal hrow
    obtain ⟨b, hb, htokens'⟩ := hregroups'.exists_legal hrow'
    obtain ⟨c, hc, htokens''⟩ := hregroups''.exists_legal hrow''
    exact ⟨.betweenExpr a b c, ⟨ha, hb, hc⟩, by
      rw [Expr.tokens, Expr.tokens, htokens, htokens', htokens'']⟩

theorem Operand.exists_regroups (o : Operand) (h : o.PartsGraded) : ∃ p l, o.Regroups p l := by
  cases o with
  | paren e =>
    obtain ⟨e', he, htokens⟩ := Expr.Graded.exists_legal (e := e) h
    refine ⟨.paren e', [], he, by simp, ?_, rfl⟩
    simp [joined, Primary.tokens, Operand.tokens, htokens]
  | scalarExpr s => exact ⟨.scalar s, [], trivial, by simp, by simp [joined, Primary.tokens,
      Operand.tokens], rfl⟩
  | compExpr left c right =>
    obtain ⟨p, l, hp, hl, htokens, hops⟩ := Operand.exists_regroups left h.1
    obtain ⟨p', l', hp', hl', htokens', hops'⟩ := Operand.exists_regroups right h.2
    refine ⟨p, l ++ (c, p') :: l', hp, ?_, ?_, ?_⟩
    · exact List.forall_mem_append.mpr ⟨hl, List.forall_mem_cons.mpr ⟨hp', hl'⟩⟩
    · rw [joined_append, htokens, htokens', Operand.tokens]
    · rw [List.map_append, List.map_cons, hops, hops', Operand.row_compExpr]

end

/-- The declarations leave a text of `expr` one derivation, or none where a comparison stands while
its level is open. -/
theorem Expr.derivations (e : Expr) :
    if rowsGraded [] [] e.tokens then ∃! e' : Expr, e'.Legal ∧ e'.tokens = e.tokens
    else ¬ ∃ e' : Expr, e'.Legal ∧ e'.tokens = e.tokens := by
  have hgraded (e : Expr) : rowsGraded [] [] e.tokens ↔ e.Graded := by
    obtain ⟨last, hlast⟩ := e.rowsGraded_iff
    simpa [rowsGraded] using hlast [] []
  split
  · next h =>
    obtain ⟨e', he, htokens⟩ := ((hgraded e).mp h).exists_legal
    refine ⟨e', ⟨he, htokens⟩, fun b hb => ?_⟩
    exact (b.unique hb.1 e' [] [] he (without_nil _) (without_nil _) (by rw [hb.2, htokens])).1
  · next h =>
    rintro ⟨e', he, htokens⟩
    exact h (htokens ▸ (hgraded e').mpr he.graded)

example :
    rowsGraded [] [] [.identifier ['x'], .comparison .less, .identifier ['x'], .comparison .equals,
      .identifier ['x'], .comparison .less, .identifier ['x']] ∧
    ¬ rowsGraded [] [] [.identifier ['x'], .comparison .less, .identifier ['x'],
      .comparison .greater, .identifier ['x']] := by
  decide

end AlphaDb.Sql
