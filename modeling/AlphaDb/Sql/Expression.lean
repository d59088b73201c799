import Mathlib.Tactic

/-! The expression trees that the semantic actions of `expr` build (`parser.y`, `expression.cc`). -/
namespace AlphaDb.Sql

inductive ExpressionType
  | literalFloat
  | literalString
  | literalInt
  | literalBool
  | literalNull
  | star
  | columnRef
  | operator
deriving DecidableEq

inductive OperatorType
  | opNone
  | opBetween
  | opEquals
  | opNotEquals
  | opLess
  | opLessEqual
  | opGreater
  | opGreaterEqual
deriving DecidableEq

/-- The text of an identifier or of a string, a `char*`. -/
abbrev Text := List Char

/-- `expression`, with `none` for `nullptr`. The constructor leaves `flag` uninitialised. -/
structure Expression where
  expr : Option Expression
  expr2 : Option Expression
  exprList : Option (List Expression)
  name : Option Text
  table : Option Text
  ival : ℤ
  flag : Option Bool
  type : ExpressionType
  opType : OperatorType

namespace Expression

/-- The constructor. -/
def new (type : ExpressionType) : Expression :=
  ⟨none, none, none, none, none, 0, none, type, .opNone⟩

/-- `expr` is not stored. -/
def makeBetween (_expr left right : Expression) : Expression :=
  { new .operator with opType := .opBetween, exprList := some [left, right] }

def makeColumnRef (name : Text) : Expression := { new .columnRef with name := some name }

/-- `make_column_ref` of a table and a name: `table` gets the name as well. -/
def makeTableColumnRef (_table name : Text) : Expression :=
  { new .columnRef with table := some name, name := some name }

def makeLiteralInt (val : ℤ) : Expression := { new .literalInt with ival := val }

def makeLiteralBool (val : Bool) : Expression := { new .literalBool with flag := some val }

def makeLiteralString (val : Text) : Expression := { new .literalString with name := some val }

def makeNullLiteral : Expression := new .literalNull

def makeOpBinary (expr1 : Expression) (op : OperatorType) (expr2 : Expression) : Expression :=
  { new .operator with opType := op, expr := some expr1, expr2 := some expr2 }

end Expression

/-! ### The derivations -/

inductive Literal
  | stringLiteral (sval : Text)
  | boolLiteral (bval : Bool)
  | intLiteral (ival : ℤ)
  | nullLiteral
deriving DecidableEq

inductive ColumnName
  | identifier (name : Text)
  | qualified (table name : Text)
deriving DecidableEq

inductive ScalarExpr
  | columnName (c : ColumnName)
  | starExpr
  | literal (l : Literal)
deriving DecidableEq

/-- The token between the operands of a `comp_expr`; `sign` is the character `=`. -/
inductive Comparison
  | sign
  | equals
  | notEquals
  | less
  | greater
  | lessEq
  | greaterEq
deriving DecidableEq

mutual

/-- A derivation from `expr`. -/
inductive Expr
  | operand (o : Operand)
  | betweenExpr (o left right : Operand)

/-- A derivation from `operand`. -/
inductive Operand
  | paren (e : Expr)
  | scalarExpr (s : ScalarExpr)
  | compExpr (left : Operand) (c : Comparison) (right : Operand)

end

/-! ### The semantic actions -/

def Literal.build : Literal → Expression
  | .stringLiteral x => .makeLiteralString x
  | .boolLiteral b => .makeLiteralBool b
  | .intLiteral n => .makeLiteralInt n
  | .nullLiteral => .makeNullLiteral

def ColumnName.build : ColumnName → Expression
  | .identifier x => .makeColumnRef x
  | .qualified t x => .makeTableColumnRef t x

def ScalarExpr.build : ScalarExpr → Expression
  | .columnName c => c.build
  | .starExpr => .new .star
  | .literal l => l.build

def Comparison.operatorType : Comparison → OperatorType
  | .sign => .opEquals
  | .equals => .opEquals
  | .notEquals => .opNotEquals
  | .less => .opLess
  | .greater => .opGreater
  | .lessEq => .opLessEqual
  | .greaterEq => .opGreaterEqual

mutual

/-- The tree of an expression. -/
def Expr.build : Expr → Expression
  | .operand o => o.build
  | .betweenExpr o left right => .makeBetween o.build left.build right.build

def Operand.build : Operand → Expression
  | .paren e => e.build
  | .scalarExpr s => s.build
  | .compExpr left c right => .makeOpBinary left.build c.operatorType right.build

end

/-! ### What an expression says -/

/-- An expression without parentheses. -/
inductive Phrase
  | scalar (s : ScalarExpr)
  | comparison (left : Phrase) (c : Comparison) (right : Phrase)
  | between (operand left right : Phrase)
deriving DecidableEq

/-- One spelling of each comparison. -/
def Comparison.respell : Comparison → Comparison
  | .sign => .equals
  | c => c

mutual

/-- An expression up to its parentheses and the spelling of its comparisons. -/
def Expr.phrase : Expr → Phrase
  | .operand o => o.phrase
  | .betweenExpr o left right => .between o.phrase left.phrase right.phrase

def Operand.phrase : Operand → Phrase
  | .paren e => e.phrase
  | .scalarExpr s => .scalar s
  | .compExpr left c right => .comparison left.phrase c.respell right.phrase

end

/-- A printer gives the expression back from its tree. -/
def PrintsBack (print : Expression → Expr) (e : Expr) : Prop := (print e.build).phrase = e.phrase

/-- The tree of an expression is the tree of no different one. -/
def Expr.Retained (e : Expr) : Prop := ∀ e' : Expr, e'.build = e.build → e'.phrase = e.phrase

/-- No column with its table and no `BETWEEN`. -/
def Phrase.Plain : Phrase → Prop
  | .scalar (.columnName (.qualified _ _)) => False
  | .scalar _ => True
  | .comparison left _ right => left.Plain ∧ right.Plain
  | .between _ _ _ => False

/-! ### The printer -/

def OperatorType.comparison : OperatorType → Comparison
  | .opNotEquals => .notEquals
  | .opLess => .less
  | .opGreater => .greater
  | .opLessEqual => .lessEq
  | .opGreaterEqual => .greaterEq
  | _ => .equals

/-- Writes a tree as an operand, every inner operand in parentheses. -/
def Expression.print : Expression → Operand
  | ⟨some left, some right, _, _, _, _, _, .operator, op⟩ =>
    .compExpr (.paren (.operand left.print)) op.comparison (.paren (.operand right.print))
  | ⟨_, _, _, some x, _, _, _, .columnRef, _⟩ => .scalarExpr (.columnName (.identifier x))
  | ⟨_, _, _, some x, _, _, _, .literalString, _⟩ => .scalarExpr (.literal (.stringLiteral x))
  | ⟨_, _, _, _, _, _, some b, .literalBool, _⟩ => .scalarExpr (.literal (.boolLiteral b))
  | ⟨_, _, _, _, _, n, _, .literalInt, _⟩ => .scalarExpr (.literal (.intLiteral n))
  | ⟨_, _, _, _, _, _, _, .literalNull, _⟩ => .scalarExpr (.literal .nullLiteral)
  | _ => .scalarExpr .starExpr

/-- No node of the tree has lost something: no `OP_BETWEEN`, no table. -/
def Expression.Whole : Expression → Prop
  | ⟨some left, some right, _, _, _, _, _, .operator, _⟩ => left.Whole ∧ right.Whole
  | ⟨_, _, _, _, _, _, _, .operator, _⟩ => False
  | x => x.table = none

theorem comparison_operatorType (c : Comparison) :
    c.operatorType.comparison.respell = c.respell := by
  cases c <;> rfl

theorem print_scalar {s : ScalarExpr} (h : (Phrase.scalar s).Plain) :
    s.build.print.phrase = .scalar s := by
  obtain c | _ | l := s
  · cases c with
    | identifier x => rfl
    | qualified t x => exact h.elim
  · rfl
  · cases l <;> rfl

mutual

theorem print_expr (e : Expr) (h : e.phrase.Plain) : e.build.print.phrase = e.phrase := by
  cases e with
  | operand o => exact print_operand o h
  | betweenExpr o left right => exact h.elim

/-- What the printer writes for the tree of a plain operand says what the operand says. -/
theorem print_operand (o : Operand) (h : o.phrase.Plain) : o.build.print.phrase = o.phrase := by
  cases o with
  | paren e => exact print_expr e h
  | scalarExpr s => exact print_scalar h
  | compExpr left c right =>
    have hl := print_operand left h.1
    have hr := print_operand right h.2
    simp only [Operand.build, Expression.makeOpBinary, Expression.new, Expression.print,
      Operand.phrase, Expr.phrase, hl, hr, comparison_operatorType]

end

mutual

theorem whole_expr (e : Expr) : e.build.Whole ↔ e.phrase.Plain := by
  cases e with
  | operand o => exact whole_operand o
  | betweenExpr o left right => exact Iff.rfl

theorem whole_operand (o : Operand) : o.build.Whole ↔ o.phrase.Plain := by
  cases o with
  | paren e => exact whole_expr e
  | scalarExpr s =>
    obtain c | _ | l := s
    · cases c <;> simp [Operand.build, ScalarExpr.build, ColumnName.build, Operand.phrase,
        Expression.makeColumnRef, Expression.makeTableColumnRef, Expression.new, Expression.Whole,
        Phrase.Plain]
    · simp [Operand.build, ScalarExpr.build, Operand.phrase, Expression.new, Expression.Whole,
        Phrase.Plain]
    · cases l <;> simp [Operand.build, ScalarExpr.build, Literal.build, Operand.phrase,
        Expression.makeLiteralString, Expression.makeLiteralBool, Expression.makeLiteralInt,
        Expression.makeNullLiteral, Expression.new, Expression.Whole, Phrase.Plain]
  | compExpr left c right => exact and_congr (whole_operand left) (whole_operand right)

end

/-! ### What the trees retain -/

theorem retained_of_plain {e : Expr} (h : e.phrase.Plain) : e.Retained := by
  intro e' he
  -- the two trees are one, so nothing is lost in `e'` either
  have h' : e'.phrase.Plain := by
    rw [← whole_expr, he, whole_expr]
    exact h
  rw [← print_expr e' h', he, print_expr e h]

/-- Some operand says something else. -/
theorem exists_other_operand (o : Operand) : ∃ o' : Operand, o'.phrase ≠ o.phrase := by
  by_cases h : o.phrase = .scalar .starExpr
  · refine ⟨.scalarExpr (.literal .nullLiteral), ?_⟩
    rw [h]
    intro he
    cases he
  · exact ⟨.scalarExpr .starExpr, fun he => h he.symm⟩

mutual

theorem lost_expr (e : Expr) (h : ¬ e.phrase.Plain) :
    ∃ e' : Expr, e'.build = e.build ∧ e'.phrase ≠ e.phrase := by
  cases e with
  | operand o =>
    obtain ⟨o', hb, hp⟩ := lost_operand o h
    exact ⟨.operand o', hb, hp⟩
  | betweenExpr o left right =>
    -- the operand before `BETWEEN` is in no field of the tree
    obtain ⟨o', hp⟩ := exists_other_operand o
    refine ⟨.betweenExpr o' left right, rfl, ?_⟩
    intro he
    injection he with he
    exact hp he

/-- What is not plain shares its tree with something else. -/
theorem lost_operand (o : Operand) (h : ¬ o.phrase.Plain) :
    ∃ o' : Operand, o'.build = o.build ∧ o'.phrase ≠ o.phrase := by
  cases o with
  | paren e =>
    obtain ⟨e', hb, hp⟩ := lost_expr e h
    exact ⟨.paren e', hb, hp⟩
  | scalarExpr s =>
    obtain (x | ⟨t, x⟩) | _ | l := s
    · exact absurd trivial h
    · -- `make_column_ref` writes the name over the table
      refine ⟨.scalarExpr (.columnName (.qualified ('a' :: t) x)), rfl, ?_⟩
      intro he
      simp only [Operand.phrase, Phrase.scalar.injEq, ScalarExpr.columnName.injEq,
        ColumnName.qualified.injEq] at he
      exact List.cons_ne_self _ _ he.1
    · exact absurd trivial h
    · exact absurd trivial h
  | compExpr left c right =>
    obtain hl | hr := not_and_or.mp h
    · obtain ⟨left', hb, hp⟩ := lost_operand left hl
      refine ⟨.compExpr left' c right, by simp only [Operand.build, hb], ?_⟩
      intro he
      injection he with he
      exact hp he
    · obtain ⟨right', hb, hp⟩ := lost_operand right hr
      refine ⟨.compExpr left c right', by simp only [Operand.build, hb], ?_⟩
      intro he
      injection he with _ _ he
      exact hp he

end

/-- The tree determines the expression, and the printer gives it back, when it has no `BETWEEN` and
no table; and only then. -/
theorem retained_iff_plain (e : Expr) :
    (e.phrase.Plain → PrintsBack (fun x => .operand x.print) e) ∧
      (e.Retained ↔ e.phrase.Plain) := by
  refine ⟨print_expr e, ?_, retained_of_plain⟩
  intro hr
  by_contra h
  obtain ⟨e', hb, hp⟩ := lost_expr e h
  exact hp (hr e' hb)

/-- `c BETWEEN 1 AND 2` and `d BETWEEN 1 AND 2` have one tree, so no printer tells them apart. -/
theorem between_loses_operand : ¬ ∃ print : Expression → Expr, ∀ e : Expr, PrintsBack print e := by
  rintro ⟨print, h⟩
  have column (x : Text) := h (.betweenExpr (.scalarExpr (.columnName (.identifier x)))
    (.scalarExpr (.literal (.intLiteral 1))) (.scalarExpr (.literal (.intLiteral 2))))
  have hc := column ['c']
  have hd := column ['d']
  have he := hc.symm.trans hd
  simp [Expr.phrase, Operand.phrase] at he

end AlphaDb.Sql
