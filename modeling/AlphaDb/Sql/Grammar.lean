import AlphaDb.Lib.Decoding
import AlphaDb.Sql.Expression

/-! The grammar of statements (`sql/parser/parser.y`): its derivations, their tokens, and which of
them the precedence declarations leave. -/
namespace AlphaDb.Sql

/-! ### Tokens -/

/-- The words of the rules, with those that no `%token` declares: `BETWEEN`, `AND`, `NULL`, `NOT`,
`INTERGER` and `TEXT`. -/
inductive Word
  | select
  | «from»
  | «where»
  | create
  | drop
  | table
  | delete
  | truncate
  | insert
  | into
  | values
  | update
  | set
  | between
  | and
  | null
  | not
  | true
  | false
  | int
  | interger
  | long
  | float
  | double
  | varchar
  | char
  | text
deriving DecidableEq

inductive Terminal
  | identifier (sval : Text)
  | string (sval : Text)
  | intVal (ival : ℤ)
  | word (w : Word)
  | comparison (c : Comparison)
  | sign (c : Char)
deriving DecidableEq

/-! ### Expressions -/

/-- `%nonassoc` in the order of the file: the later line binds more tightly. -/
def Comparison.level : Comparison → ℕ
  | .sign => 0
  | .equals => 0
  | .notEquals => 0
  | .less => 1
  | .greater => 1
  | .lessEq => 1
  | .greaterEq => 1

def Literal.token : Literal → Terminal
  | .stringLiteral x => .string x
  | .boolLiteral true => .word .true
  | .boolLiteral false => .word .false
  | .intLiteral n => .intVal n
  | .nullLiteral => .word .null

def ColumnName.tokens : ColumnName → List Terminal
  | .identifier x => [.identifier x]
  | .qualified t x => [.identifier t, .sign '.', .identifier x]

def ScalarExpr.tokens : ScalarExpr → List Terminal
  | .columnName c => c.tokens
  | .starExpr => [.sign '*']
  | .literal l => [l.token]

mutual

def Expr.tokens : Expr → List Terminal
  | .operand o => o.tokens
  | .betweenExpr o left right =>
    o.tokens ++ .word .between :: (left.tokens ++ .word .and :: right.tokens)

def Operand.tokens : Operand → List Terminal
  | .paren e => .sign '(' :: (e.tokens ++ [.sign ')'])
  | .scalarExpr s => s.tokens
  | .compExpr left c right => left.tokens ++ .comparison c :: right.tokens

end

/-- What stands between the comparisons of an operand. -/
inductive Primary
  | paren (e : Expr)
  | scalar (s : ScalarExpr)

def Primary.tokens : Primary → List Terminal
  | .paren e => .sign '(' :: (e.tokens ++ [.sign ')'])
  | .scalar s => s.tokens

def Operand.tree : Operand → OpTree Primary Comparison
  | .paren e => .leaf (.paren e)
  | .scalarExpr s => .leaf (.scalar s)
  | .compExpr left c right => .node left.tree c right.tree

/-- The comparison of `o`, if it is one, binds more tightly than `c`. -/
def Operand.Above (c : Comparison) (o : Operand) : Prop := o.tree.Above Comparison.level c

mutual

/-- No comparison is beside one of its level or below one of a higher level, except in parentheses:
there the parser reduces, or reports an error. -/
def Expr.Legal : Expr → Prop
  | .operand o => o.Legal
  | .betweenExpr o left right => o.Legal ∧ left.Legal ∧ right.Legal

def Operand.Legal : Operand → Prop
  | .paren e => e.Legal
  | .scalarExpr _ => True
  | .compExpr left c right => left.Legal ∧ right.Legal ∧ left.Above c ∧ right.Above c

end

def Primary.Legal : Primary → Prop
  | .paren e => e.Legal
  | .scalar _ => True

/-! ### Statements -/

/-- The left-recursive lists of the grammar. -/
inductive CommaList (α : Type)
  | one (a : α)
  | more (l : CommaList α) (a : α)

namespace CommaList

variable {α : Type}

/-- The items as `push_back` orders them. -/
def items : CommaList α → List α
  | one a => [a]
  | more l a => l.items ++ [a]

def tokens (text : α → List Terminal) (sep : Terminal) : CommaList α → List Terminal
  | one a => text a
  | more l a => l.tokens text sep ++ sep :: text a

end CommaList

/-- `table_name` has the productions of `column_name`. -/
abbrev TableName := ColumnName

inductive ColumnType
  | int
  | interger
  | long
  | float
  | double
  | varchar (ival : ℤ)
  | char (ival : ℤ)
  | text

/-- `opt_column_nullable`. -/
inductive Nullable
  | null
  | notNull
  | empty

structure ColumnDef where
  name : Text
  type : ColumnType
  nullable : Nullable

structure UpdateClause where
  column : Text
  value : Expr

/-- Derivations from `statement`. There is none for `CREATE INDEX`, where `index_name` has no rule,
nor for `show_stmt`, which is not among the alternatives. -/
inductive Statement
  | select (list : CommaList Expr) (table : TableName) (cond : Option Expr)
  | createTable (table : TableName) (columns : CommaList ColumnDef)
  | insert (table : TableName) (columns : Option (CommaList Text)) (values : CommaList Literal)
  | delete (table : TableName) (cond : Option Expr)
  | truncate (table : TableName)
  | update (table : TableName) (updates : CommaList UpdateClause) (cond : Option Expr)
  | drop (table : TableName)

/-- A derivation from `input`, with its `opt_semicolon`. -/
structure Input where
  statements : CommaList Statement
  semicolon : Bool

def ColumnType.tokens : ColumnType → List Terminal
  | .int => [.word .int]
  | .interger => [.word .interger]
  | .long => [.word .long]
  | .float => [.word .float]
  | .double => [.word .double]
  | .varchar n => [.word .varchar, .sign '(', .intVal n, .sign ')']
  | .char n => [.word .char, .sign '(', .intVal n, .sign ')']
  | .text => [.word .text]

def Nullable.tokens : Nullable → List Terminal
  | .null => [.word .null]
  | .notNull => [.word .not, .word .null]
  | .empty => []

def ColumnDef.tokens (d : ColumnDef) : List Terminal :=
  .identifier d.name :: (d.type.tokens ++ d.nullable.tokens)

def UpdateClause.tokens (u : UpdateClause) : List Terminal :=
  .identifier u.column :: .comparison .sign :: u.value.tokens

/-- `opt_where`. -/
def whereTokens : Option Expr → List Terminal
  | none => []
  | some e => .word .where :: e.tokens

/-- `opt_column_list`. -/
def columnListTokens : Option (CommaList Text) → List Terminal
  | none => []
  | some l => .sign '(' :: (l.tokens (fun x => [.identifier x]) (.sign ',') ++ [.sign ')'])

def Statement.tokens : Statement → List Terminal
  | select list table cond => .word .select ::
      (list.tokens Expr.tokens (.sign ',') ++ .word .from :: (table.tokens ++ whereTokens cond))
  | createTable table columns => .word .create :: .word .table ::
      (table.tokens ++ .sign '(' :: (columns.tokens ColumnDef.tokens (.sign ',') ++ [.sign ')']))
  | insert table columns values => .word .insert :: .word .into ::
      (table.tokens ++ (columnListTokens columns ++ .word .values :: .sign '(' ::
        (values.tokens (fun l => [l.token]) (.sign ',') ++ [.sign ')'])))
  | delete table cond => .word .delete :: .word .from :: (table.tokens ++ whereTokens cond)
  | truncate table => .word .truncate :: table.tokens
  | update table updates cond => .word .update ::
      (table.tokens ++ .word .set ::
        (updates.tokens UpdateClause.tokens (.sign ',') ++ whereTokens cond))
  | drop table => .word .drop :: .word .table :: table.tokens

def Input.tokens (d : Input) : List Terminal :=
  d.statements.tokens Statement.tokens (.sign ';') ++ if d.semicolon then [.sign ';'] else []

/-- The precedence declarations leave the derivation. -/
def Statement.Legal : Statement → Prop
  | select list _ cond => (∀ e ∈ list.items, e.Legal) ∧ ∀ e ∈ cond, e.Legal
  | createTable _ _ => True
  | insert _ _ _ => True
  | delete _ cond => ∀ e ∈ cond, e.Legal
  | truncate _ => True
  | update _ updates cond => (∀ u ∈ updates.items, u.value.Legal) ∧ ∀ e ∈ cond, e.Legal
  | drop _ => True

def Input.Legal (d : Input) : Prop := ∀ s ∈ d.statements.items, s.Legal

end AlphaDb.Sql
