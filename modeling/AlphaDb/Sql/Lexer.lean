import AlphaDb.Lib.Flex

/-! The lexer of SQL texts (`sql/parser/lexer.l`, `sql::tokenize`). Letters match in both cases. -/
namespace AlphaDb.Sql

open Flex Flex.Pattern

/-- `INITIAL`, and the inclusive condition `COMMENT`. -/
inductive StartCondition
  | initial
  | comment
deriving DecidableEq

/-- What `yylex` returns; `sign` is a character that stands for itself. -/
inductive Code
  | sqlChar
  | sqlCreate
  | sqlColumn
  | sqlColumns
  | sqlDrop
  | sqlDelete
  | sqlDouble
  | sqlFrom
  | sqlFalse
  | sqlFloat
  | sqlInt
  | sqlInto
  | sqlIndex
  | sqlInsert
  | sqlInteger
  | sqlLong
  | sqlSet
  | sqlShow
  | sqlSelect
  | sqlSchema
  | sqlSchemas
  | sqlTrue
  | sqlTable
  | sqlTables
  | sqlTruncate
  | sqlUpdate
  | sqlValues
  | sqlVarchar
  | sqlWhere
  | sqlEquals
  | sqlNotEquals
  | sqlLessEq
  | sqlGreaterEq
  | sqlConcat
  | sign (c : Char)
  | sqlFloatVal
  | sqlIntVal
  | sqlIdentifier
  | sqlString
deriving DecidableEq

/-- A token with its text, which gives its value. -/
structure Token where
  code : Code
  text : List Char
deriving DecidableEq

abbrev LexRule := Rule Char StartCondition Token

def lit (c : Char) : Pattern Char := .set fun d => d = c

/-- A text in quotes. -/
def quote (x : List Char) : Pattern Char := x.foldr (fun c p => .seq (lit c) p) .empty

/-- A word in lower or upper case, given in lower case. -/
def word (x : List Char) : Pattern Char :=
  x.foldr (fun c p => .seq (.set fun d => d.toLower = c) p) .empty

def isBlank (c : Char) : Bool := c = ' ' || c = '\n' || c = '\t'

def digit : Pattern Char := .set Char.isDigit

def tokenRule (pattern : Pattern Char) (code : Code) : LexRule :=
  ⟨[], pattern, .token fun x => ⟨code, x⟩⟩

/-- `--` begins a comment. -/
def dashes : LexRule := ⟨[], quote ['-', '-'], .begin .comment⟩

/-- The rest of the line, in a comment. -/
def restOfLine : LexRule := ⟨[.comment], .star (.set fun c => c ≠ '\n'), .skip⟩

/-- The end of the line, in a comment. -/
def endOfLine : LexRule := ⟨[.comment], lit '\n', .begin .initial⟩

def space : LexRule := ⟨[], .plus (.set isBlank), .skip⟩

def keywords : List LexRule :=
  [tokenRule (word ['c', 'h', 'a', 'r']) .sqlChar,
    tokenRule (word ['c', 'r', 'e', 'a', 't', 'e']) .sqlCreate,
    tokenRule (word ['c', 'o', 'l', 'u', 'm', 'n']) .sqlColumn,
    tokenRule (word ['c', 'o', 'l', 'u', 'm', 'n', 's']) .sqlColumns,
    tokenRule (word ['d', 'r', 'o', 'p']) .sqlDrop,
    tokenRule (word ['d', 'e', 'l', 'e', 't', 'e']) .sqlDelete,
    tokenRule (word ['d', 'o', 'u', 'b', 'l', 'e']) .sqlDouble,
    tokenRule (word ['f', 'r', 'o', 'm']) .sqlFrom,
    tokenRule (word ['f', 'a', 'l', 's', 'e']) .sqlFalse,
    tokenRule (word ['f', 'l', 'o', 'a', 't']) .sqlFloat,
    tokenRule (word ['i', 'n', 't']) .sqlInt,
    tokenRule (word ['i', 'n', 't', 'o']) .sqlInto,
    tokenRule (word ['i', 'n', 'd', 'e', 'x']) .sqlIndex,
    tokenRule (word ['i', 'n', 's', 'e', 'r', 't']) .sqlInsert,
    tokenRule (word ['i', 'n', 't', 'e', 'g', 'e', 'r']) .sqlInteger,
    tokenRule (word ['l', 'o', 'n', 'g']) .sqlLong,
    tokenRule (word ['s', 'e', 't']) .sqlSet,
    tokenRule (word ['s', 'h', 'o', 'w']) .sqlShow,
    tokenRule (word ['s', 'e', 'l', 'e', 'c', 't']) .sqlSelect,
    tokenRule (word ['s', 'c', 'h', 'e', 'm', 'a']) .sqlSchema,
    tokenRule (word ['s', 'c', 'h', 'e', 'm', 'a', 's']) .sqlSchemas,
    tokenRule (word ['t', 'r', 'u', 'e']) .sqlTrue,
    tokenRule (word ['t', 'a', 'b', 'l', 'e']) .sqlTable,
    tokenRule (word ['t', 'a', 'b', 'l', 'e', 's']) .sqlTables,
    tokenRule (word ['t', 'r', 'u', 'n', 'c', 'a', 't', 'e']) .sqlTruncate,
    tokenRule (word ['u', 'p', 'd', 'a', 't', 'e']) .sqlUpdate,
    tokenRule (word ['v', 'a', 'l', 'u', 'e', 's']) .sqlValues,
    tokenRule (word ['v', 'a', 'r', 'c', 'h', 'a', 'r']) .sqlVarchar,
    tokenRule (word ['w', 'h', 'e', 'r', 'e']) .sqlWhere]

def operators : List LexRule :=
  [tokenRule (quote ['=', '=']) .sqlEquals,
    tokenRule (quote ['!', '=']) .sqlNotEquals,
    tokenRule (quote ['<', '>']) .sqlNotEquals,
    tokenRule (quote ['<', '=']) .sqlLessEq,
    tokenRule (quote ['>', '=']) .sqlGreaterEq,
    tokenRule (quote ['|', '|']) .sqlConcat]

def signs : List Char :=
  ['-', '+', '*', '/', '(', ')', '\x7b', '\x7d', ',', '.', ';', '<', '>', '=', '^', '%', ':', '?',
    '[', ']', '|']

def signRule : LexRule :=
  ⟨[], .set fun c => signs.contains c, .token fun x => ⟨.sign (x.headD ' '), x⟩⟩

def numbers : List LexRule :=
  [tokenRule (.seq (.opt (lit '-')) (.seq (.plus digit) (.seq (lit '.') (.star digit))))
      .sqlFloatVal,
    tokenRule (.seq (lit '.') (.star digit)) .sqlFloatVal,
    tokenRule (.seq (.opt (lit '-')) (.plus digit)) .sqlIntVal]

/-- Characters between two quotes. -/
def quoted (q : Char) (inner : Pattern Char) : Pattern Char := .seq (lit q) (.seq inner (lit q))

def doubleQuote : Char := '\x22'

def singleQuote : Char := '\x27'

def quotedIdentifier : LexRule :=
  tokenRule (quoted doubleQuote (.plus (.set fun c => c ≠ doubleQuote && c ≠ '\n'))) .sqlIdentifier

def identifier : LexRule :=
  tokenRule (.seq (.set Char.isAlpha) (.star (.set fun c => c.isAlphanum || c = '_')))
    .sqlIdentifier

def string : LexRule :=
  tokenRule (quoted singleQuote (.star (.set fun c => c ≠ singleQuote && c ≠ '\n'))) .sqlString

/-- An unknown character: `yylex` returns 0. -/
def unknown : LexRule := ⟨[], .set fun c => c ≠ '\n', .stop⟩

/-- The rules before the last one. -/
def known : List LexRule :=
  dashes :: restOfLine :: endOfLine :: space ::
    (keywords ++ operators ++ signRule :: numbers ++ [quotedIdentifier, identifier, string])

def rules : List LexRule := known ++ [unknown]

/-- The tokens that `tokenize` collects, up to the end of the text or to an unknown character. -/
def tokens (text : List Char) : List Token := (lex rules .initial text).1

example : (tokens ['a', ' ', '-', '-', 'x', '\n', 'B', '=', '1']).map Token.code =
    [.sqlIdentifier, .sqlIdentifier, .sign '=', .sqlIntVal] := by
  decide +kernel

end AlphaDb.Sql
