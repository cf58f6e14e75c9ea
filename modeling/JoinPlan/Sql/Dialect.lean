import JoinPlan.Json.Printer

/-!
# SQL dialects

The dialects differ in how names and texts are quoted, how the columns of a key
are combined, and in the word for no limit.  A name is quoted by writing its
quote character twice, and so is a text; where a backslash escapes inside texts
it is written twice as well, which in the first dialect needs a mark before the
text and a space before the mark.
-/

namespace JoinPlan

inductive Dialect
  | postgres
  | mysql
  | sqlite
deriving DecidableEq, Repr

namespace Dialect

def all : List Dialect := [.postgres, .mysql, .sqlite]

/-- The name a configuration gives the dialect. -/
def choice : Dialect → String
  | .postgres => "postgres"
  | .mysql => "mysql"
  | .sqlite => "sqlite"

/-- The name the dialect goes by in reports. -/
def name : Dialect → String
  | .postgres => "pg"
  | .mysql => "mysql8"
  | .sqlite => "sqlite3"

/-- The character around names. -/
def nameQuote : Dialect → Char
  | .postgres | .sqlite => '"'
  | .mysql => '\x60'

/-- Whether a backslash escapes the next character inside a text. -/
def escapesBackslash : Dialect → Bool
  | .postgres | .mysql => true
  | .sqlite => false

/-- Writes a character twice. -/
def doubled (quote : Char) (text : List Char) : List Char :=
  text.flatMap fun c => if c = quote then [quote, quote] else [c]

/-- Quotes a name. -/
def quote (dialect : Dialect) (name : String) : String :=
  let mark := dialect.nameQuote
  String.ofList (mark :: (doubled mark name.toList ++ [mark]))

/-- Quotes a text. -/
def quoteText (dialect : Dialect) (text : String) : String :=
  let chars := text.toList
  let escaped := if dialect.escapesBackslash then doubled '\\' chars else chars
  let quoted := '\'' :: (doubled '\'' escaped ++ ['\''])
  String.ofList (if dialect = .postgres ∧ '\\' ∈ chars then ' ' :: 'E' :: quoted else quoted)

/-- Combines the qualified columns of a key into one value. -/
def compositeKey (dialect : Dialect) (columns : List String) : String :=
  match dialect with
  | .postgres => "NULLIF(CONCAT(" ++ ", ".intercalate columns ++ "), '')"
  | .mysql => "CONCAT(" ++ ", ".intercalate columns ++ ")"
  | .sqlite => " || ".intercalate columns

/-- The word for no limit. -/
def unlimited : Dialect → String
  | .postgres => "ALL"
  | .mysql => "18446744073709551615"
  | .sqlite => "-1"

/-- What is written before each row of literal rows. -/
def rowWord : Dialect → String
  | .mysql => "ROW"
  | .postgres | .sqlite => ""

/-- The literal of a value; arrays and objects are literals of their text. -/
def literal (dialect : Dialect) : Json → String
  | .null => "NULL"
  | .bool true => "TRUE"
  | .bool false => "FALSE"
  | .number value => String.ofList (Json.numberText value)
  | .string text => dialect.quoteText text
  | value => dialect.quoteText value.text

end Dialect

end JoinPlan
