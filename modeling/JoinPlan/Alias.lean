import JoinPlan.Assoc
import JoinPlan.Text.Blank

/-!
# Aliases

Every request has a fresh namespace that hands out the aliases of its tables and
columns.  Plain aliases are readable: a column keeps its name, and a table's name
is cut down to ten letters, digits and underscores, followed by as many dollar
signs as make it unused.  Minified aliases count `a`, `b`, … through an alphabet
of 54 symbols and on to `aa`; a column asked for twice keeps its alias, because
output aliases are told apart by the path of tables before them.
-/

namespace JoinPlan

inductive AliasKind
  | table
  | column
deriving DecidableEq, Repr

structure Namespace where
  minify : Bool
  /-- How many minified aliases were handed out. -/
  issued : Nat
  usedTables : List String
  /-- The minified aliases of columns, by column name. -/
  columns : List (String × String)
deriving DecidableEq

namespace Namespace

def fresh (minify : Bool) : Namespace where
  minify := minify
  issued := 0
  usedTables := []
  columns := []

/-- The symbols minified aliases are spelled with. -/
def alphabet : List Char :=
  "abcdefghijklmnopqrstuvwxyzABCDEFGHIJKLMNOPQRSTUVWXYZ#$".toList

/-- The `n`th word over the alphabet, counted from one, before `after`; `fuel`
bounds its length. -/
def spellBefore (after : List Char) : Nat → Nat → List Char
  | 0, _ => after
  | _, 0 => after
  | fuel + 1, n + 1 =>
      spellBefore (alphabet.getD (n % alphabet.length) 'a' :: after) fuel (n / alphabet.length)

/-- The `n`th word over the alphabet, counted from one: shorter words first. -/
def spell (n : Nat) : String := String.ofList (spellBefore [] n n)

/-- A table's name without white space, other characters than letters and digits
turned into underscores, cut to ten characters. -/
def sanitize (name : String) : String :=
  let kept := (Text.squeeze name).toList
  String.ofList ((kept.map fun c => if c.isAlphanum then c else '_').take 10)

/-- The name followed by the fewest dollar signs that make it unused; `fuel`
bounds their number. -/
def unused (used : List String) : Nat → String → String
  | 0, name => name
  | fuel + 1, name => if name ∈ used then unused used fuel (name ++ "$") else name

/-- An alias for a table. -/
def table (names : Namespace) (name : String) : String × Namespace :=
  if names.minify then
    (spell (names.issued + 1), { names with issued := names.issued + 1 })
  else
    let aliasName := unused names.usedTables names.usedTables.length (sanitize name)
    (aliasName, { names with usedTables := aliasName :: names.usedTables })

/-- An alias for a column. -/
def column (names : Namespace) (name : String) : String × Namespace :=
  if names.minify then
    match Assoc.get? name names.columns with
    | some aliasName => (aliasName, names)
    | none =>
        let aliasName := spell (names.issued + 1)
        (aliasName,
          { names with
            issued := names.issued + 1
            columns := (name, aliasName) :: names.columns })
  else (name, names)

def generate (names : Namespace) (kind : AliasKind) (name : String) : String × Namespace :=
  match kind with
  | .table => names.table name
  | .column => names.column name

/-- The last of several aliases asked for in a row. -/
def generateTimes (kind : AliasKind) (name : String) :
    Nat → Namespace → Option String × Namespace
  | 0, names => (none, names)
  | 1, names =>
      let (aliasName, names) := names.generate kind name
      (some aliasName, names)
  | times + 1, names => generateTimes kind name times (names.generate kind name).2

end Namespace

end JoinPlan
