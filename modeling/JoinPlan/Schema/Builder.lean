import JoinPlan.Json.Basic
import JoinPlan.Text.Blank
import JoinPlan.Text.Replace

/-!
# Options that depend on the request

An option is given literally or computed from a field's arguments and the
request's context.  A fragment of SQL is given as a template, in which
placeholders stand for the quoted aliases of the tables involved, or is built by
a function of these aliases, the arguments and the context.  Placeholders are
replaced one after the other.
-/

namespace JoinPlan

/-- The arguments of a selected field. -/
abbrev Arguments := Object

/-- What the caller hands to every computed option. -/
abbrev Context := Json

/-- An option's value, or how it is computed. -/
inductive Computed (α : Type)
  | literal (value : α)
  | computed (compute : Arguments → Context → α)

def Computed.resolve {α : Type} (args : Arguments) (context : Context) : Computed α → α
  | .literal value => value
  | .computed compute => compute args context

/-- A fragment's template, or the function that builds it. -/
inductive Builder (F : Type)
  | template (text : String)
  | computed (build : F)

/-- Builds a join condition from the quoted parent and child aliases. -/
abbrev JoinCondition := Builder (String → String → Arguments → Context → String)

/-- Builds a condition on the rows of a table from its quoted alias, or nothing. -/
abbrev RowCondition := Builder (String → Arguments → Context → Option String)

/-- Builds a fragment from the quoted alias of a table. -/
abbrev TableFragment := Builder (String → Arguments → Context → String)

namespace Builder

def parentPlaceholder : String := "\x7bparent\x7d"
def childPlaceholder : String := "\x7bchild\x7d"
def tablePlaceholder : String := "\x7btable\x7d"

def joinText (template parent child : String) : String :=
  Text.replace childPlaceholder child (Text.replace parentPlaceholder parent template)

def tableText (template table : String) : String :=
  Text.replace tablePlaceholder table template

def join (condition : JoinCondition) (parent child : String) (args : Arguments)
    (context : Context) : String :=
  match condition with
  | .template text => joinText text parent child
  | .computed build => build parent child args context

/-- The condition, unless it is blank. -/
def condition? (condition : RowCondition) (table : String) (args : Arguments)
    (context : Context) : Option String :=
  let built :=
    match condition with
    | .template text => some (tableText text table)
    | .computed build => build table args context
  built.filter fun text => !Text.isBlankText text

def fragment (fragment : TableFragment) (table : String) (args : Arguments)
    (context : Context) : String :=
  match fragment with
  | .template text => tableText text table
  | .computed build => build table args context

end Builder

end JoinPlan
