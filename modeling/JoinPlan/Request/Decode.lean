import JoinPlan.Json.Record
import JoinPlan.Request.Basic

/-!
# Reading a request

Every selection says which kind it is, and below another selection it may say so
by a number.  The arguments of a field are plain values.  Reading goes as deep as
a text can nest.  Selections are asked for whole, unknown members included.
-/

namespace JoinPlan

open Json

def decodeArguments (value : Json) : Option Arguments :=
  value.canonical.object?

def RequestedField.form : Form := .ofNames ["name", "alias", "arguments", "selections"]

/-- Reads a field's name, arguments and selections; its alias is only checked. -/
def RequestedField.ofFields (selection : Json → Option Selection) (fields : Fields) :
    Option RequestedField := do
  let name ← required string? "name" fields
  let _ ← optional string? "alias" fields
  let args ← defaulted decodeArguments [] "arguments" fields
  let selections ← defaulted (listOf selection) [] "selections" fields
  some { name, args, selections }

inductive SelectionKind
  | field
  | inlineFragment
  | fragmentSpread
deriving DecidableEq, Repr

namespace SelectionKind

def all : List SelectionKind := [.field, .inlineFragment, .fragmentSpread]

def text : SelectionKind → String
  | .field => "Field"
  | .inlineFragment => "InlineFragment"
  | .fragmentSpread => "FragmentSpread"

def named? (value : Json) : Option SelectionKind :=
  value.string?.bind fun name => all.find? fun kind => kind.text == name

/-- A kind by its name, or by its number in the order of kinds. -/
def numbered? (value : Json) : Option SelectionKind :=
  (named? value).or (value.count?.bind fun number => all[number]?)

end SelectionKind

/-- The kind of a selection, and the value that holds its fields. -/
def selectionKind? (kind? : Json → Option SelectionKind) : Json → Option (SelectionKind × Json)
  | .object members =>
      match members.filter fun entry => entry.1 == "kind" with
      | [(_, kind)] => (kind? kind).map fun kind => (kind, .object members)
      | _ => none
  | .array (kind :: items) => (kind? kind).map fun kind => (kind, .array items)
  | _ => none

def Selection.ofKind (selection : Json → Option Selection) (value : Json) :
    SelectionKind → Option Selection
  | .field => do
      let fields ← value.fields? RequestedField.form.names
      let field ← RequestedField.ofFields selection fields
      some (.field field.name field.args field.selections)
  | .inlineFragment => do
      let fields ← value.fields? ["typeCondition", "selections"]
      let condition ← optional string? "typeCondition" fields
      let selections ← required (listOf selection) "selections" fields
      some (.inline condition selections)
  | .fragmentSpread => do
      let fields ← value.fields? ["name"]
      let name ← required string? "name" fields
      some (.spread name)

/-- Reads a selection below another; its own selections nest at most so deep. -/
def Selection.decodeWithin : Nat → Json → Option Selection
  | 0, _ => none
  | levels + 1, value =>
      (selectionKind? SelectionKind.numbered? value).bind fun read =>
        Selection.ofKind (Selection.decodeWithin levels) read.2 read.1

def Selection.decode (value : Json) : Option Selection :=
  (selectionKind? SelectionKind.named? value).bind fun read =>
    Selection.ofKind (Selection.decodeWithin nestingLimit) read.2 read.1

def RequestedField.decode (value : Json) : Option RequestedField :=
  (value.fields? RequestedField.form.names).bind (RequestedField.ofFields Selection.decode)

def Fragment.form : Form := .ofNames ["typeCondition", "selections"]

def Fragment.decode (value : Json) : Option Fragment := do
  let fields ← value.fields? Fragment.form.names
  let condition ← required string? "typeCondition" fields
  let selections ← required (listOf Selection.decode) "selections" fields
  some { condition, selections }

def Request.form : Form :=
  .record
    [("parentType", .whole), ("fieldNodes", .list RequestedField.form),
      ("fragments", .dictionary Fragment.form)]

def Request.decode (value : Json) : Option Request := do
  let known ← value.fields? Request.form.names
  let parentType ← required string? "parentType" known
  let fields ← required (listOf RequestedField.decode) "fieldNodes" known
  let fragments ← defaulted (dictionaryOf Fragment.decode) [] "fragments" known
  some { parentType, fields, fragments }

/-- Reads a request from its text. -/
def Request.parse? (text : String) : Option Request :=
  (Json.readAs? form text).bind decode

end JoinPlan
