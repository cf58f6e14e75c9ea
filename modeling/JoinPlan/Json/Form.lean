import JoinPlan.Json.Skip

/-!
# Reading by form

A form says which parts of a value are asked for.  A record asks for its fields
only, so the values of other members are passed over; everything that is asked
for is read, and nests at most `nestingLimit` deep.  A form demands nothing: a
value of another shape is read all the same, and refused where it is decoded.
-/

namespace JoinPlan.Json

inductive Form
  /-- Every part of the value. -/
  | whole
  | list (item : Form)
  /-- An object whose keys are free. -/
  | dictionary (entry : Form)
  /-- The fields of a record, in the order in which their values may be listed. -/
  | record (fields : List (String × Form))

namespace Form

/-- A record whose fields are all read whole. -/
def ofNames (names : List String) : Form :=
  .record (names.map fun name => (name, .whole))

/-- The names of a record's fields. -/
def names : Form → List String
  | .record fields => Assoc.keys fields
  | _ => []

/-- The form of the item at an index. -/
def item : Form → Nat → Form
  | .list item, _ => item
  | .record fields, index => (fields[index]?.map Prod.snd).getD .whole
  | _, _ => .whole

/-- The form of the member with this key, unless it is passed over. -/
def member? : Form → String → Option Form
  | .dictionary entry, _ => some entry
  | .record fields, key => Assoc.get? key fields
  | _, _ => some .whole

end Form

/-- How deep arrays and objects may nest. -/
def nestingLimit : Nat := 127

/-- A value of a form with at most so many levels of arrays and objects, after
white space.  A member that is passed over keeps its key and becomes null. -/
def readValue (bound : Nat) : Nat → Form → Reader Json
  | 0, _, text => readScalar bound (skipSpace text)
  | levels + 1, form, text =>
      match skipSpace text with
      | '[' :: rest =>
          (readItems bound (fun index => readValue bound levels (form.item index))
            ']' rest).map fun read => (.array read.1, read.2)
      | '\x7b' :: rest =>
          let member (key : String) : Reader Json :=
            match form.member? key with
            | some form => readValue bound levels form
            | none => fun text => (skipValue bound text).map fun read => (.null, read.2)
          (readItems bound (fun _ => readMember (readString bound) member)
            '\x7d' rest).map fun read => (.object read.1, read.2)
      | rest => readScalar bound rest

/-- Reads a whole text by a form, with at most so many levels. -/
def readWithin (levels : Nat) (form : Form) (text : String) : Option Json :=
  let chars := text.toList
  match readValue (chars.length + 1) levels form chars with
  | some (value, rest) => if (skipSpace rest).isEmpty then some value else none
  | none => none

/-- Reads a whole text by a form, members as they are written. -/
def readAs? (form : Form) (text : String) : Option Json :=
  readWithin nestingLimit form text

/-- Reads a whole text as a plain value. -/
def parse? (text : String) : Option Json :=
  (readAs? .whole text).map canonical

end JoinPlan.Json
