import JoinPlan.Assoc
import JoinPlan.Number.Decimal
import JoinPlan.Text.Count

/-!
# JSON values

Arguments, contexts, rows and cursors are JSON.  An object is the list of its
members as they were written; a plain value is `canonical`: the members of every
object are sorted by key, and of members with one key the last stands.  An
integer that fits 64 bits is kept apart from a decimal, because the two are
written differently even when they are equal.
-/

namespace JoinPlan

inductive Number
  | int (value : Int)
  | decimal (value : Decimal)
deriving DecidableEq, Repr

inductive Json
  | null
  | bool (value : Bool)
  | number (value : Number)
  | string (value : String)
  | array (items : List Json)
  | object (members : List (String × Json))
deriving Inhabited

/-- The members of an object. -/
abbrev Object := List (String × Json)

namespace Number

def ofNat (n : Nat) : Number := .int n

/-- The count a number is, when it is one. -/
def count? : Number → Option Nat
  | .int value => if 0 ≤ value ∧ value < countLimit then some value.toNat else none
  | .decimal _ => none

end Number

namespace Json

def ofNat (n : Nat) : Json := .number (.ofNat n)

def isNull : Json → Bool
  | .null => true
  | _ => false

def isObject : Json → Bool
  | .object _ => true
  | _ => false

def object? : Json → Option Object
  | .object members => some members
  | _ => none

def array? : Json → Option (List Json)
  | .array items => some items
  | _ => none

def string? : Json → Option String
  | .string value => some value
  | _ => none

def bool? : Json → Option Bool
  | .bool value => some value
  | _ => none

def count? : Json → Option Nat
  | .number value => value.count?
  | _ => none

/-- The member of an object with this key; `none` for anything but an object. -/
def get? (key : String) : Json → Option Json
  | .object members => Assoc.get? key members
  | _ => none

/-- The member of an object with this key, null when there is none. -/
def getD (key : String) (value : Json) : Json :=
  (value.get? key).getD .null

/-- The same object with its members sorted. -/
def ofMembers (members : Object) : Json :=
  .object (Assoc.sorted members)

mutual

/-- The plain value: the members of every object sorted, the last of each key. -/
def canonical : Json → Json
  | .array items => .array (canonicalItems items)
  | .object members => .object (Assoc.sorted (canonicalMembers members))
  | .null => .null
  | .bool value => .bool value
  | .number value => .number value
  | .string value => .string value

def canonicalItems : List Json → List Json
  | [] => []
  | item :: rest => canonical item :: canonicalItems rest

def canonicalMember : String × Json → String × Json
  | (key, value) => (key, canonical value)

def canonicalMembers : List (String × Json) → List (String × Json)
  | [] => []
  | member :: rest => canonicalMember member :: canonicalMembers rest

end

end Json

end JoinPlan
