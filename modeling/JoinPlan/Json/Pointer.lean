import JoinPlan.Json.Basic
import JoinPlan.Text.Replace

/-!
# Places inside a value

A path to a place inside a value is a list of reference tokens.  In an object a token
is a key; in an array it is an index in decimal, written without leading zeros.  A path
that leads nowhere has no value, and changing its value changes nothing.

A pointer is the text of a path: its tokens, each after a slash, with `~` written as
`~0` and a slash as `~1`.
-/

namespace JoinPlan.Json

abbrev Path := List String

/-- The index a token is. -/
def index? (token : String) : Option Nat :=
  let digits := token.toList
  if digits.isEmpty || !digits.all Char.isDigit then none
  else if digits.head? == some '0' && digits.length != 1 then none
  else some (Text.ofDigits 0 digits)

def indexToken (index : Nat) : String := String.ofList (Nat.toDigits 10 index)

/-- The value one token leads to. -/
def child? (token : String) : Json → Option Json
  | .object members => Assoc.get? token members
  | .array items => (index? token).bind fun index => items[index]?
  | _ => none

/-- The value at a path. -/
def at? (value : Json) : Path → Option Json
  | [] => some value
  | token :: rest => (value.child? token).bind fun child => at? child rest

/-- Puts `child` in the place of the value a token leads to. -/
def setChild (value : Json) (token : String) (child : Json) : Json :=
  match value with
  | .object members => .object (Assoc.put token child members)
  | .array items =>
      match index? token with
      | some index => .array (items.set index child)
      | none => .array items
  | value => value

/-- Changes the value at a path. -/
def modifyAt (value : Json) (change : Json → Json) : Path → Json
  | [] => change value
  | token :: rest =>
      match value.child? token with
      | some child => value.setChild token (modifyAt child change rest)
      | none => value

/-! ### Pointers -/

abbrev Pointer := String

namespace Pointer

def escape (token : String) : String :=
  Text.replace "/" "~1" (Text.replace "~" "~0" token)

def unescape (token : String) : String :=
  Text.replace "~0" "~" (Text.replace "~1" "/" token)

/-- The pointer to the value a token leads to from where a pointer does. -/
def child (pointer : Pointer) (token : String) : Pointer := pointer ++ "/" ++ escape token

/-- The pieces of a text between its slashes. -/
def segments : List Char → List (List Char)
  | [] => [[]]
  | '/' :: rest => [] :: segments rest
  | c :: rest =>
      match segments rest with
      | [] => [[c]]
      | first :: others => (c :: first) :: others

/-- The path a pointer is the text of.  The empty pointer leads to the whole value, and
any other starts with a slash. -/
def path? (pointer : Pointer) : Option Path :=
  match pointer.toList with
  | [] => some []
  | '/' :: rest => some ((segments rest).map fun segment => unescape (String.ofList segment))
  | _ => none

end Pointer

/-- The value a pointer leads to. -/
def resolve? (value : Json) (pointer : Pointer) : Option Json :=
  pointer.path?.bind value.at?

/-- Changes the value a pointer leads to. -/
def modify (value : Json) (change : Json → Json) (pointer : Pointer) : Json :=
  match pointer.path? with
  | some path => value.modifyAt change path
  | none => value

end JoinPlan.Json
