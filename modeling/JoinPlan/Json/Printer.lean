import JoinPlan.Json.Basic

/-!
# JSON text

The compact text has no white space and is the text of cursors, literals,
grouping keys and messages.  The indented text, two spaces a level, is that of a
configuration file.  Inside strings only the quotation mark, the backslash and
the control characters below the space are escaped; everything else is written
as it is.
-/

namespace JoinPlan.Json

def hexDigit (n : Nat) : Char :=
  if n < 10 then Char.ofNat ('0'.toNat + n) else Char.ofNat ('a'.toNat + n - 10)

def escapeChar (c : Char) : List Char :=
  if c = '"' then ['\\', '"']
  else if c = '\\' then ['\\', '\\']
  else if c = '\x08' then ['\\', 'b']
  else if c = '\t' then ['\\', 't']
  else if c = '\n' then ['\\', 'n']
  else if c = '\x0c' then ['\\', 'f']
  else if c = '\r' then ['\\', 'r']
  else if c.toNat < 32 then
    ['\\', 'u', '0', '0', hexDigit (c.toNat / 16), hexDigit (c.toNat % 16)]
  else [c]

def quoted (text : String) : List Char :=
  '"' :: (text.toList.flatMap escapeChar ++ ['"'])

def intText : Int → List Char
  | .ofNat n => Nat.toDigits 10 n
  | .negSucc n => '-' :: Nat.toDigits 10 (n + 1)

def numberText : Number → List Char
  | .int value => intText value
  | .decimal value => value.text

mutual

/-- The compact text of a value. -/
def compact : Json → List Char
  | .null => "null".toList
  | .bool true => "true".toList
  | .bool false => "false".toList
  | .number value => numberText value
  | .string value => quoted value
  | .array items => '[' :: (compactItems items ++ [']'])
  | .object members => '\x7b' :: (compactMembers members ++ ['\x7d'])

def compactItems : List Json → List Char
  | [] => []
  | [item] => compact item
  | item :: rest => compact item ++ ',' :: compactItems rest

def compactMember : String × Json → List Char
  | (key, value) => quoted key ++ ':' :: compact value

def compactMembers : List (String × Json) → List Char
  | [] => []
  | [member] => compactMember member
  | member :: rest => compactMember member ++ ',' :: compactMembers rest

end

/-- The text of a value, without white space. -/
def text (value : Json) : String :=
  String.ofList (compact value)

/-- A line break and the indentation of a nesting level. -/
def newline (level : Nat) : List Char :=
  '\n' :: List.replicate (2 * level) ' '

mutual

/-- The indented text of a value at a nesting level. -/
def indented (level : Nat) : Json → List Char
  | .array [] => "[]".toList
  | .array items =>
      '[' :: (newline (level + 1) ++ indentedItems level items ++ newline level ++ [']'])
  | .object [] => ['\x7b', '\x7d']
  | .object members =>
      '\x7b' :: (newline (level + 1) ++ indentedMembers level members ++ newline level ++
        ['\x7d'])
  | .null => "null".toList
  | .bool true => "true".toList
  | .bool false => "false".toList
  | .number value => numberText value
  | .string value => quoted value

def indentedItems (level : Nat) : List Json → List Char
  | [] => []
  | [item] => indented (level + 1) item
  | item :: rest =>
      indented (level + 1) item ++ ',' :: (newline (level + 1) ++ indentedItems level rest)

def indentedMember (level : Nat) : String × Json → List Char
  | (key, value) => quoted key ++ ':' :: ' ' :: indented (level + 1) value

def indentedMembers (level : Nat) : List (String × Json) → List Char
  | [] => []
  | [member] => indentedMember level member
  | member :: rest =>
      indentedMember level member ++ ',' :: (newline (level + 1) ++ indentedMembers level rest)

end

/-- The text of a value, one item or member a line. -/
def indentedText (value : Json) : String :=
  String.ofList (indented 0 value)

end JoinPlan.Json
