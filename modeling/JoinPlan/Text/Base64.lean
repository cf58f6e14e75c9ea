/-!
# Base64

The standard alphabet with padding.  Three bytes are written as four symbols;
a last group of one or two bytes is filled up with `=`.  Reading accepts exactly
what writing produces: the padding is required and the bits it leaves unused
are zero, so every byte string has one text.
-/

namespace JoinPlan.Text.Base64

def alphabet : List Char :=
  "ABCDEFGHIJKLMNOPQRSTUVWXYZabcdefghijklmnopqrstuvwxyz0123456789+/".toList

/-- The symbol of a number below 64. -/
def symbol (n : Nat) : Char :=
  alphabet.getD n '='

/-- The number a symbol stands for. -/
def symbolValue? (c : Char) : Option Nat :=
  if 'A' ≤ c ∧ c ≤ 'Z' then some (c.toNat - 'A'.toNat)
  else if 'a' ≤ c ∧ c ≤ 'z' then some (c.toNat - 'a'.toNat + 26)
  else if '0' ≤ c ∧ c ≤ '9' then some (c.toNat - '0'.toNat + 52)
  else if c = '+' then some 62
  else if c = '/' then some 63
  else none

/-- Writes bytes, each a number below 256. -/
def encode : List Nat → List Char
  | [] => []
  | [a] => [symbol (a / 4), symbol (a % 4 * 16), '=', '=']
  | [a, b] => [symbol (a / 4), symbol (a % 4 * 16 + b / 16), symbol (b % 16 * 4), '=']
  | a :: b :: c :: rest =>
      symbol (a / 4) :: symbol (a % 4 * 16 + b / 16) :: symbol (b % 16 * 4 + c / 64) ::
        symbol (c % 64) :: encode rest

/-- Reads a last group, which may be padded. -/
def decodeLast (a b c d : Char) : Option (List Nat) := do
  let w ← symbolValue? a
  let x ← symbolValue? b
  if c = '=' then
    if d = '=' ∧ x % 16 = 0 then some [w * 4 + x / 16] else none
  else
    let y ← symbolValue? c
    if d = '=' then
      if y % 4 = 0 then some [w * 4 + x / 16, x % 16 * 16 + y / 4] else none
    else
      let z ← symbolValue? d
      some [w * 4 + x / 16, x % 16 * 16 + y / 4, y % 4 * 64 + z]

/-- Reads a group that others follow, which is never padded. -/
def decodeGroup (a b c d : Char) : Option (List Nat) := do
  let w ← symbolValue? a
  let x ← symbolValue? b
  let y ← symbolValue? c
  let z ← symbolValue? d
  some [w * 4 + x / 16, x % 16 * 16 + y / 4, y % 4 * 64 + z]

/-- Reads the bytes back; `none` for a text that writing never produces. -/
def decode : List Char → Option (List Nat)
  | [] => some []
  | [a, b, c, d] => decodeLast a b c d
  | a :: b :: c :: d :: rest => do
      let group ← decodeGroup a b c d
      let others ← decode rest
      some (group ++ others)
  | _ => none

/-- The base64 text of a text's UTF-8 bytes. -/
def encodeText (text : String) : String :=
  String.ofList (encode (text.toUTF8.data.toList.map UInt8.toNat))

/-- The text whose UTF-8 bytes a base64 text holds. -/
def decodeText? (text : String) : Option String := do
  let bytes ← decode text.toList
  String.fromUTF8? ⟨(bytes.map UInt8.ofNat).toArray⟩

end JoinPlan.Text.Base64
