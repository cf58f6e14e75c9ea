import JoinPlan.Json.Reader

/-!
# Passing over values

A value nobody asks for is passed over: its text has to be a JSON value, but the
value is not made.  So a number may be too large, a string may hold half of a
character, and arrays and objects may nest as deep as they like.
-/

namespace JoinPlan.Json

/-- Passes over a string, after its opening quotation mark. -/
def skipString : Reader Unit
  | [] => none
  | '"' :: rest => some ((), rest)
  | '\\' :: 'u' :: a :: b :: c :: d :: rest =>
      if [a, b, c, d].all fun digit => (hexValue? digit).isSome then skipString rest else none
  | '\\' :: c :: rest => if (escapedChar? c).isSome then skipString rest else none
  | c :: rest => if c.toNat < 32 then none else skipString rest

def skipScalar : Reader Unit
  | 'n' :: 'u' :: 'l' :: 'l' :: rest => some ((), rest)
  | 't' :: 'r' :: 'u' :: 'e' :: rest => some ((), rest)
  | 'f' :: 'a' :: 'l' :: 's' :: 'e' :: rest => some ((), rest)
  | '"' :: rest => skipString rest
  | text => (readNumeral text).map fun read => ((), read.2)

/-- Passes over a value with at most so many levels of arrays and objects. -/
def skipWithin (bound : Nat) : Nat → Reader Unit
  | 0, text => skipScalar (skipSpace text)
  | levels + 1, text =>
      match skipSpace text with
      | '[' :: rest =>
          (readItems bound (fun _ => skipWithin bound levels) ']' rest).map fun read =>
            ((), read.2)
      | '\x7b' :: rest =>
          (readItems bound (fun _ => readMember skipString fun _ => skipWithin bound levels)
            '\x7d' rest).map fun read => ((), read.2)
      | rest => skipScalar rest

/-- Passes over a value; in a text shorter than the bound nothing nests deeper. -/
def skipValue (bound : Nat) : Reader Unit := skipWithin bound bound

end JoinPlan.Json
