import JoinPlan.Text.Blank

/-!
# Type references

A field's type is a name, a list of a type, or a type that is never null, written
`Name`, `[type]` and `type!`.  A type is marked at most once, and white space may
stand between the tokens.  Reading peels the text from its two ends: the mark
first, then the brackets.
-/

namespace JoinPlan

inductive TypeRef
  | named (name : String)
  | list (item : TypeRef)
  | nonNull (type : TypeRef)
deriving DecidableEq, Repr

namespace TypeRef

/-- The name inside all lists and marks. -/
def namedType : TypeRef → String
  | .named name => name
  | .list item => item.namedType
  | .nonNull type => type.namedType

/-- The type without its outer mark. -/
def nullable : TypeRef → TypeRef
  | .nonNull type => type
  | type => type

theorem namedType_nullable (type : TypeRef) : type.nullable.namedType = type.namedType := by
  cases type <;> rfl

def isList (type : TypeRef) : Bool :=
  match type.nullable with
  | .list _ => true
  | _ => false

def chars : TypeRef → List Char
  | .named name => name.toList
  | .list item => '[' :: (item.chars ++ [']'])
  | .nonNull type => type.chars ++ ['!']

def text (type : TypeRef) : String := String.ofList type.chars

def isNameChar (c : Char) : Bool := c.isAlphanum || c == '_'

/-- The text before its last character, when that is `c`. -/
def dropLast? (c : Char) (text : List Char) : Option (List Char) :=
  if text.getLast? = some c then some text.dropLast else none

theorem length_of_dropLast? {c : Char} {text inner : List Char}
    (h : dropLast? c text = some inner) : inner.length < text.length := by
  unfold dropLast? at h
  split at h
  · rename_i hlast
    have hne : text ≠ [] := by
      rintro rfl
      simp at hlast
    have hpos := List.length_pos_iff.mpr hne
    simp only [Option.some.injEq] at h
    subst h
    simp only [List.length_dropLast]
    omega
  · simp at h

/-- Reads a type reference; the error is the part of the text that is none. -/
def read (written : List Char) : Except (List Char) TypeRef :=
  match _hmark : dropLast? '!' (Text.trim written) with
  | some inner => do
      match ← read inner with
      | .nonNull _ => .error written
      | type => .ok (.nonNull type)
  | none =>
      match _hopen : Text.trim written with
      | '[' :: rest =>
          match _hclose : dropLast? ']' rest with
          | some inner => do .ok (.list (← read inner))
          | none => .error written
      | name =>
          if name.isEmpty || !name.all isNameChar then .error written
          else .ok (.named (String.ofList name))
termination_by written.length
decreasing_by
  · have hshort := length_of_dropLast? _hmark
    have htrim := Text.length_trim_le written
    omega
  · have hshort := length_of_dropLast? _hclose
    have htrim := Text.length_trim_le written
    rw [_hopen, List.length_cons] at htrim
    omega

/-- Reads a type reference; the error is the part of the text that is none. -/
def parse (text : String) : Except String TypeRef :=
  match read text.toList with
  | .ok type => .ok type
  | .error part => .error (String.ofList part)

end TypeRef

end JoinPlan
