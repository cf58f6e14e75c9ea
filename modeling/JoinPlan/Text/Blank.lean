/-!
# White space

The characters with the Unicode property `White_Space`: five controls from tab
to carriage return, the space, next line, the no-break and other wide spaces,
and the two separators.  They are trimmed around type names, dropped from table
names when these become aliases, and a condition made of nothing else is no
condition.
-/

namespace JoinPlan.Text

/-- The ranges of code points with the property `White_Space`. -/
def blankRanges : List (Nat × Nat) :=
  [(0x09, 0x0D), (0x20, 0x20), (0x85, 0x85), (0xA0, 0xA0), (0x1680, 0x1680),
    (0x2000, 0x200A), (0x2028, 0x2029), (0x202F, 0x202F), (0x205F, 0x205F), (0x3000, 0x3000)]

def isBlank (c : Char) : Bool :=
  blankRanges.any fun range => range.1 ≤ c.toNat && c.toNat ≤ range.2

/-- The text without the white space at its two ends. -/
def trim (text : List Char) : List Char :=
  ((text.dropWhile isBlank).reverse.dropWhile isBlank).reverse

/-- The text without any white space. -/
def squeeze (text : String) : String :=
  String.ofList (text.toList.filter fun c => !isBlank c)

/-- Whether the text holds nothing but white space. -/
def isBlankText (text : String) : Bool :=
  text.toList.all isBlank

theorem length_trim_le (text : List Char) : (trim text).length ≤ text.length := by
  unfold trim
  have outer := (List.dropWhile_sublist (l := (text.dropWhile isBlank).reverse) isBlank).length_le
  have inner := (List.dropWhile_sublist (l := text) isBlank).length_le
  simp only [List.length_reverse] at outer ⊢
  omega

end JoinPlan.Text
