import JoinPlan.Sql.Dialect
import Mathlib.Data.List.Forall2
import Mathlib.Tactic.SplitIfs

/-!
# The tokens of SQL

How a database of each dialect splits a text into quoted names, quoted texts, numbers,
words and marks.  Inside quotes the quote character is written twice to stand for
itself; a backslash escapes in the texts of MySQL and in those that PostgreSQL marks
with an E.  Comments, and the quoting forms no statement here is written with, are not
read at all.  A text that is read as tokens is read as the same tokens in front of a
space, a comma or a closing parenthesis.
-/

namespace JoinPlan.Sql

inductive Token
  /-- A quoted name. -/
  | name (name : String)
  /-- A quoted text. -/
  | text (text : String)
  /-- A number without its sign. -/
  | number (numeral : String)
  /-- A keyword or a name without quotes, in capitals, since case makes no difference. -/
  | word (capitals : String)
  | mark (mark : String)
deriving DecidableEq, Repr

def isGap (c : Char) : Bool :=
  c = ' ' || c = '\n' || c = '\t' || c = '\r' || c = '\x0b' || c = '\x0c'

/-! ### Quotations -/

/-- How a text is quoted. -/
structure Quotation where
  quote : Char
  /-- What a character after a backslash stands for, where a backslash escapes. -/
  unescape? : Option (Char → Option (List Char))

namespace Quotation

/-- What a character after `c` stands for, if `c` is a backslash that escapes it. -/
def escape? (kind : Quotation) (c : Char) : Option (Char → Option (List Char)) :=
  if c = '\\' then kind.unescape? else none

/-- What was read, with characters before it. -/
def onto (chars : List Char) (read : Option (List Char × List Char)) :
    Option (List Char × List Char) :=
  read.map fun read => (chars ++ read.1, read.2)

/-- The characters up to the closing quote, and what follows it. -/
def read (kind : Quotation) : List Char → Option (List Char × List Char)
  | [] => none
  | [c] => if c = kind.quote then some ([], []) else none
  | c :: d :: rest =>
      if c = kind.quote then
        if d = kind.quote then onto [c] (kind.read rest) else some ([], d :: rest)
      else
        match kind.escape? c with
        | none => onto [c] (kind.read (d :: rest))
        | some unescape => (unescape d).bind fun chars => onto chars (kind.read rest)

end Quotation

/-- What MySQL reads for a character after a backslash; before the wildcards of LIKE the
backslash stays. -/
def unescapeMysql (c : Char) : Option (List Char) :=
  match c with
  | '0' => some ['\x00']
  | 'b' => some ['\x08']
  | 'n' => some ['\n']
  | 'r' => some ['\r']
  | 't' => some ['\t']
  | 'Z' => some ['\x1a']
  | '%' => some ['\\', '%']
  | '_' => some ['\\', '_']
  | c => some [c]

/-- What PostgreSQL reads for a character after a backslash.  Characters by their number
are not read. -/
def unescapePostgres (c : Char) : Option (List Char) :=
  match c with
  | 'b' => some ['\x08']
  | 'f' => some ['\x0c']
  | 'n' => some ['\n']
  | 'r' => some ['\r']
  | 't' => some ['\t']
  | c => if c.isDigit || c = 'x' || c = 'u' || c = 'U' then none else some [c]

def nameQuotation (dialect : Dialect) : Quotation := ⟨dialect.nameQuote, none⟩

def textQuotation : Dialect → Quotation
  | .postgres | .sqlite => ⟨'\'', none⟩
  | .mysql => ⟨'\'', some unescapeMysql⟩

/-- The texts that PostgreSQL marks with an E. -/
def escapeQuotation : Quotation := ⟨'\'', some unescapePostgres⟩

/-! ### Tokens -/

def startsWord (c : Char) : Bool := c.isAlpha || c = '_' || 128 ≤ c.toNat

def inWord (c : Char) : Bool := startsWord c || c.isDigit || c = '$'

/-- What goes on a number: digits, a point, letters, and the sign of an exponent. -/
def spanNumeral (signed : Bool) : List Char → List Char × List Char
  | [] => ([], [])
  | c :: rest =>
      if inWord c || c = '.' || (signed && (c = '+' || c = '-')) then
        let (numeral, after) := spanNumeral (c = 'e' || c = 'E') rest
        (c :: numeral, after)
      else ([], c :: rest)

def isMark (dialect : Dialect) (c : Char) : Bool :=
  ".,()=<>+-*/%|!&^~:?@".toList.contains c || (dialect = .postgres && (c = '[' || c = ']'))

/-- The marks of two characters. -/
def markPairs : List (Char × Char) :=
  [('|', '|'), ('&', '&'), ('<', '='), ('>', '='), ('<', '>'), ('!', '='), (':', ':'), (':', '=')]

/-- The beginnings of comments. -/
def commentPairs : List (Char × Char) := [('-', '-'), ('/', '*')]

def readMark (c : Char) : List Char → Option (Token × List Char)
  | [] => some (.mark (String.ofList [c]), [])
  | d :: rest =>
      if (c, d) ∈ commentPairs then none
      else if (c, d) ∈ markPairs then some (.mark (String.ofList [c, d]), rest)
      else some (.mark (String.ofList [c]), d :: rest)

def readQuotation (token : String → Token) (kind : Quotation) (rest : List Char) :
    Option (Token × List Char) :=
  (kind.read rest).map fun read => (token (String.ofList read.1), read.2)

def readNumeral (c : Char) (rest : List Char) : Token × List Char :=
  let (numeral, after) := spanNumeral false rest
  (.number (String.ofList (c :: numeral)), after)

def readWord (c : Char) (rest : List Char) : Token × List Char :=
  (.word (String.ofList ((c :: rest.takeWhile inWord).map Char.toUpper)), rest.dropWhile inWord)

/-- Whether a character marks the text quoted after it as one with escapes. -/
def marksEscapes (dialect : Dialect) (c : Char) (rest : List Char) : Bool :=
  dialect = .postgres && (c = 'E' || c = 'e') && rest.head? = some '\''

/-- The token that starts with a character, and what follows it. -/
def readToken (dialect : Dialect) (c : Char) (rest : List Char) : Option (Token × List Char) :=
  if c = dialect.nameQuote then readQuotation .name (nameQuotation dialect) rest
  else if c = '\'' then readQuotation .text (textQuotation dialect) rest
  else if marksEscapes dialect c rest then readQuotation .text escapeQuotation rest.tail
  else if c.isDigit then some (readNumeral c rest)
  else if startsWord c then some (readWord c rest)
  else if isMark dialect c then readMark c rest
  else none

/-- The tokens of a text shorter than the bound. -/
def tokensWithin (dialect : Dialect) : Nat → List Char → Option (List Token)
  | 0, _ => none
  | _ + 1, [] => some []
  | bound + 1, c :: rest =>
      if isGap c then tokensWithin dialect bound rest
      else do
        let (token, after) ← readToken dialect c rest
        let others ← tokensWithin dialect bound after
        some (token :: others)

def tokens (dialect : Dialect) (text : List Char) : Option (List Token) :=
  tokensWithin dialect (text.length + 1) text

/-- The first token of a text, and what follows it. -/
def nextToken (dialect : Dialect) (text : List Char) : Option (Token × List Char) :=
  match text.dropWhile isGap with
  | [] => none
  | c :: rest => readToken dialect c rest

/-- A text is read as tokens, from left to right. -/
inductive Lexed (dialect : Dialect) : List Char → List Token → Prop
  | done : Lexed dialect [] []
  | gap {c : Char} {rest : List Char} {list : List Token} (hgap : isGap c = true)
      (hrest : Lexed dialect rest list) : Lexed dialect (c :: rest) list
  | next {c : Char} {rest after : List Char} {token : Token} {list : List Token}
      (hread : readToken dialect c rest = some (token, after))
      (hrest : Lexed dialect after list) : Lexed dialect (c :: rest) (token :: list)

/-! ### What follows a token -/

/-- What may follow any token: the end, a space, a comma or a closing parenthesis. -/
def Ends (more : List Char) : Prop :=
  ∀ c, more.head? = some c → c = ' ' ∨ c = ',' ∨ c = ')'

theorem ends_cons {c : Char} {rest : List Char} :
    Ends (c :: rest) ↔ c = ' ' ∨ c = ',' ∨ c = ')' := by
  simp [Ends]

/-- A reader takes some of a text from its front, whatever may follow the text. -/
structure Takes {A : Type} (read : List Char → Option (A × List Char)) : Prop where
  length_le : ∀ {text after : List Char} {found : A}, read text = some (found, after) →
    after.length ≤ text.length
  append : ∀ {text after more : List Char} {found : A}, read text = some (found, after) →
    Ends more → read (text ++ more) = some (found, after ++ more)

theorem exists_of_onto {front chars after : List Char} {read : Option (List Char × List Char)}
    (h : Quotation.onto front read = some (chars, after)) :
    ∃ others, read = some (others, after) ∧ chars = front ++ others := by
  obtain ⟨read, rfl, heq⟩ := Option.map_eq_some_iff.mp h
  obtain ⟨rfl, rfl⟩ := Prod.mk.inj heq
  exact ⟨read.1, rfl, rfl⟩

theorem length_read_le {kind : Quotation} {text chars after : List Char}
    (h : kind.read text = some (chars, after)) : after.length ≤ text.length := by
  fun_induction Quotation.read kind text generalizing chars after with
  | case1 => simp at h
  | case2 => grind
  | case3 => simp at h
  | case4 rest ih =>
      obtain ⟨others, hread, -⟩ := exists_of_onto h
      have := ih hread
      simp only [List.length_cons]
      omega
  | case5 => grind
  | case6 c d rest _ _ ih =>
      obtain ⟨others, hread, -⟩ := exists_of_onto h
      have := ih hread
      simp only [List.length_cons] at this ⊢
      omega
  | case7 c d rest _ unescape _ ih =>
      obtain ⟨front, -, honto⟩ := Option.bind_eq_some_iff.mp h
      obtain ⟨others, hread, -⟩ := exists_of_onto honto
      have := ih hread
      simp only [List.length_cons]
      omega

theorem read_append {kind : Quotation} {text chars after more : List Char}
    (h : kind.read text = some (chars, after)) (hmore : more.head? ≠ some kind.quote) :
    kind.read (text ++ more) = some (chars, after ++ more) := by
  fun_induction Quotation.read kind text generalizing chars after with
  | case1 => simp at h
  | case2 =>
      obtain ⟨rfl, rfl⟩ := Prod.mk.inj (Option.some.inj h)
      cases more with
      | nil => simp [Quotation.read]
      | cons d rest =>
          have hd : d ≠ kind.quote := by simpa using hmore
          simp [Quotation.read, hd]
  | case3 => simp at h
  | case4 rest ih =>
      obtain ⟨others, hread, rfl⟩ := exists_of_onto h
      simp [Quotation.read, Quotation.onto, ih hread]
  | case5 d rest hd =>
      obtain ⟨rfl, rfl⟩ := Prod.mk.inj (Option.some.inj h)
      simp [Quotation.read, hd]
  | case6 c d rest hc hescape ih =>
      obtain ⟨others, hread, rfl⟩ := exists_of_onto h
      have hrest := ih hread
      rw [List.cons_append] at hrest
      simp [Quotation.read, Quotation.onto, hc, hescape, hrest]
  | case7 c d rest hc unescape hescape ih =>
      obtain ⟨front, hfront, honto⟩ := Option.bind_eq_some_iff.mp h
      obtain ⟨others, hread, rfl⟩ := exists_of_onto honto
      simp [Quotation.read, Quotation.onto, hc, hescape, hfront, ih hread]

theorem takes_readQuotation (make : String → Token) {kind : Quotation}
    (hquote : kind.quote ≠ ' ' ∧ kind.quote ≠ ',' ∧ kind.quote ≠ ')') :
    Takes (readQuotation make kind) where
  length_le h := by
    obtain ⟨read, hread, heq⟩ := Option.map_eq_some_iff.mp h
    obtain ⟨-, rfl⟩ := Prod.mk.inj heq
    exact length_read_le hread
  append h hmore := by
    obtain ⟨read, hread, heq⟩ := Option.map_eq_some_iff.mp h
    obtain ⟨rfl, rfl⟩ := Prod.mk.inj heq
    rw [readQuotation, read_append hread]
    · rfl
    · intro hhead
      rcases hmore _ hhead with hc | hc | hc
      · exact hquote.1 hc
      · exact hquote.2.1 hc
      · exact hquote.2.2 hc

theorem length_spanNumeral_le (signed : Bool) (text : List Char) :
    (spanNumeral signed text).2.length ≤ text.length := by
  fun_induction spanNumeral signed text <;> grind

theorem spanNumeral_append (signed : Bool) (text : List Char) {more : List Char}
    (hmore : Ends more) : spanNumeral signed (text ++ more) =
      ((spanNumeral signed text).1, (spanNumeral signed text).2 ++ more) := by
  induction text generalizing signed with
  | nil =>
      cases more with
      | nil => rfl
      | cons c rest => rcases ends_cons.mp hmore with rfl | rfl | rfl <;> cases signed <;> rfl
  | cons c rest ih =>
      simp only [List.cons_append, spanNumeral, ih]
      split <;> rfl

theorem takes_readNumeral (c : Char) : Takes fun rest => some (readNumeral c rest) where
  length_le h := by
    obtain ⟨-, rfl⟩ := Prod.mk.inj (Option.some.inj h)
    exact length_spanNumeral_le false _
  append h hmore := by
    obtain ⟨rfl, rfl⟩ := Prod.mk.inj (Option.some.inj h)
    rw [readNumeral, spanNumeral_append false _ hmore]

theorem span_inWord_append (text : List Char) {more : List Char} (hmore : Ends more) :
    (text ++ more).takeWhile inWord = text.takeWhile inWord ∧
      (text ++ more).dropWhile inWord = text.dropWhile inWord ++ more := by
  induction text with
  | nil =>
      cases more with
      | nil => exact ⟨rfl, rfl⟩
      | cons c rest => rcases ends_cons.mp hmore with rfl | rfl | rfl <;> exact ⟨rfl, rfl⟩
  | cons c rest ih => by_cases hc : inWord c <;> simp [hc, ih]

theorem takes_readWord (c : Char) : Takes fun rest => some (readWord c rest) where
  length_le h := by
    obtain ⟨-, rfl⟩ := Prod.mk.inj (Option.some.inj h)
    exact (List.dropWhile_suffix inWord).length_le
  append {text _ _ _} h hmore := by
    obtain ⟨rfl, rfl⟩ := Prod.mk.inj (Option.some.inj h)
    obtain ⟨htake, hdrop⟩ := span_inWord_append text hmore
    rw [readWord, htake, hdrop]

theorem takes_readMark (c : Char) : Takes (readMark c) where
  length_le {text after found} h := by
    cases text with
    | nil => grind [readMark]
    | cons d rest => grind [readMark]
  append {text after more found} h hmore := by
    cases text with
    | nil =>
        obtain ⟨rfl, rfl⟩ := Prod.mk.inj (Option.some.inj h)
        cases more with
        | nil => rfl
        | cons d rest =>
            rcases ends_cons.mp hmore with rfl | rfl | rfl <;>
              simp [readMark, commentPairs, markPairs]
    | cons d rest => grind [readMark]

theorem marksEscapes_append (dialect : Dialect) (c : Char) (rest : List Char) {more : List Char}
    (hmore : Ends more) : marksEscapes dialect c (rest ++ more) = marksEscapes dialect c rest := by
  cases rest with
  | nil =>
      cases more with
      | nil => rfl
      | cons d rest => rcases ends_cons.mp hmore with rfl | rfl | rfl <;> simp [marksEscapes]
  | cons d rest => rfl

theorem takes_readToken (dialect : Dialect) (c : Char) : Takes (readToken dialect c) where
  length_le h := by
    unfold readToken at h
    split_ifs at h
    · exact (takes_readQuotation _ (by cases dialect <;> decide)).length_le h
    · exact (takes_readQuotation _ (by cases dialect <;> decide)).length_le h
    · have := (takes_readQuotation _ (by decide)).length_le h
      rw [List.length_tail] at this
      omega
    · exact (takes_readNumeral c).length_le h
    · exact (takes_readWord c).length_le h
    · exact (takes_readMark c).length_le h
  append {text after more found} h hmore := by
    unfold readToken at h ⊢
    rw [marksEscapes_append dialect c text hmore]
    split_ifs at h ⊢ with hname htext hescapes
    · exact (takes_readQuotation _ (by cases dialect <;> decide)).append h hmore
    · exact (takes_readQuotation _ (by cases dialect <;> decide)).append h hmore
    · have hne : text ≠ [] := by
        rintro rfl
        simp [marksEscapes] at hescapes
      rw [List.tail_append_of_ne_nil hne]
      exact (takes_readQuotation _ (by decide)).append h hmore
    · exact (takes_readNumeral c).append h hmore
    · exact (takes_readWord c).append h hmore
    · exact (takes_readMark c).append h hmore

/-! ### Tokens one after the other -/

variable {dialect : Dialect}

theorem isGap_eq_false {c : Char} {rest after : List Char} {token : Token}
    (h : readToken dialect c rest = some (token, after)) : isGap c = false := by
  apply Bool.eq_false_iff.mpr
  intro hgap
  simp only [isGap, Bool.or_eq_true, decide_eq_true_eq] at hgap
  rcases hgap with ((((rfl | rfl) | rfl) | rfl) | rfl) | rfl <;> cases dialect <;>
    simp [readToken, Dialect.nameQuote, marksEscapes, startsWord, isMark] at h

theorem lexed_of_tokensWithin {bound : Nat} {text : List Char} {list : List Token}
    (h : tokensWithin dialect bound text = some list) : Lexed dialect text list := by
  fun_induction tokensWithin dialect bound text generalizing list with
  | case1 => simp at h
  | case2 =>
      obtain rfl := Option.some.inj h
      exact .done
  | case3 bound c rest hgap ih => exact .gap hgap (ih h)
  | case4 bound c rest _ ih =>
      obtain ⟨⟨token, after⟩, hread, hrest⟩ := Option.bind_eq_some_iff.mp h
      obtain ⟨others, hothers, hlist⟩ := Option.bind_eq_some_iff.mp hrest
      obtain rfl := Option.some.inj hlist
      exact .next hread (ih after hothers)

theorem Lexed.tokensWithin {text : List Char} {list : List Token} (h : Lexed dialect text list)
    {bound : Nat} (hbound : text.length < bound) : tokensWithin dialect bound text = some list := by
  induction h generalizing bound with
  | done =>
      obtain ⟨bound, rfl⟩ := Nat.exists_eq_add_of_lt hbound
      rfl
  | @gap c rest list hgap _ ih =>
      obtain ⟨bound, rfl⟩ := Nat.exists_eq_add_one_of_ne_zero (Nat.ne_zero_of_lt hbound)
      rw [Sql.tokensWithin, if_pos hgap]
      exact ih (by simpa using hbound)
  | @next c rest after token list hread _ ih =>
      obtain ⟨bound, rfl⟩ := Nat.exists_eq_add_one_of_ne_zero (Nat.ne_zero_of_lt hbound)
      have hlength := (takes_readToken dialect c).length_le hread
      rw [List.length_cons] at hbound
      have hafter := @ih bound (by omega)
      simp [Sql.tokensWithin, isGap_eq_false hread, hread, hafter]

theorem tokens_eq_some_iff {text : List Char} {list : List Token} :
    tokens dialect text = some list ↔ Lexed dialect text list :=
  ⟨lexed_of_tokensWithin, fun h => h.tokensWithin (Nat.lt_succ_self _)⟩

theorem nextToken_gap {c : Char} (rest : List Char) (hc : isGap c = true) :
    nextToken dialect (c :: rest) = nextToken dialect rest := by
  rw [nextToken, nextToken, List.dropWhile_cons_of_pos hc]

theorem nextToken_cons {c : Char} {rest after : List Char} {token : Token}
    (h : readToken dialect c rest = some (token, after)) :
    nextToken dialect (c :: rest) = some (token, after) := by
  rw [nextToken, List.dropWhile_cons_of_neg (by simp [isGap_eq_false h])]
  exact h

theorem Lexed.of_nextToken {text after : List Char} {token : Token} {list : List Token}
    (h : nextToken dialect text = some (token, after)) (hrest : Lexed dialect after list) :
    Lexed dialect text (token :: list) := by
  induction text with
  | nil => simp [nextToken] at h
  | cons c rest ih =>
      by_cases hc : isGap c = true
      · rw [nextToken_gap rest hc] at h
        exact .gap hc (ih h)
      · rw [nextToken, List.dropWhile_cons_of_neg hc] at h
        exact .next h hrest

/-- Two texts are read one after the other if the second starts where any token ends. -/
theorem Lexed.append {text more : List Char} {list others : List Token}
    (h : Lexed dialect text list) (hmore : Lexed dialect more others) (hends : Ends more) :
    Lexed dialect (text ++ more) (list ++ others) := by
  induction h with
  | done => exact hmore
  | gap hgap _ ih => exact .gap hgap ih
  | next hread _ ih => exact .next ((takes_readToken _ _).append hread hends) ih

/-- The marks that never go together with what follows them. -/
def loneMarks : List Char := ['.', ',', '(', ')', '=']

theorem Lexed.mark {c : Char} {rest : List Char} {list : List Token} (hc : c ∈ loneMarks)
    (hrest : Lexed dialect rest list) :
    Lexed dialect (c :: rest) (.mark (String.ofList [c]) :: list) := by
  refine .next ?_ hrest
  simp only [loneMarks, List.mem_cons, List.not_mem_nil, or_false] at hc
  rcases hc with rfl | rfl | rfl | rfl | rfl <;> cases dialect <;> cases rest <;>
    simp [readToken, Dialect.nameQuote, marksEscapes, startsWord, isMark, readMark, commentPairs,
      markPairs]

theorem isDigit_of_isAlpha {c : Char} (hc : c.isAlpha = true) : c.isDigit = false := by
  delta Char.isAlpha Char.isUpper Char.isLower at hc
  simp only [Char.isDigit, Bool.or_eq_true, Bool.and_eq_true, Bool.and_eq_false_iff,
    decide_eq_true_eq, decide_eq_false_iff_not, ge_iff_le, UInt32.le_iff_toNat_le] at hc ⊢
  have hnine : '9'.val.toNat < 'A'.val.toNat ∧ '9'.val.toNat < 'a'.val.toNat := by decide
  omega

/-- Letters are a word up to a character that goes on no word and starts no text. -/
theorem readToken_word {c d : Char} {letters rest : List Char} (hc : c.isAlpha = true)
    (hletters : ∀ c ∈ letters, c.isAlpha = true) (hend : inWord d = false ∧ d ≠ '\'') :
    readToken dialect c (letters ++ d :: rest) =
      some (.word (String.ofList ((c :: letters).map Char.toUpper)), d :: rest) := by
  have hne {d : Char} (hd : d.isAlpha = false) {c : Char} (hc : c.isAlpha = true) : c ≠ d := by
    rintro rfl
    exact absurd hc (by simp [hd])
  have hname : c ≠ dialect.nameQuote := hne (by cases dialect <;> rfl) hc
  have hescapes : marksEscapes dialect c (letters ++ d :: rest) = false := by
    cases letters with
    | nil => simp [marksEscapes, hend.2]
    | cons e letters =>
        have he := hne (show Char.isAlpha '\'' = false from rfl) (hletters e List.mem_cons_self)
        simp [marksEscapes, he]
  have hword : ∀ d ∈ letters, inWord d = true := by
    intro d hd
    simp [inWord, startsWord, hletters d hd]
  simp [readToken, hname, hne (show Char.isAlpha '\'' = false from rfl) hc, hescapes,
    isDigit_of_isAlpha hc, startsWord, hc, readWord, List.takeWhile_append_of_pos hword,
    List.dropWhile_append_of_pos hword, hend.1]

/-- A word of letters between spaces. -/
theorem Lexed.word {letters rest : List Char} {list : List Token} (hletters : letters ≠ [])
    (halpha : letters.all Char.isAlpha = true) (hrest : Lexed dialect rest list) :
    Lexed dialect (' ' :: (letters ++ ' ' :: rest))
      (.word (String.ofList (letters.map Char.toUpper)) :: list) := by
  obtain ⟨c, letters, rfl⟩ := List.exists_cons_of_ne_nil hletters
  obtain ⟨hc, hmore⟩ := List.forall_mem_cons.mp (List.all_eq_true.mp halpha)
  exact .gap rfl (.next (readToken_word hc hmore (by decide)) (.gap rfl hrest))

theorem Lexed.and {rest : List Char} {list : List Token} (hrest : Lexed dialect rest list) :
    Lexed dialect (" AND ".toList ++ rest) (.word "AND" :: list) :=
  .word (by decide : "AND".toList ≠ []) (by decide) hrest

theorem Lexed.or {rest : List Char} {list : List Token} (hrest : Lexed dialect rest list) :
    Lexed dialect (" OR ".toList ++ rest) (.word "OR" :: list) :=
  .word (by decide : "OR".toList ≠ []) (by decide) hrest

/-- Texts with a separator between them are read one after the other. -/
theorem Lexed.intercalate {separator : List Char} {between : List Token}
    (hseparator : ∀ {rest : List Char} {list : List Token}, Lexed dialect rest list →
      Lexed dialect (separator ++ rest) (between ++ list))
    (hends : ∀ rest, Ends (separator ++ rest)) {texts : List (List Char)}
    {lists : List (List Token)} (h : List.Forall₂ (Lexed dialect) texts lists) :
    Lexed dialect (separator.intercalate texts) (between.intercalate lists) := by
  induction h with
  | nil => exact .done
  | @cons text list texts lists hfirst hrest ih =>
      cases hrest with
      | nil => simpa using hfirst
      | cons =>
          rw [List.intercalate_cons_cons, List.intercalate_cons_cons, List.append_assoc,
            List.append_assoc]
          exact hfirst.append (hseparator ih) (hends _)

theorem Lexed.intercalate_and {texts : List (List Char)} {lists : List (List Token)}
    (h : List.Forall₂ (Lexed dialect) texts lists) :
    Lexed dialect (" AND ".toList.intercalate texts) ([Token.word "AND"].intercalate lists) :=
  .intercalate .and (fun _ => ends_cons.mpr (Or.inl rfl)) h

theorem Lexed.intercalate_comma {texts : List (List Char)} {lists : List (List Token)}
    (h : List.Forall₂ (Lexed dialect) texts lists) :
    Lexed dialect (", ".toList.intercalate texts) ([Token.mark ","].intercalate lists) :=
  .intercalate (fun hrest => .mark (by decide) (.gap rfl hrest))
    (fun _ => ends_cons.mpr (Or.inr (Or.inl rfl))) h

/-- What stands in parentheses. -/
def parenthesised (list : List Token) : List Token := .mark "(" :: (list ++ [.mark ")"])

theorem Lexed.parenthesised {text more : List Char} {list others : List Token}
    (htext : Lexed dialect text list) (hmore : Lexed dialect more others) :
    Lexed dialect ('(' :: (text ++ ')' :: more)) (parenthesised list ++ others) := by
  have hclose : Lexed dialect (')' :: more) (.mark ")" :: others) := .mark (by decide) hmore
  have hinside := htext.append hclose (ends_cons.mpr (by decide))
  rw [Sql.parenthesised, List.cons_append, List.append_assoc]
  exact .mark (by decide) hinside

/-- A function of what stands in parentheses. -/
theorem Lexed.call {letters text more : List Char} {list others : List Token}
    (hletters : letters ≠ []) (halpha : letters.all Char.isAlpha = true)
    (htext : Lexed dialect text list) (hmore : Lexed dialect more others) :
    Lexed dialect (letters ++ '(' :: (text ++ ')' :: more))
      (.word (String.ofList (letters.map Char.toUpper)) :: (Sql.parenthesised list ++ others)) := by
  obtain ⟨c, letters, rfl⟩ := List.exists_cons_of_ne_nil hletters
  obtain ⟨hc, hrest⟩ := List.forall_mem_cons.mp (List.all_eq_true.mp halpha)
  exact .next (readToken_word hc hrest (by decide)) (htext.parenthesised hmore)

end JoinPlan.Sql
