import JoinPlan.Plan.Compile
import JoinPlan.Proofs.Json.Spelling
import JoinPlan.Proofs.Sql.Quoting
import JoinPlan.Proofs.Sql.Tokens

/-!
# Quoted names, texts and literals are single tokens

Whatever characters a name or a text consists of, what is written for it is read as one
token with that value, and what follows is left alone.  Where a backslash escapes, it is
written twice like the quote character, and a text without one needs no escapes.  So the
condition of a node fetch is read as what it was built from: a column and a literal for
every column of the key.
-/

namespace JoinPlan.Sql

open Dialect (doubled doubled_cons)

/-! ### Doubled characters are read back -/

namespace Quotation

variable {kind : Quotation} {rest : List Char}

theorem read_close (hrest : rest.head? ≠ some kind.quote) :
    kind.read (kind.quote :: rest) = some ([], rest) := by
  cases rest with
  | nil => simp [read]
  | cons c rest =>
      have hc : c ≠ kind.quote := by simpa using hrest
      simp [read, hc]

theorem read_twice (kind : Quotation) (rest : List Char) :
    kind.read (kind.quote :: kind.quote :: rest) = onto [kind.quote] (kind.read rest) := by
  simp [read]

theorem read_char {c : Char} (hc : c ≠ kind.quote) (hescape : kind.escape? c = none)
    (hrest : rest ≠ []) : kind.read (c :: rest) = onto [c] (kind.read rest) := by
  obtain ⟨d, rest, rfl⟩ := List.exists_cons_of_ne_nil hrest
  simp [read, hc, hescape]

/-- Without escapes the doubled text is read back. -/
theorem read_doubled {quote : Char} (text : List Char) (hrest : rest.head? ≠ some quote) :
    read ⟨quote, none⟩ (doubled quote text ++ quote :: rest) = some (text, rest) := by
  induction text with
  | nil => exact read_close hrest
  | cons c text ih =>
      by_cases hc : c = quote
      · subst hc
        have htwice := read_twice ⟨c, none⟩ (doubled c text ++ c :: rest)
        rw [doubled_cons, if_pos rfl, List.append_assoc]
        exact htwice.trans (by rw [ih]; rfl)
      · rw [doubled_cons, if_neg hc, List.append_assoc, List.singleton_append,
          read_char hc (by simp [escape?]) (by simp), ih]
        rfl

/-- With escapes it is read back if the backslashes are doubled too. -/
theorem read_doubled_doubled {quote : Char} {unescape : Char → Option (List Char)}
    (hquote : quote ≠ '\\') (hunescape : unescape '\\' = some ['\\']) (text : List Char)
    (hrest : rest.head? ≠ some quote) :
    read ⟨quote, some unescape⟩ (doubled quote (doubled '\\' text) ++ quote :: rest) =
      some (text, rest) := by
  induction text with
  | nil => exact read_close hrest
  | cons c text ih =>
      rw [doubled_cons, Dialect.doubled_append, List.append_assoc]
      by_cases hescaped : c = '\\'
      · subst hescaped
        simp [doubled_cons, Ne.symm hquote, read, escape?, hunescape, ih, onto]
      · rw [if_neg hescaped, doubled_cons]
        by_cases hc : c = quote
        · subst hc
          simp [read, ih, onto]
        · rw [if_neg hc, Dialect.doubled_nil, List.append_nil, List.singleton_append,
            read_char hc (by simp [escape?, hescaped]) (by simp), ih]
          rfl

end Quotation

variable (dialect : Dialect)

/-- A quoted name is one token. -/
theorem nextToken_quote (name : String) {rest : List Char}
    (hrest : rest.head? ≠ some dialect.nameQuote) :
    nextToken dialect ((dialect.quote name).toList ++ rest) = some (.name name, rest) := by
  have hread := Quotation.read_doubled name.toList hrest
  rw [Dialect.quote, String.toList_ofList, List.cons_append, List.append_assoc]
  apply nextToken_cons
  rw [readToken, if_pos rfl, readQuotation, nameQuotation]
  simp only [List.singleton_append, hread, Option.map_some, String.ofList_toList]

theorem doubled_of_not_mem {quote : Char} {text : List Char} (h : quote ∉ text) :
    doubled quote text = text := by
  induction text with
  | nil => rfl
  | cons c text ih =>
      have htext := List.not_mem_of_not_mem_cons h
      rw [doubled_cons, if_neg (Ne.symm (List.ne_of_not_mem_cons h)), ih htext,
        List.singleton_append]

theorem readToken_text (rest : List Char) :
    readToken dialect '\'' rest = readQuotation .text (textQuotation dialect) rest := by
  cases dialect <;> simp [readToken, Dialect.nameQuote]

theorem readToken_escapes (rest : List Char) :
    readToken .postgres 'E' ('\'' :: rest) = readQuotation .text escapeQuotation rest := by
  simp [readToken, Dialect.nameQuote, marksEscapes]

/-- A quoted text is one token. -/
theorem nextToken_quoteText (text : String) {rest : List Char}
    (hrest : rest.head? ≠ some '\'') :
    nextToken dialect ((dialect.quoteText text).toList ++ rest) = some (.text text, rest) := by
  have hplain := Quotation.read_doubled text.toList hrest
  have hescaped {unescape : Char → Option (List Char)} (hunescape : unescape '\\' = some ['\\']) :=
    Quotation.read_doubled_doubled (by decide) hunescape text.toList hrest
  rw [Dialect.quoteText, String.toList_ofList]
  cases dialect with
  | postgres =>
      by_cases hescapes : '\\' ∈ text.toList
      · simp only [Dialect.escapesBackslash, hescapes, and_self, if_true, List.cons_append,
          List.append_assoc, List.nil_append]
        rw [nextToken_gap _ rfl]
        apply nextToken_cons
        rw [readToken_escapes, readQuotation, escapeQuotation, hescaped rfl]
        simp
      · simp only [Dialect.escapesBackslash, hescapes, and_false, if_false, if_true,
          doubled_of_not_mem hescapes, List.cons_append, List.append_assoc, List.nil_append]
        apply nextToken_cons
        rw [readToken_text, readQuotation, textQuotation, hplain]
        simp
  | mysql =>
      simp only [Dialect.escapesBackslash, reduceCtorEq, false_and, if_false, if_true,
        List.cons_append, List.append_assoc, List.nil_append]
      apply nextToken_cons
      rw [readToken_text, readQuotation, textQuotation, hescaped rfl]
      simp
  | sqlite =>
      simp only [Dialect.escapesBackslash, reduceCtorEq, false_and, if_false, Bool.false_eq_true,
        List.cons_append, List.append_assoc, List.nil_append]
      apply nextToken_cons
      rw [readToken_text, readQuotation, textQuotation, hplain]
      simp

/-! ### Literals -/

/-- The value a literal stands for.  Numbers are kept as they are written. -/
inductive Literal
  | null
  | truth (value : Bool)
  | number (numeral : String)
  | text (text : String)
deriving DecidableEq, Repr

/-- The literal that a JSON value is compared as. -/
def Literal.of : Json → Literal
  | .null => .null
  | .bool value => .truth value
  | .number value => .number (String.ofList (Json.numberText value))
  | .string value => .text value
  | value => .text value.text

def readLiteral : List Token → Option Literal
  | [.word "NULL"] => some .null
  | [.word "TRUE"] => some (.truth true)
  | [.word "FALSE"] => some (.truth false)
  | [.number numeral] => some (.number numeral)
  | [.mark "-", .number numeral] => some (.number ("-" ++ numeral))
  | [.text text] => some (.text text)
  | _ => none

/-- The tokens of a number: its digits, after its sign. -/
def numeralTokens : List Char → List Token
  | '-' :: digits => [.mark "-", .number (String.ofList digits)]
  | digits => [.number (String.ofList digits)]

def literalTokens : Json → List Token
  | .null => [.word "NULL"]
  | .bool true => [.word "TRUE"]
  | .bool false => [.word "FALSE"]
  | .number value => numeralTokens (Json.numberText value)
  | .string text => [.text text]
  | value => [.text value.text]

/-- A text is the rest of one numeral, whatever was read before it. -/
def GoesOn (text : List Char) : Prop :=
  ∀ signed, spanNumeral signed text = (text, [])

theorem goesOn_digits_append {digits rest : List Char}
    (hdigits : ∀ c ∈ digits, c.isDigit = true) (hrest : GoesOn rest) : GoesOn (digits ++ rest) := by
  induction digits with
  | nil => exact hrest
  | cons c digits ih =>
      obtain ⟨hc, hothers⟩ := List.forall_mem_cons.mp hdigits
      intro signed
      simp [spanNumeral, inWord, hc, ih hothers _]

theorem goesOn_digits {digits : List Char} (hdigits : ∀ c ∈ digits, c.isDigit = true) :
    GoesOn digits := by
  have hnil : GoesOn [] := fun _ => rfl
  simpa using goesOn_digits_append hdigits hnil

theorem goesOn_spelling (spelling : Json.Spelling) :
    GoesOn (spelling.whole ++ (Json.fractionText spelling.fraction ++
      Json.exponentText spelling.exponent)) := by
  have hexponent : GoesOn (Json.exponentText spelling.exponent) := by
    cases hpart : spelling.exponent with
    | none => exact fun _ => rfl
    | some part =>
        have hdigits := goesOn_digits (spelling.isDigits_exponent part hpart).digit
        intro signed
        obtain ⟨negative, digits⟩ := part
        cases negative <;> simp [Json.exponentText, spanNumeral, inWord, startsWord, hdigits _]
  apply goesOn_digits_append spelling.isWhole.digit
  cases hpart : spelling.fraction with
  | none => exact hexponent
  | some part =>
      have hdigits := goesOn_digits_append (spelling.isDigits_fraction part hpart).digit hexponent
      intro signed
      simp [Json.fractionText, spanNumeral, hdigits _]

theorem lexed_digits {c : Char} {rest : List Char} (hc : c.isDigit = true)
    (htext : GoesOn (c :: rest)) :
    Lexed dialect (c :: rest) [.number (String.ofList (c :: rest))] := by
  have hne {d : Char} (hd : d.isDigit = false) : c ≠ d := by
    rintro rfl
    exact absurd hc (by simp [hd])
  have hname : c ≠ dialect.nameQuote := hne (by cases dialect <;> rfl)
  have hspan : spanNumeral false rest = (rest, []) := by
    simpa [spanNumeral, inWord, hc, hne (show Char.isDigit 'e' = false from rfl),
      hne (show Char.isDigit 'E' = false from rfl), Prod.ext_iff] using htext false
  have hread : readToken dialect c rest = some (.number (String.ofList (c :: rest)), []) := by
    simp [readToken, hname, hne (show Char.isDigit '\'' = false from rfl), marksEscapes, hc,
      hne (show Char.isDigit 'e' = false from rfl), hne (show Char.isDigit 'E' = false from rfl),
      readNumeral, hspan]
  exact .next hread .done

/-- A number is read as its sign and its digits. -/
theorem lexed_numberText (number : Number) :
    Lexed dialect (Json.numberText number) (numeralTokens (Json.numberText number)) := by
  obtain ⟨spelling, htext⟩ := Json.exists_spelling number
  obtain ⟨c, whole, hwhole⟩ := List.exists_cons_of_ne_nil spelling.isWhole.nonempty
  have hc : c.isDigit = true := spelling.isWhole.digit c (by simp [hwhole])
  have hgoes := goesOn_spelling spelling
  rw [hwhole, List.cons_append] at hgoes
  rw [← htext, Json.Spelling.text, hwhole, List.cons_append]
  generalize whole ++ (Json.fractionText spelling.fraction ++
    Json.exponentText spelling.exponent) = rest at hgoes ⊢
  have hdigits := lexed_digits dialect hc hgoes
  have hminus : c ≠ '-' := by
    rintro rfl
    simp [Char.isDigit] at hc
  cases spelling.negative with
  | true =>
      have hread : readToken dialect '-' (c :: rest) = some (.mark "-", c :: rest) := by
        cases dialect <;> simp [readToken, Dialect.nameQuote, marksEscapes, startsWord, isMark,
          readMark, commentPairs, markPairs, hminus]
      exact .next hread hdigits
  | false => simpa [Json.signText, numeralTokens, hminus] using hdigits

theorem lexed_quoteText (text : String) :
    Lexed dialect (dialect.quoteText text).toList [.text text] := by
  have hread : nextToken dialect ((dialect.quoteText text).toList ++ []) = some (.text text, []) :=
    nextToken_quoteText dialect text (by simp)
  rw [List.append_nil] at hread
  exact .of_nextToken hread .done

theorem lexed_literal (value : Json) :
    Lexed dialect (dialect.literal value).toList (literalTokens value) := by
  cases value with
  | null => exact tokens_eq_some_iff.mp (by cases dialect <;> rfl)
  | bool value =>
      apply tokens_eq_some_iff.mp
      cases value <;> cases dialect <;> rfl
  | number value =>
      rw [Dialect.literal, String.toList_ofList]
      exact lexed_numberText dialect value
  | string text => exact lexed_quoteText dialect text
  | array items => exact lexed_quoteText dialect _
  | object members => exact lexed_quoteText dialect _

theorem readLiteral_literalTokens (value : Json) :
    readLiteral (literalTokens value) = some (.of value) := by
  cases value with
  | bool value => cases value <;> rfl
  | number value =>
      rw [literalTokens, Literal.of]
      generalize Json.numberText value = text
      rw [numeralTokens.eq_def]
      split
      · exact congrArg (fun text => some (Literal.number text))
          (String.toList_inj.mp (by simp [String.toList_append]))
      · rfl
  | _ => rfl

/-! ### Columns -/

def columnTokens (table name : String) : List Token := [.name table, .mark ".", .name name]

theorem lexed_columnText (table name : String) :
    Lexed dialect (columnText dialect table name).toList (columnTokens table name) := by
  have hname : Lexed dialect (dialect.quote name).toList [.name name] := by
    have hread : nextToken dialect ((dialect.quote name).toList ++ []) = some (.name name, []) :=
      nextToken_quote dialect name (by simp)
    rw [List.append_nil] at hread
    exact .of_nextToken hread .done
  have hpoint : (".".toList ++ (dialect.quote name).toList).head? ≠ some dialect.nameQuote := by
    cases dialect <;> simp [Dialect.nameQuote]
  rw [columnText, String.toList_append, String.toList_append, List.append_assoc]
  exact .of_nextToken (nextToken_quote dialect table hpoint) (.mark (by decide) hname)

/-- The tokens of columns combined into one value. -/
def compositeTokens (columns : List (List Token)) : List Token :=
  match dialect with
  | .postgres =>
      .word "NULLIF" :: parenthesised (.word "CONCAT" ::
        (parenthesised ([Token.mark ","].intercalate columns) ++ [.mark ",", .text ""]))
  | .mysql => .word "CONCAT" :: parenthesised ([Token.mark ","].intercalate columns)
  | .sqlite => [Token.mark "||"].intercalate columns

theorem lexed_compositeKey (table : String) (columns : List String) :
    Lexed dialect (dialect.compositeKey (columns.map (columnText dialect table))).toList
      (compositeTokens dialect (columns.map (columnTokens table))) := by
  have hcolumns : List.Forall₂ (Lexed dialect)
      ((columns.map (columnText dialect table)).map String.toList)
      (columns.map (columnTokens table)) := by
    induction columns with
    | nil => exact .nil
    | cons name columns ih => exact .cons (lexed_columnText dialect table name) ih
  cases dialect with
  | postgres =>
      have hempty : Lexed .postgres ", ''".toList [.mark ",", .text ""] :=
        tokens_eq_some_iff.mp rfl
      have hconcat := Lexed.call (by decide : "CONCAT".toList ≠ []) (by decide)
        (.intercalate_comma hcolumns) hempty
      have hall := Lexed.call (by decide : "NULLIF".toList ≠ []) (by decide) hconcat .done
      simpa [Dialect.compositeKey, compositeTokens] using hall
  | mysql =>
      have hconcat := Lexed.call (by decide : "CONCAT".toList ≠ []) (by decide)
        (.intercalate_comma hcolumns) .done
      simpa [Dialect.compositeKey, compositeTokens] using hconcat
  | sqlite =>
      rw [Dialect.compositeKey, String.toList_intercalate]
      refine Lexed.intercalate (fun hrest => ?_) (fun _ => ends_cons.mpr (Or.inl rfl)) hcolumns
      exact .gap rfl (.next rfl (.gap rfl hrest))

/-! ### The condition of a key -/

/-- A column of a relation and the literal it is equal to. -/
def readEquality : List Token → Option (String × String × Literal)
  | .name table :: .mark "." :: .name column :: .mark "=" :: rest =>
      (readLiteral rest).map fun literal => (table, column, literal)
  | _ => none

/-- Equalities joined by AND. -/
def readEqualities (list : List Token) : Option (List (String × String × Literal)) :=
  if list.isEmpty then some [] else (list.splitOn (.word "AND")).mapM readEquality

/-- The tokens of an equality. -/
def keyTokens (aliasName : String) (term : String × Json) : List Token :=
  columnTokens aliasName term.1 ++ .mark "=" :: literalTokens term.2

theorem lexed_keyTerm (aliasName : String) (term : String × Json) :
    Lexed dialect (Plan.keyTerm dialect (dialect.quote aliasName) term).toList
      (keyTokens aliasName term) := by
  have hvalue : Lexed dialect (" = ".toList ++ (dialect.literal term.2).toList)
      (.mark "=" :: literalTokens term.2) :=
    .gap rfl (.mark (by decide) (.gap rfl (lexed_literal dialect term.2)))
  have hterm := (lexed_columnText dialect aliasName term.1).append hvalue
    (ends_cons.mpr (Or.inl rfl))
  simpa [Plan.keyTerm, keyTokens, columnText, String.toList_append] using hterm

theorem and_not_mem_literalTokens (value : Json) : Token.word "AND" ∉ literalTokens value := by
  cases value with
  | bool value => cases value <;> simp [literalTokens]
  | number value =>
      rw [literalTokens, numeralTokens.eq_def]
      split <;> simp
  | _ => simp [literalTokens]

theorem readEqualities_keyTokens (aliasName : String) (terms : List (String × Json)) :
    readEqualities ([Token.word "AND"].intercalate (terms.map (keyTokens aliasName))) =
      some (terms.map fun term => (aliasName, term.1, .of term.2)) := by
  cases terms with
  | nil => rfl
  | cons first terms =>
      have hplain : ∀ list ∈ (first :: terms).map (keyTokens aliasName),
          Token.word "AND" ∉ list := by
        intro list hlist
        obtain ⟨term, -, rfl⟩ := List.mem_map.mp hlist
        simpa [keyTokens, columnTokens] using and_not_mem_literalTokens term.2
      have hsplit := List.splitOn_intercalate (Token.word "AND") hplain (by simp)
      have hnonempty : ([Token.word "AND"].intercalate
          ((first :: terms).map (keyTokens aliasName))).isEmpty = false := by
        cases terms <;> simp [keyTokens]
      have heach : readEquality ∘ keyTokens aliasName =
          fun term => pure (aliasName, term.1, Literal.of term.2) := by
        funext term
        simp [readEquality, keyTokens, columnTokens, readLiteral_literalTokens]
      rw [readEqualities, hnonempty, hsplit, List.mapM_map, heach, List.mapM_pure]
      rfl

/-- The text that finds a key's values. -/
theorem lexed_keyCondition (aliasName : String) (terms : List (String × Json)) :
    Lexed dialect
      (" AND ".intercalate (terms.map (Plan.keyTerm dialect (dialect.quote aliasName)))).toList
      ([Token.word "AND"].intercalate (terms.map (keyTokens aliasName))) := by
  rw [String.toList_intercalate, List.map_map]
  apply Lexed.intercalate_and
  induction terms with
  | nil => exact .nil
  | cons term terms ih => exact .cons (lexed_keyTerm dialect aliasName term) ih

theorem not_isBlankText_keyCondition (aliasName : String) {terms : List (String × Json)}
    (hterms : terms ≠ []) : Text.isBlankText
      (" AND ".intercalate (terms.map (Plan.keyTerm dialect (dialect.quote aliasName)))) =
        false := by
  obtain ⟨term, terms, rfl⟩ := List.exists_cons_of_ne_nil hterms
  have hquote : Text.isBlank dialect.nameQuote = false := by cases dialect <;> decide
  rw [Text.isBlankText, String.toList_intercalate, List.map_map, List.map_cons]
  cases terms <;> simp [Plan.keyTerm, Dialect.quote, hquote]

/-- What the condition of a key is built as; without columns there is none. -/
theorem built_keyCondition {typeName : String} {key : UniqueKey} {value : Json}
    {condition : RowCondition}
    (h : Plan.keyCondition dialect typeName key value = .ok condition) :
    ∃ values, Plan.keyValues typeName key value = .ok values ∧
      ∀ aliasName args context,
        (condition.condition? (dialect.quote aliasName) args context).getD "" =
          " AND ".intercalate
            ((key.toList.zip values).map (Plan.keyTerm dialect (dialect.quote aliasName))) := by
  cases hvalues : Plan.keyValues typeName key value with
  | error error => simp [Plan.keyCondition, hvalues, bind, Except.bind] at h
  | ok values =>
      simp only [Plan.keyCondition, hvalues, bind, Except.bind, Except.ok.injEq] at h
      subst h
      refine ⟨values, rfl, fun aliasName args context => ?_⟩
      generalize key.toList.zip values = terms
      cases terms with
      | nil => rfl
      | cons term terms =>
          have hblank := not_isBlankText_keyCondition dialect aliasName
            (List.cons_ne_nil term terms)
          simp only [Builder.condition?, Option.filter_some, hblank, Bool.not_false, if_true,
            Option.getD_some]

/-- Quotes contain every text: a name, a text, and the literal of an array or an object
is one token, whatever characters it consists of and whatever follows it but the quote
character; and the condition that finds a key is read as its columns and literals. -/
theorem quotations_read_back :
    (∀ (name : String) (rest : List Char), rest.head? ≠ some dialect.nameQuote →
      nextToken dialect ((dialect.quote name).toList ++ rest) = some (.name name, rest)) ∧
    (∀ (text : String) (rest : List Char), rest.head? ≠ some '\'' →
      nextToken dialect ((dialect.quoteText text).toList ++ rest) = some (.text text, rest)) ∧
    (∀ (value : Json) (rest : List Char), value.isObject ∨ value.array?.isSome →
      rest.head? ≠ some '\'' →
      nextToken dialect ((dialect.literal value).toList ++ rest) =
        some (.text value.text, rest)) ∧
    ∀ (typeName aliasName : String) (key : UniqueKey) (value : Json) (condition : RowCondition),
      Plan.keyCondition dialect typeName key value = .ok condition →
      ∃ values, Plan.keyValues typeName key value = .ok values ∧
        ∀ args context,
          (tokens dialect
            ((condition.condition? (dialect.quote aliasName) args context).getD "").toList).bind
              readEqualities =
            some ((key.toList.zip values).map fun term =>
              (aliasName, term.1, Literal.of term.2)) := by
  refine ⟨fun name _ hrest => nextToken_quote dialect name hrest,
    fun text _ hrest => nextToken_quoteText dialect text hrest, ?_, ?_⟩
  · intro value rest hvalue hrest
    cases value with
    | array items => exact nextToken_quoteText dialect _ hrest
    | object members => exact nextToken_quoteText dialect _ hrest
    | _ => simp [Json.isObject, Json.array?] at hvalue
  · intro typeName aliasName key value condition hcondition
    obtain ⟨values, hvalues, htext⟩ := built_keyCondition dialect hcondition
    refine ⟨values, hvalues, fun args context => ?_⟩
    rw [htext, tokens_eq_some_iff.mpr (lexed_keyCondition dialect aliasName _), Option.bind_some,
      readEqualities_keyTokens]

/-- Quote characters and backslashes at every place, and an array of them as a key's
value, in the dialect that marks escapes. -/
theorem quotations_read_back_escapes :
    (nextToken .postgres ((Dialect.postgres.quote "a\"\"b\\").toList ++ [';']) =
        some (.name "a\"\"b\\", [';'])) ∧
      (nextToken .postgres ((Dialect.postgres.quoteText "\\'' OR '\\").toList ++ ['"']) =
        some (.text "\\'' OR '\\", ['"'])) ∧
      (nextToken .postgres ((Dialect.postgres.literal (.array [.string "'\\"])).toList ++ [')']) =
        some (.text "[\"'\\\\\"]", [')'])) ∧
      ∃ condition, Plan.keyCondition .postgres "Seat" (.many ["hall", "se\"at"])
          (.array [.string "' OR 1=1 --", .number (.int (-5))]) = .ok condition ∧
        (tokens .postgres ((condition.condition? (Dialect.postgres.quote "seat") [] .null).getD
          "").toList).bind readEqualities =
            some [("seat", "hall", .text "' OR 1=1 --"), ("seat", "se\"at", .number "-5")] := by
  obtain ⟨hname, htext, hliteral, hkey⟩ := quotations_read_back .postgres
  obtain ⟨condition, hcondition⟩ : ∃ condition,
      Plan.keyCondition .postgres "Seat" (.many ["hall", "se\"at"])
        (.array [.string "' OR 1=1 --", .number (.int (-5))]) = .ok condition := ⟨_, rfl⟩
  obtain ⟨values, hvalues, hread⟩ := hkey "Seat" "seat" _ _ condition hcondition
  obtain rfl := Except.ok.inj hvalues
  exact ⟨hname _ _ (by decide), htext _ _ (by decide),
    hliteral (.array [.string "'\\"]) _ (Or.inr rfl) (by decide),
    condition, hcondition, hread [] .null⟩

end JoinPlan.Sql
