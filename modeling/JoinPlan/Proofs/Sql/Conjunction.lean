import JoinPlan.Proofs.Plan.SelectList
import JoinPlan.Proofs.Sql.Formula
import JoinPlan.Proofs.Sql.Literals

/-!
# What the conditions of a statement mean together

A condition joined by AND or OR is put in parentheses, and every other structured
condition has no connective of its own; raw text is written as it is.  A WHERE clause
joins its conditions by AND.  So it is true of a row exactly when every condition, read
alone, is, unless raw text with an OR of its own stands beside another condition: then
AND binds tighter than that OR, and rows are found that another condition excludes.
-/

namespace JoinPlan.Sql

variable {dialect : Dialect}

/-! ### Conditions as they are written -/

namespace Expression

def isRaw : Expression → Bool
  | .raw _ => true
  | _ => false

/-- A condition: every raw text in it is one that can be read as such. -/
inductive IsCondition (dialect : Dialect) : Expression → Prop
  | and {left right : Expression} (hleft : IsCondition dialect left)
      (hright : IsCondition dialect right) : IsCondition dialect (.and left right)
  | or {left right : Expression} (hleft : IsCondition dialect left)
      (hright : IsCondition dialect right) : IsCondition dialect (.or left right)
  | compare {left right : Expression} (comparison : Comparison)
      (hleft : IsCondition dialect left) (hright : IsCondition dialect right)
      (hplain : left.isRaw = false ∧ right.isRaw = false) :
      IsCondition dialect (.compare comparison left right)
  | isIn {item : Expression} {items : List Expression} (hitem : IsCondition dialect item)
      (hitems : ∀ other ∈ items, IsCondition dialect other)
      (hplain : ∀ other ∈ item :: items, other.isRaw = false) :
      IsCondition dialect (.isIn item items)
  | column (table name : String) : IsCondition dialect (.column table name)
  | compositeKey (table : String) {columns : List String} (hcolumns : columns ≠ []) :
      IsCondition dialect (.compositeKey table columns)
  | rowCount : IsCondition dialect .rowCount
  | value (value : Json) : IsCondition dialect (.value value)
  | raw {sql : String} (hsql : (readCondition dialect sql.toList).isSome) :
      IsCondition dialect (.raw sql)

end Expression

/-- The text of a part of a condition that is read as one, whatever AND or OR joins it to. -/
structure IsPart (dialect : Dialect) (list : List Token) : Prop where
  unsplit : Unsplit dialect list
  opens : ∃ token rest, list = token :: rest ∧ token ≠ .word "NOT" ∧ startsQuery token = false

theorem IsPart.reads {list : List Token} (h : IsPart dialect list) : Reads dialect list := by
  obtain ⟨token, rest, rfl, hnot, hquery⟩ := h.opens
  rw [Reads, readFormula_of_unsplit h.unsplit, readFactor, if_neg hnot, hquery]
  rfl

theorem IsPart.append {list more : List Token} (h : IsPart dialect list)
    (hmore : Unsplit dialect more) : IsPart dialect (list ++ more) where
  unsplit := h.unsplit.append hmore
  opens := by
    obtain ⟨token, rest, rfl, hnot, hquery⟩ := h.opens
    exact ⟨token, rest ++ more, rfl, hnot, hquery⟩

theorem IsPart.parenthesised {list : List Token} (h : Reads dialect list) :
    IsPart dialect (parenthesised list) where
  unsplit := by
    obtain ⟨terms, hterms, -⟩ := reads_iff.mp h
    exact .parenthesised (Option.isSome_of_eq_some hterms)
  opens := ⟨_, _, rfl, by decide, rfl⟩

/-- The mark that a comparison is written with. -/
def Comparison.mark : Comparison → Token
  | .equal => .mark "="
  | .greater => .mark ">"
  | .less => .mark "<"

theorem isPlain_mark (comparison : Comparison) : isPlain dialect comparison.mark = true := by
  cases comparison <;> cases dialect <;> decide

theorem Lexed.comparison (comparison : Comparison) {rest : List Char} {list : List Token}
    (hrest : Lexed dialect rest list) :
    Lexed dialect (comparison.text.toList ++ rest) (comparison.mark :: list) := by
  cases comparison with
  | equal => exact .gap rfl (.mark (by decide) (.gap rfl hrest))
  | greater =>
      have hread : readToken dialect '>' (' ' :: rest) = some (.mark ">", ' ' :: rest) := by
        cases dialect <;> rfl
      exact .gap rfl (.next hread (.gap rfl hrest))
  | less =>
      have hread : readToken dialect '<' (' ' :: rest) = some (.mark "<", ' ' :: rest) := by
        cases dialect <;> rfl
      exact .gap rfl (.next hread (.gap rfl hrest))

/-- Two expressions with a comparison between them. -/
theorem Lexed.compare (comparison : Comparison) {left right : Expression}
    {lefts rights : List Token} (hleft : Lexed dialect (left.render dialect).toList lefts)
    (hright : Lexed dialect (right.render dialect).toList rights) :
    Lexed dialect ((Expression.compare comparison left right).render dialect).toList
      (lefts ++ comparison.mark :: rights) := by
  have hends : Ends (comparison.text.toList ++ (right.render dialect).toList) := by
    cases comparison <;> exact ends_cons.mpr (Or.inl rfl)
  simpa [Expression.render] using hleft.append (hright.comparison comparison) hends

/-- A list of expressions is written with commas between them. -/
theorem renderRest_eq (first : Expression) (rest : List Expression) :
    first.render dialect ++ Expression.renderRest dialect rest =
      ", ".intercalate ((first :: rest).map (Expression.render dialect)) := by
  induction rest generalizing first with
  | nil => simp [Expression.renderRest]
  | cons second rest ih =>
      simp only [Expression.renderRest, String.append_assoc, ih second, List.map_cons,
        String.intercalate_cons_cons]

/-- An expression and the list that it is looked up in. -/
theorem Lexed.isIn {item : Expression} {items : List Expression} {list : List Token}
    {lists : List (List Token)} (hitems : items ≠ [])
    (hitem : Lexed dialect (item.render dialect).toList list)
    (heach : List.Forall₂ (Lexed dialect)
      ((items.map (Expression.render dialect)).map String.toList) lists) :
    Lexed dialect ((Expression.isIn item items).render dialect).toList
      (list ++ .word "IN" :: Sql.parenthesised ([Token.mark ","].intercalate lists)) := by
  obtain ⟨first, rest, rfl⟩ := List.exists_cons_of_ne_nil hitems
  have hword := Lexed.word (by decide : "IN".toList ≠ []) (by decide)
    ((Lexed.intercalate_comma heach).parenthesised .done)
  have hrender : (Expression.isIn item (first :: rest)).render dialect =
      item.render dialect ++ (" IN (" ++ (", ".intercalate
        ((first :: rest).map (Expression.render dialect)) ++ ")")) := by
    rw [← renderRest_eq]
    simp only [Expression.render, String.append_assoc]
  rw [hrender]
  simpa using hitem.append hword (ends_cons.mpr (Or.inl rfl))

/-- Expressions that are parts of conditions, with commas between them. -/
theorem unsplit_intercalate {lists : List (List Token)} {between : Token}
    (hbetween : isPlain dialect between = true) (h : ∀ list ∈ lists, Unsplit dialect list) :
    Unsplit dialect ([between].intercalate lists) := by
  induction lists with
  | nil => exact unsplit_nil
  | cons first lists ih =>
      obtain ⟨hfirst, hrest⟩ := List.forall_mem_cons.mp h
      cases lists with
      | nil => simpa using hfirst
      | cons second lists =>
          rw [List.intercalate_cons_cons, List.append_assoc]
          exact hfirst.append (.cons hbetween (ih hrest))

/-- What follows an expression that is looked up in a list is a part of the condition. -/
theorem unsplit_isIn {lists : List (List Token)} (h : ∀ list ∈ lists, Unsplit dialect list) :
    Unsplit dialect (.word "IN" :: parenthesised ([Token.mark ","].intercalate lists)) := by
  have hcommas : Unsplit dialect ([Token.mark ","].intercalate lists) :=
    unsplit_intercalate (by cases dialect <;> decide) h
  exact .cons (by cases dialect <;> decide)
    (.parenthesised (Option.isSome_of_eq_some hcommas.single))

/-- How a condition is read: raw text as it can be, any other as a part. -/
structure Written (dialect : Dialect) (condition : Expression) (list : List Token) : Prop where
  lexed : Lexed dialect (condition.render dialect).toList list
  reads : Reads dialect list
  isPart : condition.isRaw = false → IsPart dialect list

theorem IsPart.written {condition : Expression} {list : List Token} (h : IsPart dialect list)
    (hlexed : Lexed dialect (condition.render dialect).toList list) :
    Written dialect condition list := ⟨hlexed, h.reads, fun _ => h⟩

theorem isPlain_name (name : String) : isPlain dialect (.name name) = true := by
  cases dialect <;> rfl

theorem isPlain_text (text : String) : isPlain dialect (.text text) = true := by
  cases dialect <;> rfl

theorem isPlain_number (numeral : String) : isPlain dialect (.number numeral) = true := by
  cases dialect <;> rfl

theorem unsplit_of_isPlain {list : List Token} (h : ∀ token ∈ list, isPlain dialect token = true) :
    Unsplit dialect list := by
  induction list with
  | nil => exact unsplit_nil
  | cons token list ih =>
      obtain ⟨htoken, hlist⟩ := List.forall_mem_cons.mp h
      exact .cons htoken (ih hlist)

theorem isPart_columnTokens (table name : String) : IsPart dialect (columnTokens table name) where
  unsplit := unsplit_of_isPlain <| by
    have hpoint : isPlain dialect (.mark ".") = true := by cases dialect <;> rfl
    simp [columnTokens, isPlain_name, hpoint]
  opens := ⟨_, _, rfl, by simp, rfl⟩

theorem isPart_literalTokens (value : Json) : IsPart dialect (literalTokens value) := by
  have hone {token : Token} (hplain : isPlain dialect token = true)
      (hopens : token ≠ .word "NOT" ∧ startsQuery token = false) : IsPart dialect [token] :=
    ⟨.cons hplain unsplit_nil, token, [], rfl, hopens⟩
  have hnumber (text : List Char) : IsPart dialect (numeralTokens text) := by
    rw [numeralTokens.eq_def]
    split
    · have hminus : isPlain dialect (.mark "-") = true := by cases dialect <;> rfl
      exact ⟨.cons hminus (.cons (isPlain_number _) unsplit_nil), _, _, rfl, by decide, rfl⟩
    · exact hone (isPlain_number _) ⟨by simp, rfl⟩
  cases value with
  | null => exact hone (by cases dialect <;> decide) (by decide)
  | bool value => cases value <;> exact hone (by cases dialect <;> decide) (by decide)
  | number value => exact hnumber _
  | string text => exact hone (isPlain_text _) ⟨by simp, rfl⟩
  | array items => exact hone (isPlain_text _) ⟨by simp, rfl⟩
  | object members => exact hone (isPlain_text _) ⟨by simp, rfl⟩

theorem isPart_compositeTokens (table : String) {columns : List String} (hcolumns : columns ≠ []) :
    IsPart dialect (compositeTokens dialect (columns.map (columnTokens table))) := by
  have hlists : ∀ list ∈ columns.map (columnTokens table), Unsplit dialect list := by
    intro list hlist
    obtain ⟨name, -, rfl⟩ := List.mem_map.mp hlist
    exact (isPart_columnTokens table name).unsplit
  have hcommas : Unsplit dialect
      (parenthesised ([Token.mark ","].intercalate (columns.map (columnTokens table)))) := by
    refine .parenthesised ?_
    rw [(unsplit_intercalate (by cases dialect <;> decide) hlists).single]
    rfl
  cases dialect with
  | postgres =>
      have hempty : Unsplit .postgres [.mark ",", .text ""] :=
        unsplit_of_isPlain (by decide)
      refine ⟨.cons (by decide) (.parenthesised ?_), _, _, rfl, by decide, rfl⟩
      rw [(Unsplit.cons (by decide) (hcommas.append hempty)).single]
      rfl
  | mysql => exact ⟨.cons (by decide) hcommas, _, _, rfl, by decide, rfl⟩
  | sqlite =>
      refine ⟨unsplit_intercalate (by decide) hlists, ?_⟩
      obtain ⟨name, columns, rfl⟩ := List.exists_cons_of_ne_nil hcolumns
      cases columns <;> exact ⟨_, _, rfl, by simp, rfl⟩

/-! ### Every condition can be read -/

theorem Written.raw {sql : String} (hsql : (readCondition dialect sql.toList).isSome) :
    ∃ list, Written dialect (.raw sql) list := by
  obtain ⟨formula, hformula⟩ := Option.isSome_iff_exists.mp hsql
  obtain ⟨list, hlist, hread⟩ := Option.bind_eq_some_iff.mp hformula
  exact ⟨list, tokens_eq_some_iff.mp hlist, Option.isSome_of_eq_some hread,
    by simp [Expression.isRaw]⟩

theorem exists_forall₂ {α β : Type} {related : α → β → Prop} {items : List α}
    (h : ∀ item ∈ items, ∃ image, related item image) :
    ∃ images, List.Forall₂ related items images := by
  induction items with
  | nil => exact ⟨[], .nil⟩
  | cons item items ih =>
      obtain ⟨hitem, hitems⟩ := List.forall_mem_cons.mp h
      obtain ⟨image, himage⟩ := hitem
      obtain ⟨images, himages⟩ := ih hitems
      exact ⟨image :: images, .cons himage himages⟩

theorem lexed_of_written {conditions : List Expression} {lists : List (List Token)}
    (h : List.Forall₂ (Written dialect) conditions lists) :
    List.Forall₂ (Lexed dialect)
      ((conditions.map (Expression.render dialect)).map String.toList) lists := by
  induction h with
  | nil => exact .nil
  | cons hfirst _ ih => exact .cons hfirst.lexed ih

theorem unsplit_of_written {conditions : List Expression} {lists : List (List Token)}
    (h : List.Forall₂ (Written dialect) conditions lists)
    (hplain : ∀ condition ∈ conditions, condition.isRaw = false) :
    ∀ list ∈ lists, Unsplit dialect list := by
  induction h with
  | nil => simp
  | cons hfirst _ ih =>
      obtain ⟨hcondition, hconditions⟩ := List.forall_mem_cons.mp hplain
      exact List.forall_mem_cons.mpr ⟨(hfirst.isPart hcondition).unsplit, ih hconditions⟩

theorem Written.and {left right : Expression} {lefts rights : List Token}
    (hleft : Written dialect left lefts) (hright : Written dialect right rights) :
    Written dialect (.and left right) (parenthesised (lefts ++ .word "AND" :: rights)) := by
  have hinside := hleft.lexed.append (.and hright.lexed) (ends_cons.mpr (Or.inl rfl))
  apply (IsPart.parenthesised (hleft.reads.and hright.reads)).written
  simpa [Expression.render] using hinside.parenthesised .done

theorem Written.or {left right : Expression} {lefts rights : List Token}
    (hleft : Written dialect left lefts) (hright : Written dialect right rights) :
    Written dialect (.or left right) (parenthesised (lefts ++ .word "OR" :: rights)) := by
  have hinside := hleft.lexed.append (.or hright.lexed) (ends_cons.mpr (Or.inl rfl))
  apply (IsPart.parenthesised (hleft.reads.or hright.reads)).written
  simpa [Expression.render] using hinside.parenthesised .done

/-- Every condition is written as one that can be read. -/
theorem Expression.IsCondition.written {condition : Expression}
    (h : condition.IsCondition dialect) : ∃ list, Written dialect condition list := by
  induction h with
  | and hleft hright ihleft ihright =>
      obtain ⟨lefts, hleft⟩ := ihleft
      obtain ⟨rights, hright⟩ := ihright
      exact ⟨_, hleft.and hright⟩
  | or hleft hright ihleft ihright =>
      obtain ⟨lefts, hleft⟩ := ihleft
      obtain ⟨rights, hright⟩ := ihright
      exact ⟨_, hleft.or hright⟩
  | compare comparison hleft hright hplain ihleft ihright =>
      obtain ⟨lefts, hleft⟩ := ihleft
      obtain ⟨rights, hright⟩ := ihright
      have hpart := (hleft.isPart hplain.1).append
        (.cons (isPlain_mark comparison) (hright.isPart hplain.2).unsplit)
      exact ⟨_, hpart.written (hleft.lexed.compare comparison hright.lexed)⟩
  | @isIn item items hitem hitems hplain ihitem ihitems =>
      obtain ⟨hitemPlain, hitemsPlain⟩ := List.forall_mem_cons.mp hplain
      by_cases hempty : items = []
      · subst hempty
        exact ⟨_, (isPart_literalTokens (.bool false)).written
          (lexed_literal dialect (.bool false))⟩
      · obtain ⟨list, hitem⟩ := ihitem
        obtain ⟨lists, hlists⟩ := exists_forall₂ ihitems
        have hpart := (hitem.isPart hitemPlain).append
          (unsplit_isIn (unsplit_of_written hlists hitemsPlain))
        exact ⟨_, hpart.written (hitem.lexed.isIn hempty (lexed_of_written hlists))⟩
  | column table name =>
      exact ⟨_, (isPart_columnTokens table name).written (lexed_columnText dialect table name)⟩
  | compositeKey table hcolumns =>
      exact ⟨_, (isPart_compositeTokens table hcolumns).written
        (lexed_compositeKey dialect table _)⟩
  | rowCount =>
      refine ⟨[.word "COUNT", .mark "(", .mark "*", .mark ")", .word "OVER", .mark "(", .mark ")"],
        IsPart.written ⟨?_, _, _, rfl, by decide, rfl⟩ (tokens_eq_some_iff.mp ?_)⟩
      · rintro _ (rfl | rfl) <;> cases dialect <;> rfl
      · cases dialect <;> rfl
  | value value => exact ⟨_, (isPart_literalTokens value).written (lexed_literal dialect value)⟩
  | raw hsql => exact Written.raw hsql

/-! ### Conditions read alone -/

namespace Expression

/-- The formula of a condition read alone. -/
def formula? (dialect : Dialect) (condition : Expression) : Option Formula :=
  readCondition dialect (condition.render dialect).toList

/-- The condition, read alone, is true of a row. -/
def IsTrueAlone (dialect : Dialect) (row : List Token → Formula.Truth)
    (condition : Expression) : Prop :=
  ∃ formula, condition.formula? dialect = some formula ∧ formula.IsTrue row

/-- Raw text with an OR outside its brackets. -/
def HasOwnOr (dialect : Dialect) : Expression → Prop
  | .raw sql => ∃ list, tokens dialect sql.toList = some list ∧ ¬ Single dialect list
  | _ => False

end Expression

theorem Written.formula?_eq {condition : Expression} {list : List Token}
    (h : Written dialect condition list) :
    condition.formula? dialect = readFormula dialect list := by
  rw [Expression.formula?, readCondition, tokens_eq_some_iff.mpr h.lexed, Option.bind_some]

theorem Written.isTrueAlone_iff {condition : Expression} {list : List Token} {formula : Formula}
    {row : List Token → Formula.Truth} (h : Written dialect condition list)
    (hread : readFormula dialect list = some formula) :
    condition.IsTrueAlone dialect row ↔ formula.IsTrue row := by
  rw [Expression.IsTrueAlone, h.formula?_eq, hread]
  simp

theorem Written.single {condition : Expression} {list : List Token}
    (h : Written dialect condition list) (hor : ¬ condition.HasOwnOr dialect) :
    Single dialect list := by
  cases condition with
  | raw sql =>
      by_contra hsplit
      exact hor ⟨list, tokens_eq_some_iff.mpr h.lexed, hsplit⟩
  | _ => exact (h.isPart rfl).unsplit.single

theorem Expression.IsCondition.isSome_formula? {condition : Expression}
    (h : condition.IsCondition dialect) : (condition.formula? dialect).isSome := by
  obtain ⟨list, hwritten⟩ := h.written
  rw [hwritten.formula?_eq]
  exact hwritten.reads

/-- Conditions joined by AND are true together, if none has an OR of its own. -/
theorem exists_whole {conditions : List Expression} (hconditions : conditions ≠ [])
    (h : ∀ condition ∈ conditions, condition.IsCondition dialect)
    (hor : ∀ condition ∈ conditions, ¬ condition.HasOwnOr dialect) :
    ∃ list whole,
      Lexed dialect (" AND ".intercalate (conditions.map (Expression.render dialect))).toList list ∧
      Single dialect list ∧ readFormula dialect list = some whole ∧
      ∀ row, whole.IsTrue row ↔ ∀ condition ∈ conditions, condition.IsTrueAlone dialect row := by
  induction conditions with
  | nil => contradiction
  | cons first rest ih =>
      obtain ⟨hfirst, hrest⟩ := List.forall_mem_cons.mp h
      obtain ⟨hfirstOr, hrestOr⟩ := List.forall_mem_cons.mp hor
      obtain ⟨list, hwritten⟩ := hfirst.written
      obtain ⟨formula, hformula⟩ := Option.isSome_iff_exists.mp hwritten.reads
      have hsingle := hwritten.single hfirstOr
      cases rest with
      | nil =>
          refine ⟨list, formula, by simpa using hwritten.lexed, hsingle, hformula, fun row => ?_⟩
          simpa using (hwritten.isTrueAlone_iff hformula).symm
      | cons second rest =>
          obtain ⟨more, others, hmore, hothers, hread, htruth⟩ := ih (by simp) hrest hrestOr
          obtain ⟨whole, hwhole, hand⟩ := readFormula_and hsingle hothers hformula hread
          refine ⟨_, whole, ?_, hsingle.and hothers, hwhole, fun row => ?_⟩
          · simpa using hwritten.lexed.append (.and hmore) (ends_cons.mpr (Or.inl rfl))
          · rw [hand, htruth, ← hwritten.isTrueAlone_iff hformula]
            exact List.forall_mem_cons.symm

namespace Expression

theorem IsCondition.of_mem_conjuncts {condition part : Expression}
    (h : condition.IsCondition dialect) (hpart : part ∈ condition.conjuncts) :
    part.IsCondition dialect := by
  fun_induction conjuncts condition with
  | case1 left right ihleft ihright =>
      cases h with
      | and hleft hright =>
          exact (List.mem_append.mp hpart).elim (ihleft hleft) (ihright hright)
  | case2 condition => exact List.mem_singleton.mp hpart ▸ h

theorem not_hasOwnOr_of_conjuncts {condition : Expression}
    (h : ∀ part ∈ condition.conjuncts, ¬ part.HasOwnOr dialect) :
    ¬ condition.HasOwnOr dialect := by
  cases condition with
  | raw sql => exact h _ List.mem_cons_self
  | _ => exact id

/-- A condition is true of the rows that all conditions joined in it are true of. -/
theorem IsCondition.isTrueAlone_iff {condition : Expression} (h : condition.IsCondition dialect)
    (hor : ∀ part ∈ condition.conjuncts, ¬ part.HasOwnOr dialect)
    (row : List Token → Formula.Truth) :
    condition.IsTrueAlone dialect row ↔
      ∀ part ∈ condition.conjuncts, part.IsTrueAlone dialect row := by
  induction h with
  | and hleft hright ihleft ihright =>
      obtain ⟨hleftOr, hrightOr⟩ := List.forall_mem_append.mp hor
      obtain ⟨lefts, hlefts⟩ := hleft.written
      obtain ⟨rights, hrights⟩ := hright.written
      obtain ⟨first, hfirst⟩ := Option.isSome_iff_exists.mp hlefts.reads
      obtain ⟨second, hsecond⟩ := Option.isSome_iff_exists.mp hrights.reads
      obtain ⟨whole, hwhole, hand⟩ := readFormula_and
        (hlefts.single (not_hasOwnOr_of_conjuncts hleftOr))
        (hrights.single (not_hasOwnOr_of_conjuncts hrightOr)) hfirst hsecond
      rw [(hlefts.and hrights).isTrueAlone_iff (readFormula_parenthesised hwhole), hand,
        ← hlefts.isTrueAlone_iff hfirst, ← hrights.isTrueAlone_iff hsecond, ihleft hleftOr,
        ihright hrightOr, conjuncts, List.forall_mem_append]
  | _ => simp [conjuncts]

/-- The conditions of a conjunction, flattened. -/
theorem conjuncts_foldl (first : Expression) (rest : List Expression) :
    (rest.foldl .and first).conjuncts = (first :: rest).flatMap conjuncts := by
  induction rest generalizing first with
  | nil => simp
  | cons second rest ih => simp [ih, conjuncts]

theorem conjuncts_ne_nil (condition : Expression) : condition.conjuncts ≠ [] := by
  fun_induction conjuncts condition <;> simp_all

theorem isTrueAlone_always (row : List Token → Formula.Truth) : always.IsTrueAlone dialect row :=
  ⟨.always, by cases dialect <;> rfl, Formula.isTrue_always row⟩

theorem eq_of_conjuncts_eq {condition part : Expression} (h : condition.conjuncts = [part]) :
    condition = part := by
  cases condition with
  | and left right =>
      have hlength := congrArg List.length h
      have hleft := List.length_pos_iff.mpr left.conjuncts_ne_nil
      have hright := List.length_pos_iff.mpr right.conjuncts_ne_nil
      simp only [conjuncts, List.length_append, List.length_singleton] at hlength
      omega
  | _ => exact List.singleton_inj.mp h

theorem isAlways_foldl_and {first : Expression} (hfirst : first.isAlways = false)
    (rest : List Expression) : (rest.foldl .and first).isAlways = false := by
  induction rest generalizing first with
  | nil => exact hfirst
  | cons second rest ih => exact ih rfl

theorem eq_always {condition : Expression} (h : condition.isAlways = true) :
    condition = always := by
  unfold isAlways at h
  split at h
  · rfl
  · contradiction

end Expression

/-- Conditions that can be joined by AND as they are written: one alone, or several
without an OR of their own. -/
def Joinable (dialect : Dialect) (conditions : List Expression) : Prop :=
  conditions.length ≤ 1 ∨ ∀ condition ∈ conditions, ¬ condition.HasOwnOr dialect

theorem Joinable.sublist {conditions others : List Expression} (h : Joinable dialect others)
    (hsublist : conditions.Sublist others) : Joinable dialect conditions := by
  rcases h with hlength | hor
  · exact Or.inl (Nat.le_trans hsublist.length_le hlength)
  · exact Or.inr fun condition hcondition => hor condition (hsublist.mem hcondition)

theorem Joinable.isTrueAlone_iff {condition : Expression}
    (h : Joinable dialect condition.conjuncts) (hcondition : condition.IsCondition dialect)
    (row : List Token → Formula.Truth) : condition.IsTrueAlone dialect row ↔
      ∀ part ∈ condition.conjuncts, part.IsTrueAlone dialect row := by
  rcases h with hlength | hor
  · have hone := Nat.le_antisymm hlength (List.length_pos_iff.mpr condition.conjuncts_ne_nil)
    obtain ⟨part, hpart⟩ := List.length_eq_one_iff.mp hone
    obtain rfl := Expression.eq_of_conjuncts_eq hpart
    simp [hpart]
  · exact hcondition.isTrueAlone_iff hor row

theorem Joinable.exists_whole {conditions : List Expression} (h : Joinable dialect conditions)
    (hconditions : conditions ≠ [])
    (hread : ∀ condition ∈ conditions, condition.IsCondition dialect) :
    ∃ list whole,
      Lexed dialect (" AND ".intercalate (conditions.map (Expression.render dialect))).toList list ∧
      readFormula dialect list = some whole ∧
      ∀ row, whole.IsTrue row ↔ ∀ condition ∈ conditions, condition.IsTrueAlone dialect row := by
  rcases h with hlength | hor
  · have hone := Nat.le_antisymm hlength (List.length_pos_iff.mpr hconditions)
    obtain ⟨condition, rfl⟩ := List.length_eq_one_iff.mp hone
    obtain ⟨list, hwritten⟩ := (hread condition List.mem_cons_self).written
    obtain ⟨formula, hformula⟩ := Option.isSome_iff_exists.mp hwritten.reads
    refine ⟨list, formula, by simpa using hwritten.lexed, hformula, fun row => ?_⟩
    simpa using (hwritten.isTrueAlone_iff hformula).symm
  · obtain ⟨list, whole, hlexed, -, hwhole, htruth⟩ := Sql.exists_whole hconditions hread hor
    exact ⟨list, whole, hlexed, hwhole, htruth⟩

/-- A WHERE clause is true of a row exactly when each of its conditions, read alone, is. -/
theorem Joinable.isTrue_where {predicates : List Expression}
    (h : Joinable dialect (Expression.conjunction predicates).conjuncts)
    (hread : ∀ predicate ∈ predicates, predicate.IsCondition dialect) :
    ∃ whole,
      readWhere dialect (renderCondition dialect (.conjunction predicates)).toList = some whole ∧
      ∀ row, whole.IsTrue row ↔ ∀ predicate ∈ predicates, predicate.IsTrueAlone dialect row := by
  let kept := predicates.filter fun predicate => !predicate.isAlways
  have hkept (row : List Token → Formula.Truth) :
      (∀ predicate ∈ predicates, predicate.IsTrueAlone dialect row) ↔
        ∀ predicate ∈ kept, predicate.IsTrueAlone dialect row := by
    refine ⟨fun hall predicate hmem => hall predicate (List.mem_of_mem_filter hmem), ?_⟩
    intro hall predicate hmem
    by_cases halways : predicate.isAlways = true
    · rw [Expression.eq_always halways]
      exact Expression.isTrueAlone_always row
    · exact hall predicate (List.mem_filter.mpr ⟨hmem, by simpa using halways⟩)
  simp only [hkept]
  cases hlist : kept with
  | nil =>
      have hconjunction : Expression.conjunction predicates = .always := by
        simp only [Expression.conjunction, kept] at hlist ⊢
        rw [hlist]
      refine ⟨.always, by rw [hconjunction]; cases dialect <;> rfl, fun row => ?_⟩
      simpa using Formula.isTrue_always row
  | cons first rest =>
      have hconjunction : Expression.conjunction predicates = rest.foldl .and first := by
        simp only [Expression.conjunction, kept] at hlist ⊢
        rw [hlist]
      have hfirst : first.isAlways = false := by
        have hmem : first ∈ kept := hlist ▸ List.mem_cons_self
        simpa using (List.mem_filter.mp hmem).2
      have hreadKept : ∀ predicate ∈ first :: rest, predicate.IsCondition dialect := by
        intro predicate hmem
        exact hread predicate (List.mem_of_mem_filter (hlist ▸ hmem))
      rw [hconjunction, Expression.conjuncts_foldl] at h
      obtain ⟨list, whole, hlexed, hwhole, htruth⟩ := h.exists_whole
        (by simp [Expression.conjuncts_ne_nil]) (by
          intro part hpart
          obtain ⟨predicate, hmem, hpart⟩ := List.mem_flatMap.mp hpart
          exact (hreadKept predicate hmem).of_mem_conjuncts hpart)
      refine ⟨whole, ?_, fun row => ?_⟩
      · have hall := Lexed.word (by decide : "WHERE".toList ≠ []) (by decide) hlexed
        rw [hconjunction, renderCondition, if_neg (by simp [Expression.isAlways_foldl_and hfirst]),
          Expression.conjuncts_foldl, readWhere, tokens_eq_some_iff.mpr (by simpa using hall)]
        simpa using hwhole
      · rw [htruth, List.forall_mem_flatMap]
        refine forall_congr' fun predicate => forall_congr' fun hmem => ?_
        have hsublist : predicate.conjuncts.Sublist
            ((first :: rest).flatMap Expression.conjuncts) := by
          exact List.sublist_flatten_of_mem (List.mem_map_of_mem hmem)
        exact ((h.sublist hsublist).isTrueAlone_iff (hreadKept predicate hmem) row).symm

/-! ### The conditions of a batch -/

theorem condition_of_assemble {fieldName : String} {parts : Plan.Contribution} {select : Select}
    (h : Plan.assemble dialect fieldName parts = .ok (some select)) :
    select.condition = .conjunction parts.conditions := by
  unfold Plan.assemble at h
  simp only [List.isEmpty_iff] at h
  split at h
  · simp at h
  · split at h
    · simp at h
    · simp only [Except.ok.injEq, Option.some.injEq] at h
      rw [← h]

/-- The statement of a batch has the condition that the key is one of the batch's. -/
theorem inScope_mem_conditions {root : Plan.Table Plan.Node} {ctx : Plan.StatementContext}
    {parts : Plan.Contribution} {thisKey parentKey : Plan.Column}
    (h : root.contribution ctx none [] = .ok parts)
    (hkeys : root.info.batchKeys? = some (thisKey, parentKey))
    (hpaged : Plan.isPaged root.info = false) :
    Plan.inScope ctx root.info.junctionAlias thisKey.name ∈ parts.conditions := by
  obtain ⟨own, each, hown, -, rfl⟩ := Plan.Table.contribution_eq_ok (by simp) h
  rw [Plan.ownContribution] at hown
  obtain ⟨relation, hrelation, hown⟩ := bind_eq_ok.mp hown
  obtain rfl := Except.ok.inj hown
  suffices hmem : Plan.inScope ctx root.info.junctionAlias thisKey.name ∈ relation.conditions by
    exact List.mem_append_left _ (List.mem_append_right _ hmem)
  cases Plan.relationClauses_cases (by simp) hrelation with
  | root hrelated => simp [Plan.TableInfo.batchKeys?, hrelated] at hkeys
  | batch hrelated hparts =>
      simp only [Plan.TableInfo.batchKeys?, hrelated, Option.some.injEq, Prod.mk.injEq] at hkeys
      obtain ⟨rfl, rfl⟩ := hkeys
      simp only [Plan.batchClauses, hpaged, Bool.false_eq_true, if_false,
        Except.ok.injEq] at hparts
      rw [← hparts]
      simp [Plan.TableInfo.junctionAlias, Plan.TableInfo.junction?, hrelated]
  | junctionBatch hrelated hfetch hparts =>
      simp only [Plan.TableInfo.batchKeys?, hrelated, hfetch, Option.some.injEq,
        Prod.mk.injEq] at hkeys
      obtain ⟨rfl, rfl⟩ := hkeys
      simp only [Plan.junctionBatchClauses, hpaged, Bool.false_eq_true, if_false,
        Except.ok.injEq] at hparts
      rw [← hparts]
      simp [Plan.TableInfo.junctionAlias, Plan.TableInfo.junction?, hrelated]

/-- A WHERE clause is true of a row exactly when each of its conditions, read alone, is,
provided that none has an OR of its own beside another.  So a condition never finds rows
that another excludes; and the rows of a batch without a page have one of its keys. -/
theorem where_true_iff (dialect : Dialect) :
    (∀ predicates : List Expression,
      (∀ predicate ∈ predicates, predicate.IsCondition dialect) →
      Joinable dialect (Expression.conjunction predicates).conjuncts →
      (∀ predicate ∈ predicates, (predicate.formula? dialect).isSome) ∧
      ∃ whole,
        readWhere dialect (renderCondition dialect (.conjunction predicates)).toList =
          some whole ∧
        ∀ row, whole.IsTrue row ↔
          ∀ predicate ∈ predicates, predicate.IsTrueAlone dialect row) ∧
    ∀ (root : Plan.Table Plan.Node) (ctx : Plan.StatementContext) (parts : Plan.Contribution)
      (select : Select) (thisKey parentKey : Plan.Column),
      ctx.dialect = dialect → root.contribution ctx none [] = .ok parts →
      root.statement ctx = .ok (some select) →
      (∀ condition ∈ parts.conditions, condition.IsCondition dialect) →
      Joinable dialect select.condition.conjuncts →
      root.info.batchKeys? = some (thisKey, parentKey) → Plan.isPaged root.info = false →
      ∃ whole, readWhere dialect (renderCondition dialect select.condition).toList = some whole ∧
        ∀ row, whole.IsTrue row →
          (Plan.inScope ctx root.info.junctionAlias thisKey.name).IsTrueAlone dialect row := by
  constructor
  · intro predicates hread hjoinable
    exact ⟨fun predicate hmem => (hread predicate hmem).isSome_formula?,
      hjoinable.isTrue_where hread⟩
  · intro root ctx parts select thisKey parentKey hdialect hparts hselect hread hjoinable hkeys
      hpaged
    obtain ⟨found, hfound, hassemble⟩ := Plan.Table.statement_eq_ok hselect
    obtain rfl : parts = found := Except.ok.inj (hparts.symm.trans hfound)
    have hcondition := condition_of_assemble hassemble
    rw [hcondition] at hjoinable ⊢
    obtain ⟨whole, hwhole, htruth⟩ := hjoinable.isTrue_where hread
    refine ⟨whole, hwhole, fun row hrow => ?_⟩
    exact (htruth row).mp hrow _ (inScope_mem_conditions hparts hkeys hpaged)

/-- Rows fetched by a column, under a condition. -/
def rowsUnder (template : String) : Plan.Table Plan.Node where
  info :=
    { fieldName := "items", typeName := "Item", isAbstract := false, reference := "items",
      aliasName := "t", args := [], many := true, paginate := false, orderBy := none,
      sortKey := none, limit := none, condition := some (.template template),
      relation := some (.batch ⟨"k", "k", "k", none⟩ ⟨"id", "id", "id", none⟩) }
  shared := [.column ⟨"id", "id", "id", none⟩]
  typed := []

def twoKeys : Plan.StatementContext := ⟨.null, .postgres, [.ofNat 1, .ofNat 2]⟩

/-- That the key is one of the batch's is a condition. -/
theorem isCondition_inScope (ctx : Plan.StatementContext) (aliasName column : String) :
    (Plan.inScope ctx aliasName column).IsCondition dialect := by
  refine .isIn (.column aliasName column) ?_ ?_
  · intro other hother
    obtain ⟨value, -, rfl⟩ := List.mem_map.mp hother
    exact .value value
  · simp [Expression.isRaw]

/-- That the key is one of two. -/
def inTwoKeys : List Token :=
  [.name "t", .mark ".", .name "k", .word "IN", .mark "(", .number "1", .mark ",", .number "2",
    .mark ")"]

/-- The column a of a row equal to 1. -/
def firstIsOne : List Token := [.name "t", .mark ".", .word "A", .mark "=", .number "1"]

/-- The column b of a row equal to 2. -/
def secondIsTwo : List Token := [.name "t", .mark ".", .word "B", .mark "=", .number "2"]

theorem formula?_inScope_twoKeys :
    (Plan.inScope twoKeys "t" "k").formula? .postgres = some (.atom inTwoKeys) := rfl

/-- In parentheses the OR stays with its own condition. -/
theorem where_true_iff_parentheses :
    (∃ whole,
      readWhere .postgres (renderCondition .postgres (.conjunction
        [.raw "(\"t\".a = 1 OR \"t\".b = 2)", Plan.inScope twoKeys "t" "k"])).toList =
          some whole ∧
      ∀ row, whole.IsTrue row ↔
        ∀ predicate ∈ [.raw "(\"t\".a = 1 OR \"t\".b = 2)", Plan.inScope twoKeys "t" "k"],
          predicate.IsTrueAlone .postgres row) ∧
    ∃ select whole,
      (rowsUnder "(\x7btable\x7d.a = 1 OR \x7btable\x7d.b = 2)").statement twoKeys =
        .ok (some select) ∧
      readWhere .postgres (renderCondition .postgres select.condition).toList = some whole ∧
      ∀ row, whole.IsTrue row → (Plan.inScope twoKeys "t" "k").IsTrueAlone .postgres row := by
  have hread : ∀ condition ∈
      [.raw "(\"t\".a = 1 OR \"t\".b = 2)", Plan.inScope twoKeys "t" "k"],
      condition.IsCondition .postgres :=
    List.forall_mem_cons.mpr ⟨.raw rfl, List.forall_mem_singleton.mpr (isCondition_inScope ..)⟩
  have hjoinable : Joinable .postgres
      [.raw "(\"t\".a = 1 OR \"t\".b = 2)", Plan.inScope twoKeys "t" "k"] := by
    refine Or.inr (List.forall_mem_cons.mpr ⟨?_, List.forall_mem_singleton.mpr id⟩)
    rintro ⟨list, hlist, hsplit⟩
    obtain rfl := Option.some.inj hlist
    exact hsplit rfl
  obtain ⟨hpredicates, hbatch⟩ := where_true_iff .postgres
  obtain ⟨whole, hwhole, hscope⟩ := hbatch
    (rowsUnder "(\x7btable\x7d.a = 1 OR \x7btable\x7d.b = 2)") twoKeys _ _ _ _ rfl rfl rfl hread
    hjoinable rfl rfl
  exact ⟨(hpredicates _ hread hjoinable).2, _, whole, rfl, hwhole, hscope⟩

/-- An OR of a condition's own lets in rows with other keys than the batch's. -/
theorem exists_row_out_of_scope :
    ∃ select row, (rowsUnder "\x7btable\x7d.a = 1 OR \x7btable\x7d.b = 2").statement twoKeys =
        .ok (some select) ∧
      (∀ condition ∈ select.condition.conjuncts, condition.IsCondition .postgres) ∧
      readWhere .postgres (renderCondition .postgres select.condition).toList =
        some (.or (.atom firstIsOne) (.and (.atom secondIsTwo) (.atom inTwoKeys))) ∧
      (Formula.or (.atom firstIsOne) (.and (.atom secondIsTwo) (.atom inTwoKeys))).IsTrue row ∧
      ¬ (Plan.inScope twoKeys "t" "k").IsTrueAlone .postgres row := by
  refine ⟨_, fun list => some (list = firstIsOne), rfl, ?_, rfl, rfl, ?_⟩
  · exact List.forall_mem_cons.mpr
      ⟨.raw rfl, List.forall_mem_singleton.mpr (isCondition_inScope ..)⟩
  · rintro ⟨formula, hformula, htrue⟩
    rw [formula?_inScope_twoKeys] at hformula
    obtain rfl := Option.some.inj hformula
    simp [Formula.IsTrue, Formula.truth, Formula.atomTruth, inTwoKeys, firstIsOne] at htrue

end JoinPlan.Sql
