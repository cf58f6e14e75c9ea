import JoinPlan.Proofs.Sql.Conjunction

/-!
# What a structured condition says of a row

A condition built from comparisons, lists and constants by AND and OR is written without
parentheses around its outermost chain of AND, and with them everywhere below.  Read by the
rules of the dialect, its text has the truth value of the condition, whatever the row, and
however the database compares values: nothing that names or texts contain can be taken for
something else, and no connective binds otherwise than it was meant to.
-/

namespace JoinPlan.Sql

open Formula (Truth)

/-! ### Search conditions -/

/-- What is compared: a column or a literal. -/
inductive Operand
  | column (table name : String)
  | literal (value : Literal)
deriving DecidableEq, Repr

/-- A search condition as a database reads it. -/
inductive Search
  | constant (truth : Truth)
  | compare (comparison : Comparison) (left right : Operand)
  | isIn (item : Operand) (items : List Literal)
  | not (search : Search)
  | and (left right : Search)
  | or (left right : Search)
deriving DecidableEq, Repr

/-- What the columns of a row hold. -/
abbrev Held := String → String → Literal

/-- How a database compares two values. -/
abbrev Comparing := Comparison → Literal → Literal → Truth

/-- Whether a value equals one of a list; false for the empty list. -/
def isAnyOf (compares : Comparing) (value : Literal) (items : List Literal) : Truth :=
  items.foldr (fun item truth => Truth.or (compares .equal value item) truth) (some false)

def Operand.value (row : Held) : Operand → Literal
  | .column table name => row table name
  | .literal value => value

/-- What a row makes of a search condition. -/
def Search.truth (compares : Comparing) (row : Held) : Search → Truth
  | .constant truth => truth
  | .compare comparison left right => compares comparison (left.value row) (right.value row)
  | .isIn item items => isAnyOf compares (item.value row) items
  | .not search => (search.truth compares row).map (!·)
  | .and left right => Truth.and (left.truth compares row) (right.truth compares row)
  | .or left right => Truth.or (left.truth compares row) (right.truth compares row)

/-! ### Reading them -/

def readSide : List Token → Option Operand
  | [.name table, .mark ".", .name name] => some (.column table name)
  | list => (readLiteral list).map .literal

def comparison? : Token → Option Comparison
  | .mark "=" => some .equal
  | .mark ">" => some .greater
  | .mark "<" => some .less
  | _ => none

/-- Whether a token puts what stands before it in relation to what stands after it. -/
def relates (token : Token) : Bool := token = .word "IN" || (comparison? token).isSome

/-- The literals of a list, which stands in parentheses with commas in it. -/
def readList (list : List Token) : Option (List Literal) :=
  (inside? list).bind fun inner => (inner.splitOn (.mark ",")).mapM readLiteral

/-- The condition that a literal is by itself. -/
def constant? : Literal → Option Search
  | .truth value => some (.constant (some value))
  | .null => some (.constant none)
  | _ => none

/-- What stands between the connectives: a comparison, a look-up in a list or a constant. -/
def readAtom (list : List Token) : Option Search :=
  let left := list.takeWhile fun token => !relates token
  match list.dropWhile fun token => !relates token with
  | [] => (readLiteral left).bind constant?
  | token :: right => do
      let item ← readSide left
      match comparison? token with
      | some comparison => (readSide right).map (.compare comparison item)
      | none => (readList right).map (.isIn item)

def Formula.search? : Formula → Option Search
  | .atom list => readAtom list
  | .not formula => formula.search?.map .not
  | .and left right => do some (.and (← left.search?) (← right.search?))
  | .or left right => do some (.or (← left.search?) (← right.search?))

/-- The search condition of a WHERE clause; without one every row is met. -/
def readSearch (dialect : Dialect) (text : List Char) : Option Search :=
  (readWhere dialect text).bind Formula.search?

/-! ### Structured conditions -/

namespace Expression

inductive IsOperand : Expression → Prop
  | column (table name : String) : IsOperand (.column table name)
  | value (value : Json) : IsOperand (.value value)

/-- A condition without raw text. -/
inductive Structured : Expression → Prop
  | and {left right : Expression} (hleft : Structured left) (hright : Structured right) :
      Structured (.and left right)
  | or {left right : Expression} (hleft : Structured left) (hright : Structured right) :
      Structured (.or left right)
  | compare {left right : Expression} (comparison : Comparison) (hleft : IsOperand left)
      (hright : IsOperand right) : Structured (.compare comparison left right)
  | isIn (table name : String) (items : List Json) :
      Structured (.isIn (.column table name) (items.map .value))
  | constant (truth : Bool) : Structured (.value (.bool truth))

def operandValue (row : Held) : Expression → Literal
  | .column table name => row table name
  | .value literal => .of literal
  | _ => .null

/-- What a row makes of a structured condition. -/
def truth (compares : Comparing) (row : Held) : Expression → Truth
  | .and left right => Truth.and (left.truth compares row) (right.truth compares row)
  | .or left right => Truth.or (left.truth compares row) (right.truth compares row)
  | .compare comparison left right =>
      compares comparison (left.operandValue row) (right.operandValue row)
  | .isIn item items =>
      isAnyOf compares (item.operandValue row) (items.map (operandValue row))
  | .value (.bool truth) => some truth
  | _ => none

end Expression

variable {dialect : Dialect}

/-! ### Atoms are read back -/

/-- A token that columns and literals are written with. -/
def inOperand : Token → Bool
  | .name _ => true
  | .text _ => true
  | .number _ => true
  | .word word => ["NULL", "TRUE", "FALSE"].contains word
  | .mark mark => [".", "-"].contains mark

theorem inOperand_literalTokens (value : Json) :
    ∀ token ∈ literalTokens value, inOperand token = true := by
  cases value with
  | null => decide
  | bool value => cases value <;> decide
  | number value =>
      rw [literalTokens, numeralTokens.eq_def]
      split <;> simp [inOperand]
  | _ => simp [literalTokens, inOperand]

theorem inOperand_columnTokens (table name : String) :
    ∀ token ∈ columnTokens table name, inOperand token = true := by
  simp [columnTokens, inOperand]

theorem not_relates {token : Token} (h : inOperand token = true) : relates token = false := by
  cases token with
  | word word =>
      have hne : word ≠ "IN" := by
        rintro rfl
        simp [inOperand] at h
      simp [relates, comparison?, hne]
  | mark mark =>
      simp only [inOperand, List.contains_cons, List.contains_nil, Bool.or_false, Bool.or_eq_true,
        beq_iff_eq] at h
      rcases h with rfl | rfl <;> rfl
  | _ => rfl

/-- The tokens of an operand. -/
structure OperandTokens (dialect : Dialect) (operand : Expression) (list : List Token) :
    Prop where
  lexed : Lexed dialect (operand.render dialect).toList list
  isPart : IsPart dialect list
  each : ∀ token ∈ list, inOperand token = true
  read : ∃ found, readSide list = some found ∧
    ∀ row, found.value row = operand.operandValue row

theorem readSide_literalTokens (value : Json) :
    readSide (literalTokens value) = some (.literal (.of value)) := by
  have hread := readLiteral_literalTokens value
  unfold readSide
  split
  · rename_i htokens
    rw [htokens] at hread
    simp [readLiteral] at hread
  · rw [hread]
    rfl

theorem operandTokens_column (table name : String) :
    OperandTokens dialect (.column table name) (columnTokens table name) where
  lexed := lexed_columnText dialect table name
  isPart := isPart_columnTokens table name
  each := inOperand_columnTokens table name
  read := ⟨.column table name, rfl, fun _ => rfl⟩

theorem operandTokens_value (value : Json) :
    OperandTokens dialect (.value value) (literalTokens value) where
  lexed := lexed_literal dialect value
  isPart := isPart_literalTokens value
  each := inOperand_literalTokens value
  read := ⟨.literal (.of value), readSide_literalTokens value, fun _ => rfl⟩

theorem Expression.IsOperand.tokens {operand : Expression} (h : operand.IsOperand) :
    ∃ list, OperandTokens dialect operand list := by
  cases h with
  | column table name => exact ⟨_, operandTokens_column table name⟩
  | value value => exact ⟨_, operandTokens_value value⟩

/-- What starts with an operand does not stand in parentheses. -/
theorem OperandTokens.inside?_append {operand : Expression} {list : List Token}
    (h : OperandTokens dialect operand list) (rest : List Token) :
    inside? (list ++ rest) = none := by
  obtain ⟨token, others, rfl, -⟩ := h.isPart.opens
  refine if_neg fun hends => ?_
  have htoken : token = .mark "(" := Option.some.inj hends.1
  simpa [htoken, inOperand] using h.each token List.mem_cons_self

theorem readAtom_related {left right : List Token} {token : Token}
    (hleft : ∀ token ∈ left, inOperand token = true) (htoken : relates token = true) :
    readAtom (left ++ token :: right) = (readSide left).bind fun item =>
      match comparison? token with
      | some comparison => (readSide right).map (.compare comparison item)
      | none => (readList right).map (.isIn item) := by
  have hpos : ∀ token ∈ left, (!relates token) = true := fun token hmem => by
    rw [not_relates (hleft token hmem)]
    rfl
  rw [readAtom, List.takeWhile_append_of_pos hpos, List.dropWhile_append_of_pos hpos,
    List.takeWhile_cons_of_neg (by simp [htoken]), List.dropWhile_cons_of_neg (by simp [htoken]),
    List.append_nil]
  rfl

theorem readAtom_constant (truth : Bool) :
    readAtom (literalTokens (.bool truth)) = some (.constant (some truth)) := by
  cases truth <;> rfl

theorem comparison?_mark (comparison : Comparison) :
    comparison? comparison.mark = some comparison := by
  cases comparison <;> rfl

theorem readList_literals {items : List Json} (hitems : items ≠ []) :
    readList (parenthesised ([Token.mark ","].intercalate (items.map literalTokens))) =
      some (items.map .of) := by
  have hcomma : ∀ list ∈ items.map literalTokens, Token.mark "," ∉ list := by
    intro list hlist hmem
    obtain ⟨value, -, rfl⟩ := List.mem_map.mp hlist
    simpa [inOperand] using inOperand_literalTokens value _ hmem
  have hinside (list : List Token) : inside? (parenthesised list) = some list := by
    simp [inside?, parenthesised]
  have heach : readLiteral ∘ literalTokens = fun value => pure (.of value) :=
    funext readLiteral_literalTokens
  rw [readList, hinside, Option.bind_some,
    List.splitOn_intercalate (Token.mark ",") hcomma (by simpa using hitems), List.mapM_map,
    heach, List.mapM_pure]
  rfl

/-! ### Formulas of conditions -/

theorem readFormula_atom {list : List Token} (hpart : IsPart dialect list)
    (hinside : inside? list = none) : readFormula dialect list = some (.atom list) := by
  obtain ⟨token, rest, rfl, hnot, hquery⟩ := hpart.opens
  rw [readFormula_of_unsplit hpart.unsplit, readFactor, if_neg hnot, hquery, hinside]
  rfl

/-- Parts joined by OR. -/
theorem readFormula_or {left right : List Token} {first second : Formula}
    (hleft : Single dialect left) (hright : Single dialect right)
    (hfirst : readFormula dialect left = some first)
    (hsecond : readFormula dialect right = some second) :
    readFormula dialect (left ++ .word "OR" :: right) = some (.or first second) := by
  rw [readFormula_of_single hleft] at hfirst
  rw [readFormula_of_single hright] at hsecond
  rw [readFormula_eq, splitTop_separator hleft hright]
  simp [hfirst, hsecond, Formula.joined]

theorem single_intercalate_and {lists : List (List Token)} (hlists : lists ≠ [])
    (h : ∀ list ∈ lists, Unsplit dialect list) :
    Single dialect ([Token.word "AND"].intercalate lists) := by
  induction lists with
  | nil => contradiction
  | cons first rest ih =>
      obtain ⟨hfirst, hrest⟩ := List.forall_mem_cons.mp h
      cases rest with
      | nil => simpa using hfirst.single
      | cons second rest =>
          rw [List.intercalate_cons_cons, List.append_assoc]
          exact hfirst.single.and (ih (by simp) hrest)

/-- Parts joined by AND, however many. -/
theorem readFormula_intercalate_and {lists : List (List Token)} {formulas : List Formula}
    (hlists : lists ≠ []) (h : ∀ list ∈ lists, Unsplit dialect list)
    (hread : lists.mapM (readFormula dialect) = some formulas) :
    readFormula dialect ([Token.word "AND"].intercalate lists) =
      Formula.joined .and formulas := by
  have hfactors : lists.mapM (readFactor (readFormula dialect)) = some formulas := by
    rw [← hread]
    exact mapM_congr fun list hlist => (readFormula_of_unsplit (h list hlist)).symm
  rw [readFormula_of_single (single_intercalate_and hlists h), readTerm,
    splitTop_intercalate hlists fun list hlist => h list hlist _ (Or.inl rfl), Option.bind_some,
    hfactors, Option.bind_some]

/-! ### Truth values -/

/-- What makes of every row a truth value. -/
abbrev Meaning := Comparing → Held → Truth

/-- A formula is a search condition with this meaning. -/
def Formula.Means (formula : Formula) (meaning : Meaning) : Prop :=
  ∃ search, formula.search? = some search ∧
    ∀ compares row, search.truth compares row = meaning compares row

def Meaning.and (first second : Meaning) : Meaning :=
  fun compares row => Truth.and (first compares row) (second compares row)

/-- What conditions say together. -/
def together (conditions : List Expression) : Meaning :=
  fun compares row =>
    (conditions.map (Expression.truth compares row)).foldr Truth.and (some true)

theorem and_assoc_truth (first second third : Truth) :
    Truth.and (Truth.and first second) third = Truth.and first (Truth.and second third) := by
  rcases first with _ | _ | _ <;> rcases second with _ | _ | _ <;>
    rcases third with _ | _ | _ <;> rfl

theorem and_true_truth (truth : Truth) : Truth.and truth (some true) = truth := by
  rcases truth with _ | _ | _ <;> rfl

theorem true_and_truth (truth : Truth) : Truth.and (some true) truth = truth := by
  rcases truth with _ | _ | _ <;> rfl

theorem foldr_and_append (firsts seconds : List Truth) :
    (firsts ++ seconds).foldr Truth.and (some true) =
      Truth.and (firsts.foldr Truth.and (some true)) (seconds.foldr Truth.and (some true)) := by
  induction firsts with
  | nil => rw [List.nil_append, List.foldr_nil, true_and_truth]
  | cons first firsts ih => rw [List.cons_append, List.foldr_cons, ih, List.foldr_cons,
      and_assoc_truth]

/-- A condition says what its conjuncts say together. -/
theorem truth_eq_together (condition : Expression) (compares : Comparing) (row : Held) :
    condition.truth compares row = together condition.conjuncts compares row := by
  fun_induction Expression.conjuncts condition with
  | case1 left right ihleft ihright =>
      rw [Expression.truth, ihleft, ihright, together, together, together, List.map_append,
        foldr_and_append]
  | case2 condition => simp [together, and_true_truth]

namespace Formula

variable {first second formula : Formula} {meaning other : Meaning}

theorem Means.and (hfirst : first.Means meaning) (hsecond : second.Means other) :
    (Formula.and first second).Means (meaning.and other) := by
  obtain ⟨left, hleft, htruth⟩ := hfirst
  obtain ⟨right, hright, htruth'⟩ := hsecond
  refine ⟨.and left right, by simp [search?, hleft, hright], fun compares row => ?_⟩
  rw [Search.truth, htruth, htruth', Meaning.and]

theorem Means.congr (h : formula.Means meaning)
    (heq : ∀ compares row, meaning compares row = other compares row) : formula.Means other := by
  obtain ⟨search, hsearch, htruth⟩ := h
  exact ⟨search, hsearch, fun compares row => (htruth compares row).trans (heq compares row)⟩

end Formula

/-! ### The text of a condition -/

/-- A condition is written as a part that is read as a formula with its meaning. -/
structure Understood (dialect : Dialect) (condition : Expression) (list : List Token)
    (formula : Formula) : Prop where
  lexed : Lexed dialect (condition.render dialect).toList list
  isPart : IsPart dialect list
  reads : readFormula dialect list = some formula
  means : formula.Means fun compares row => condition.truth compares row

namespace Understood

variable {left right : Expression} {lefts rights : List Token} {first second : Formula}

theorem written (h : Understood dialect left lefts first) : Written dialect left lefts :=
  h.isPart.written h.lexed

theorem and (hleft : Understood dialect left lefts first)
    (hright : Understood dialect right rights second) :
    Understood dialect (.and left right) (parenthesised (lefts ++ .word "AND" :: rights))
      (.and first second) where
  lexed := (hleft.written.and hright.written).lexed
  isPart := (hleft.written.and hright.written).isPart rfl
  reads := by
    have hread : readFormula dialect ([Token.word "AND"].intercalate [lefts, rights]) =
        Formula.joined .and [first, second] :=
      readFormula_intercalate_and (by simp)
        (by simp [hleft.isPart.unsplit, hright.isPart.unsplit])
        (by simp [hleft.reads, hright.reads])
    exact readFormula_parenthesised (by simpa [Formula.joined] using hread)
  means := hleft.means.and hright.means

theorem or (hleft : Understood dialect left lefts first)
    (hright : Understood dialect right rights second) :
    Understood dialect (.or left right) (parenthesised (lefts ++ .word "OR" :: rights))
      (.or first second) where
  lexed := (hleft.written.or hright.written).lexed
  isPart := (hleft.written.or hright.written).isPart rfl
  reads := readFormula_parenthesised (readFormula_or hleft.isPart.unsplit.single
    hright.isPart.unsplit.single hleft.reads hright.reads)
  means := by
    obtain ⟨left, hleft, htruth⟩ := hleft.means
    obtain ⟨right, hright, htruth'⟩ := hright.means
    refine ⟨.or left right, by simp [Formula.search?, hleft, hright], fun compares row => ?_⟩
    simp only [Search.truth, htruth, htruth', Expression.truth]

theorem of_atom {condition : Expression} {list : List Token} (search : Search)
    (hlexed : Lexed dialect (condition.render dialect).toList list) (hpart : IsPart dialect list)
    (hinside : inside? list = none) (hread : readAtom list = some search)
    (htruth : ∀ compares row, search.truth compares row = condition.truth compares row) :
    Understood dialect condition list (.atom list) where
  lexed := hlexed
  isPart := hpart
  reads := readFormula_atom hpart hinside
  means := ⟨search, hread, htruth⟩

theorem compare (comparison : Comparison) (hleft : OperandTokens dialect left lefts)
    (hright : OperandTokens dialect right rights) :
    Understood dialect (.compare comparison left right) (lefts ++ comparison.mark :: rights)
      (.atom (lefts ++ comparison.mark :: rights)) := by
  obtain ⟨item, hitem, hvalue⟩ := hleft.read
  obtain ⟨other, hother, hvalue'⟩ := hright.read
  have hrelates : relates comparison.mark = true := by cases comparison <;> rfl
  refine of_atom (.compare comparison item other) (hleft.lexed.compare comparison hright.lexed)
    (hleft.isPart.append (.cons (isPlain_mark comparison) hright.isPart.unsplit))
    (hleft.inside?_append _) ?_ ?_
  · rw [readAtom_related hleft.each hrelates, hitem, Option.bind_some, comparison?_mark, hother]
    rfl
  · intro compares row
    rw [Search.truth, Expression.truth, hvalue, hvalue']

theorem constant (truth : Bool) : Understood dialect (.value (.bool truth))
    (literalTokens (.bool truth)) (.atom (literalTokens (.bool truth))) := by
  have htokens : OperandTokens dialect (.value (.bool truth)) _ := operandTokens_value _
  have houtside := htokens.inside?_append []
  rw [List.append_nil] at houtside
  exact of_atom _ htokens.lexed htokens.isPart houtside (readAtom_constant truth) fun _ _ => rfl

theorem isIn (table name : String) {items : List Json} (hitems : items ≠ []) :
    ∃ list, Understood dialect (.isIn (.column table name) (items.map .value)) list
      (.atom list) := by
  have hcolumn : OperandTokens dialect (.column table name) _ := operandTokens_column table name
  have heach : List.Forall₂ (Lexed dialect)
      (((items.map Expression.value).map (Expression.render dialect)).map String.toList)
      (items.map literalTokens) := by
    simp only [List.map_map, List.forall₂_map_left_iff, List.forall₂_map_right_iff,
      List.forall₂_same]
    exact fun value _ => lexed_literal dialect value
  have hunsplit : ∀ list ∈ items.map literalTokens, Unsplit dialect list := by
    intro list hlist
    obtain ⟨value, -, rfl⟩ := List.mem_map.mp hlist
    exact (isPart_literalTokens value).unsplit
  refine ⟨_, of_atom (.isIn (.column table name) (items.map .of))
    (hcolumn.lexed.isIn (by simpa using hitems) heach)
    (hcolumn.isPart.append (unsplit_isIn hunsplit)) (hcolumn.inside?_append _) ?_ ?_⟩
  · rw [readAtom_related hcolumn.each rfl, readList_literals hitems]
    rfl
  · intro compares row
    rw [Search.truth, Expression.truth, List.map_map]
    rfl

end Understood

/-- Every structured condition is understood. -/
theorem Expression.Structured.understood {condition : Expression} (h : condition.Structured) :
    ∃ list formula, Understood dialect condition list formula := by
  induction h with
  | and _ _ ihleft ihright =>
      obtain ⟨lefts, first, hleft⟩ := ihleft
      obtain ⟨rights, second, hright⟩ := ihright
      exact ⟨_, _, hleft.and hright⟩
  | or _ _ ihleft ihright =>
      obtain ⟨lefts, first, hleft⟩ := ihleft
      obtain ⟨rights, second, hright⟩ := ihright
      exact ⟨_, _, hleft.or hright⟩
  | compare comparison hleft hright =>
      obtain ⟨lefts, hleft⟩ := hleft.tokens
      obtain ⟨rights, hright⟩ := hright.tokens
      exact ⟨_, _, .compare comparison hleft hright⟩
  | isIn table name items =>
      by_cases hitems : items = []
      · subst hitems
        -- the empty list is written as the constant
        have hfalse : Understood dialect (.value (.bool false)) _ _ := .constant false
        exact ⟨_, _, hfalse.lexed, hfalse.isPart, hfalse.reads, hfalse.means⟩
      · obtain ⟨list, hlist⟩ := Understood.isIn table name hitems
        exact ⟨_, _, hlist⟩
  | constant truth => exact ⟨_, _, .constant truth⟩

theorem Expression.Structured.of_mem_conjuncts {condition part : Expression}
    (h : condition.Structured) (hpart : part ∈ condition.conjuncts) : part.Structured := by
  fun_induction conjuncts condition with
  | case1 left right ihleft ihright =>
      cases h with
      | and hleft hright =>
          exact (List.mem_append.mp hpart).elim (ihleft hleft) (ihright hright)
  | case2 condition => exact List.mem_singleton.mp hpart ▸ h

/-! ### The text of a WHERE clause -/

theorem Formula.means_foldl {first : Formula} {meaning : Meaning} {formulas : List Formula}
    {conditions : List Expression} (hfirst : first.Means meaning)
    (h : List.Forall₂ (fun formula condition => formula.Means (condition.truth · ·)) formulas
      conditions) :
    (formulas.foldl .and first).Means (meaning.and (together conditions)) := by
  induction h generalizing first meaning with
  | nil => exact hfirst.congr fun compares row => (and_true_truth _).symm
  | cons hsecond _ ih =>
      exact (ih (hfirst.and hsecond)).congr fun compares row => and_assoc_truth _ _ _

/-- What is understood part by part. -/
theorem parts_of_understood {conditions : List Expression} {parts : List (List Token × Formula)}
    (h : List.Forall₂ (fun condition part => Understood dialect condition part.1 part.2)
      conditions parts) :
    List.Forall₂ (Lexed dialect)
        ((conditions.map (Expression.render dialect)).map String.toList) (parts.map Prod.fst) ∧
      (∀ list ∈ parts.map Prod.fst, Unsplit dialect list) ∧
      (parts.map Prod.fst).mapM (readFormula dialect) = some (parts.map Prod.snd) ∧
      List.Forall₂ (fun formula condition => formula.Means (condition.truth · ·))
        (parts.map Prod.snd) conditions := by
  induction h with
  | nil => exact ⟨.nil, by simp, rfl, .nil⟩
  | cons hfirst _ ih =>
      obtain ⟨hlexed, hunsplit, hreads, hmeans⟩ := ih
      refine ⟨.cons hfirst.lexed hlexed, ?_, ?_, .cons hfirst.means hmeans⟩
      · exact List.forall_mem_cons.mpr ⟨hfirst.isPart.unsplit, hunsplit⟩
      · rw [List.map_cons, List.mapM_cons, hfirst.reads, hreads]
        rfl

/-- Conditions joined by AND are understood as what they say together. -/
theorem exists_joined (dialect : Dialect) {conditions : List Expression}
    (hconditions : conditions ≠ [])
    (h : ∀ condition ∈ conditions, condition.Structured) :
    ∃ list formula,
      Lexed dialect (" AND ".intercalate (conditions.map (Expression.render dialect))).toList list ∧
      readFormula dialect list = some formula ∧ formula.Means (together conditions) := by
  have hunderstood : ∀ condition ∈ conditions, ∃ part : List Token × Formula,
      Understood dialect condition part.1 part.2 := by
    intro condition hcondition
    obtain ⟨list, formula, hpart⟩ : ∃ list formula, Understood dialect condition list formula :=
      (h condition hcondition).understood
    exact ⟨(list, formula), hpart⟩
  obtain ⟨parts, hparts⟩ := exists_forall₂ hunderstood
  obtain ⟨hlexed, hunsplit, hreads, hmeans⟩ := parts_of_understood hparts
  cases hparts with
  | nil => contradiction
  | @cons condition part conditions parts _ _ =>
      refine ⟨[Token.word "AND"].intercalate ((part :: parts).map Prod.fst),
        (parts.map Prod.snd).foldl .and part.2, ?_, ?_, ?_⟩
      · rw [String.toList_intercalate]
        exact Lexed.intercalate_and hlexed
      · rw [readFormula_intercalate_and (by simp) hunsplit hreads]
        rfl
      · cases hmeans with
        | cons hfirst hrest => exact (Formula.means_foldl hfirst hrest).congr fun _ _ => rfl

/-- The text of a WHERE clause is read as a search condition that has the truth value of the
condition it was written for, for every row. -/
theorem where_means_condition (dialect : Dialect) {condition : Expression}
    (h : condition.Structured) :
    ∃ search, readSearch dialect (renderCondition dialect condition).toList = some search ∧
      ∀ compares row, search.truth compares row = condition.truth compares row := by
  by_cases halways : condition.isAlways = true
  · obtain rfl := Expression.eq_always halways
    exact ⟨.constant (some true), by cases dialect <;> rfl, fun _ _ => rfl⟩
  · obtain ⟨list, formula, hlexed, hread, search, hsearch, htruth⟩ :=
      exists_joined dialect condition.conjuncts_ne_nil fun part hpart => h.of_mem_conjuncts hpart
    have hall := Lexed.word (by decide : "WHERE".toList ≠ []) (by decide) hlexed
    refine ⟨search, ?_, fun compares row => ?_⟩
    · rw [readSearch, renderCondition, if_neg halways, readWhere,
        tokens_eq_some_iff.mpr (by simpa using hall)]
      simpa [hread] using hsearch
    · rw [htruth, truth_eq_together]

/-- Connectives in quotes, an OR below the outermost AND and an empty list. -/
def nestedCondition : Expression :=
  .and
    (.or (.compare .equal (.column "t" "a\" OR \"b") (.value (.string "x' OR '\\")))
      (.and (.isIn (.column "t" "k") []) (.value (.bool true))))
    (.and (.compare .less (.column "t" "n") (.value (.number (.int (-5)))))
      (.or (.isIn (.column "t" "k") [.value .null, .value (.array [.string "), ("])])
        (.value (.bool false))))

theorem where_means_condition_nested :
    nestedCondition.Structured ∧
      ∃ search, readSearch .mysql (renderCondition .mysql nestedCondition).toList = some search ∧
        ∀ compares row,
          search.truth compares row = nestedCondition.truth compares row := by
  have h : nestedCondition.Structured :=
    .and
      (.or (.compare .equal (.column _ _) (.value _)) (.and (.isIn "t" "k" []) (.constant true)))
      (.and (.compare .less (.column _ _) (.value _))
        (.or (.isIn "t" "k" [.null, .array [.string "), ("]]) (.constant false)))
  exact ⟨h, where_means_condition .mysql h⟩

end JoinPlan.Sql
