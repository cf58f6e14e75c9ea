import JoinPlan.Proofs.Failure
import JoinPlan.Proofs.Sql.Brackets

/-!
# How a condition is read

AND binds tighter than OR, and NOT tighter than AND; parentheses group.  What stands
between the connectives is an atom: its meaning is the database's own affair, but whether
it is true, false or unknown of a row decides about the whole in the logic of three truth
values.  MySQL's further connectives are not read.  Conditions without an OR of their own
can be joined by AND as they are; another condition only in parentheses.
-/

namespace JoinPlan.Sql

/-! ### Formulas -/

inductive Formula
  | atom (list : List Token)
  | not (formula : Formula)
  | and (left right : Formula)
  | or (left right : Formula)
deriving DecidableEq, Repr

namespace Formula

/-- True, false or unknown. -/
abbrev Truth := Option Bool

def Truth.and : Truth → Truth → Truth
  | some false, _ => some false
  | _, some false => some false
  | some true, some true => some true
  | _, _ => none

def Truth.or : Truth → Truth → Truth
  | some true, _ => some true
  | _, some true => some true
  | some false, some false => some false
  | _, _ => none

/-- What a row makes of an atom: the constants are the same for every row. -/
def atomTruth (row : List Token → Truth) (list : List Token) : Truth :=
  if list = [.word "TRUE"] then some true
  else if list = [.word "FALSE"] then some false
  else if list = [.word "NULL"] then none
  else row list

/-- What a row makes of a formula. -/
def truth (row : List Token → Truth) : Formula → Truth
  | .atom list => atomTruth row list
  | .not formula => (formula.truth row).map (!·)
  | .and left right => Truth.and (left.truth row) (right.truth row)
  | .or left right => Truth.or (left.truth row) (right.truth row)

/-- The row meets the condition. -/
def IsTrue (row : List Token → Truth) (formula : Formula) : Prop := formula.truth row = some true

/-- The condition every row meets. -/
def always : Formula := .atom [.word "TRUE"]

theorem isTrue_always (row : List Token → Truth) : always.IsTrue row := rfl

theorem isTrue_and {row : List Token → Truth} {left right : Formula} :
    (Formula.and left right).IsTrue row ↔ left.IsTrue row ∧ right.IsTrue row := by
  simp only [IsTrue, truth]
  cases left.truth row with
  | none => cases right.truth row with
    | none => decide
    | some value => cases value <;> decide
  | some first => cases right.truth row with
    | none => cases first <;> decide
    | some value => cases first <;> cases value <;> decide

/-- Formulas joined from the left by a connective. -/
def joined (connective : Formula → Formula → Formula) : List Formula → Option Formula
  | [] => none
  | first :: rest => some (rest.foldl connective first)

theorem isTrue_joined_and {row : List Token → Truth} {list : List Formula} {formula : Formula}
    (h : joined .and list = some formula) :
    formula.IsTrue row ↔ ∀ part ∈ list, part.IsTrue row := by
  cases list with
  | nil => simp [joined] at h
  | cons first rest =>
      obtain rfl := Option.some.inj h
      induction rest generalizing first with
      | nil => simp
      | cons second rest ih =>
          rw [List.foldl_cons, ih (first.and second) rfl]
          simp [isTrue_and, and_assoc]

end Formula

/-! ### Conditions -/

/-- The words a query starts with; as a part of a condition it stands in parentheses. -/
def startsQuery (token : Token) : Bool :=
  [Token.word "SELECT", .word "VALUES", .word "WITH", .word "TABLE"].contains token

/-- What is between an opening and a closing parenthesis at the ends. -/
def inside? (list : List Token) : Option (List Token) :=
  if list.head? = some (.mark "(") ∧ list.tail.getLast? = some (.mark ")") then
    some list.tail.dropLast
  else none

/-- What stands between the connectives AND.  What is in parentheses but no condition is
an atom with them. -/
def readFactor (readInner : List Token → Option Formula) : List Token → Option Formula
  | [] => none
  | token :: rest =>
      if token = .word "NOT" then (readFactor readInner rest).map .not
      else if startsQuery token then none
      else some (((inside? (token :: rest)).bind readInner).getD (.atom (token :: rest)))

/-- What stands between the connectives OR. -/
def readTerm (dialect : Dialect) (readInner : List Token → Option Formula)
    (list : List Token) : Option Formula :=
  (splitTop dialect (.word "AND") [] list).bind fun factors =>
    (factors.mapM (readFactor readInner)).bind (Formula.joined .and)

/-- The formula of a condition with fewer tokens than the bound. -/
def readWithin (dialect : Dialect) : Nat → List Token → Option Formula
  | 0, _ => none
  | bound + 1, list =>
      (splitTop dialect (.word "OR") [] list).bind fun terms =>
        (terms.mapM (readTerm dialect (readWithin dialect bound))).bind (Formula.joined .or)

/-- The formula of a condition. -/
def readFormula (dialect : Dialect) (list : List Token) : Option Formula :=
  readWithin dialect (list.length + 1) list

def readCondition (dialect : Dialect) (text : List Char) : Option Formula :=
  (tokens dialect text).bind (readFormula dialect)

/-- The condition of a WHERE clause; without one every row is met. -/
def readWhere (dialect : Dialect) (text : List Char) : Option Formula :=
  (tokens dialect text).bind fun list =>
    match list with
    | [] => some .always
    | token :: rest => if token = .word "WHERE" then readFormula dialect rest else none

/-! ### The bound does not matter -/

variable {dialect : Dialect} {list left right : List Token}

theorem length_inside?_lt {inner : List Token} (h : inside? list = some inner) :
    inner.length < list.length := by
  simp only [inside?, Option.ite_none_right_eq_some, Option.some.injEq] at h
  obtain ⟨⟨hhead, -⟩, rfl⟩ := h
  obtain ⟨rest, rfl⟩ := List.head?_eq_some_iff.mp hhead
  simp only [List.tail_cons, List.length_dropLast, List.length_cons]
  omega

section Congr

variable {first second : List Token → Option Formula}

theorem readFactor_congr
    (h : ∀ inner : List Token, inner.length < list.length → first inner = second inner) :
    readFactor first list = readFactor second list := by
  induction list with
  | nil => rfl
  | cons token rest ih =>
      have hrest := ih fun inner hinner => h inner (Nat.lt_succ_of_lt hinner)
      have hinside :
          (inside? (token :: rest)).bind first = (inside? (token :: rest)).bind second := by
        cases hinner : inside? (token :: rest) with
        | none => rfl
        | some inner => exact h inner (length_inside?_lt hinner)
      rw [readFactor, readFactor, hrest, hinside]

theorem readTerm_congr
    (h : ∀ inner : List Token, inner.length < list.length → first inner = second inner) :
    readTerm dialect first list = readTerm dialect second list := by
  unfold readTerm
  cases hsplit : splitTop dialect (.word "AND") [] list with
  | none => rfl
  | some factors =>
      have hfactors : factors.mapM (readFactor first) = factors.mapM (readFactor second) :=
        mapM_congr fun factor hfactor => readFactor_congr fun inner hinner =>
          h inner (Nat.lt_of_lt_of_le hinner (length_le_of_mem_splitTop hsplit hfactor))
      simp only [Option.bind_some, hfactors]

end Congr

theorem readWithin_eq {bound other : Nat} (hbound : list.length < bound)
    (hother : list.length < other) :
    readWithin dialect bound list = readWithin dialect other list := by
  induction bound generalizing other list with
  | zero => exact absurd hbound (Nat.not_lt_zero _)
  | succ bound ih =>
      obtain ⟨other, rfl⟩ := Nat.exists_eq_add_one_of_ne_zero (Nat.ne_zero_of_lt hother)
      rw [readWithin, readWithin]
      cases hsplit : splitTop dialect (.word "OR") [] list with
      | none => rfl
      | some terms =>
          have hterms : terms.mapM (readTerm dialect (readWithin dialect bound)) =
              terms.mapM (readTerm dialect (readWithin dialect other)) := by
            refine mapM_congr fun term hterm => readTerm_congr fun inner hinner => ?_
            have hlength := length_le_of_mem_splitTop hsplit hterm
            exact ih (by omega) (by omega)
          simp only [Option.bind_some, hterms]

/-- The formula of a condition, without a bound. -/
theorem readFormula_eq (list : List Token) : readFormula dialect list =
    (splitTop dialect (.word "OR") [] list).bind fun terms =>
      (terms.mapM (readTerm dialect (readFormula dialect))).bind (Formula.joined .or) := by
  rw [readFormula, readWithin]
  cases hsplit : splitTop dialect (.word "OR") [] list with
  | none => rfl
  | some terms =>
      have hterms : terms.mapM (readTerm dialect (readWithin dialect list.length)) =
          terms.mapM (readTerm dialect (readFormula dialect)) := by
        refine mapM_congr fun term hterm => readTerm_congr fun inner hinner => ?_
        have hlength := length_le_of_mem_splitTop hsplit hterm
        exact readWithin_eq (by omega) (Nat.lt_succ_self _)
      simp only [Option.bind_some, hterms]

/-! ### Conditions that can be read -/

theorem isSome_bind_joined {α : Type} {items : List α} (hitems : items ≠ [])
    (f : α → Option Formula) (connective : Formula → Formula → Formula) :
    ((items.mapM f).bind (Formula.joined connective)).isSome ↔
      ∀ item ∈ items, (f item).isSome := by
  obtain ⟨item, items, rfl⟩ := List.exists_cons_of_ne_nil hitems
  rw [← isSome_mapM, List.mapM_cons]
  cases f item with
  | none => simp
  | some image => cases items.mapM f <;> simp [Formula.joined]

/-- A text that can be read as a condition. -/
def Reads (dialect : Dialect) (list : List Token) : Prop := (readFormula dialect list).isSome

theorem isSome_readTerm_iff {readInner : List Token → Option Formula} :
    (readTerm dialect readInner list).isSome ↔
      ∃ factors, splitTop dialect (.word "AND") [] list = some factors ∧
        ∀ factor ∈ factors, (readFactor readInner factor).isSome := by
  rw [readTerm]
  cases hsplit : splitTop dialect (.word "AND") [] list with
  | none => simp
  | some factors => simp [isSome_bind_joined (splitTop_ne_nil hsplit)]

theorem reads_iff : Reads dialect list ↔
    ∃ terms, splitTop dialect (.word "OR") [] list = some terms ∧
      ∀ term ∈ terms, (readTerm dialect (readFormula dialect) term).isSome := by
  rw [Reads, readFormula_eq]
  cases hsplit : splitTop dialect (.word "OR") [] list with
  | none => simp
  | some terms => simp [isSome_bind_joined (splitTop_ne_nil hsplit)]

/-! ### Connectives between conditions -/

theorem isSome_readTerm_and {readInner : List Token → Option Formula}
    (hleft : (readTerm dialect readInner left).isSome)
    (hright : (readTerm dialect readInner right).isSome) :
    (readTerm dialect readInner (left ++ .word "AND" :: right)).isSome := by
  obtain ⟨lefts, hlefts, hleft⟩ := isSome_readTerm_iff.mp hleft
  obtain ⟨rights, hrights, hright⟩ := isSome_readTerm_iff.mp hright
  refine isSome_readTerm_iff.mpr ⟨lefts ++ rights, splitTop_separator hlefts hrights, ?_⟩
  intro factor hfactor
  exact (List.mem_append.mp hfactor).elim (hleft factor) (hright factor)

theorem Reads.or (hleft : Reads dialect left) (hright : Reads dialect right) :
    Reads dialect (left ++ .word "OR" :: right) := by
  obtain ⟨lefts, hlefts, hleft⟩ := reads_iff.mp hleft
  obtain ⟨rights, hrights, hright⟩ := reads_iff.mp hright
  refine reads_iff.mpr ⟨lefts ++ rights, splitTop_separator hlefts hrights, ?_⟩
  intro term hterm
  exact (List.mem_append.mp hterm).elim (hleft term) (hright term)

theorem Reads.and (hleft : Reads dialect left) (hright : Reads dialect right) :
    Reads dialect (left ++ .word "AND" :: right) := by
  obtain ⟨lefts, hlefts, hleft⟩ := reads_iff.mp hleft
  obtain ⟨rights, hrights, hright⟩ := reads_iff.mp hright
  obtain ⟨first, others, rfl⟩ := List.exists_cons_of_ne_nil (splitTop_ne_nil hrights)
  obtain ⟨hfirst, hothers⟩ := List.forall_mem_cons.mp hright
  refine reads_iff.mpr ⟨_, by rw [splitTop_or_and hlefts, hrights]; rfl, ?_⟩
  intro term hterm
  rcases mem_glue (splitTop_ne_nil hlefts) hterm with hterm | hterm | ⟨last, hlast, rfl⟩
  · exact hleft term hterm
  · exact hothers term hterm
  · exact isSome_readTerm_and (hleft last hlast) hfirst

theorem readFormula_of_single (h : Single dialect list) :
    readFormula dialect list = readTerm dialect (readFormula dialect) list := by
  rw [readFormula_eq, h]
  cases hterm : readTerm dialect (readFormula dialect) list <;> simp [hterm, Formula.joined]

theorem readFormula_of_unsplit (h : Unsplit dialect list) :
    readFormula dialect list = readFactor (readFormula dialect) list := by
  rw [readFormula_of_single h.single, readTerm, h _ (Or.inl rfl)]
  cases hfactor : readFactor (readFormula dialect) list <;> simp [hfactor, Formula.joined]

/-- Parentheses around a condition do not change it. -/
theorem readFormula_parenthesised {formula : Formula}
    (h : readFormula dialect list = some formula) :
    readFormula dialect (parenthesised list) = some formula := by
  have hterms : (splitTop dialect (.word "OR") [] list).isSome := by
    obtain ⟨terms, hterms, -⟩ := reads_iff.mp (Option.isSome_of_eq_some h : Reads dialect list)
    rw [hterms]
    rfl
  rw [readFormula_of_unsplit (.parenthesised hterms), parenthesised, readFactor]
  simp [inside?, startsQuery, h]

/-! ### What AND joins is true together -/

theorem exists_of_readTerm {readInner : List Token → Option Formula} {formula : Formula}
    (h : readTerm dialect readInner list = some formula) :
    ∃ factors formulas, splitTop dialect (.word "AND") [] list = some factors ∧
      factors.mapM (readFactor readInner) = some formulas ∧
      Formula.joined .and formulas = some formula := by
  obtain ⟨factors, hfactors, h⟩ := Option.bind_eq_some_iff.mp h
  obtain ⟨formulas, hformulas, h⟩ := Option.bind_eq_some_iff.mp h
  exact ⟨factors, formulas, hfactors, hformulas, h⟩

theorem readTerm_and {readInner : List Token → Option Formula} {first second : Formula}
    (hleft : readTerm dialect readInner left = some first)
    (hright : readTerm dialect readInner right = some second) :
    ∃ whole, readTerm dialect readInner (left ++ .word "AND" :: right) = some whole ∧
      ∀ row, whole.IsTrue row ↔ first.IsTrue row ∧ second.IsTrue row := by
  obtain ⟨whole, hwhole⟩ := Option.isSome_iff_exists.mp
    (isSome_readTerm_and (Option.isSome_of_eq_some hleft) (Option.isSome_of_eq_some hright))
  obtain ⟨lefts, firsts, hlefts, hfirsts, hfirst⟩ := exists_of_readTerm hleft
  obtain ⟨rights, seconds, hrights, hseconds, hsecond⟩ := exists_of_readTerm hright
  refine ⟨whole, hwhole, fun row => ?_⟩
  have hjoined : Formula.joined .and (firsts ++ seconds) = some whole := by
    rw [readTerm, splitTop_separator hlefts hrights, Option.bind_some, List.mapM_append, hfirsts,
      hseconds] at hwhole
    simpa using hwhole
  rw [Formula.isTrue_joined_and hjoined, Formula.isTrue_joined_and hfirst,
    Formula.isTrue_joined_and hsecond, List.forall_mem_append]

/-- Conditions without an OR of their own, joined by AND, are true together. -/
theorem readFormula_and {first second : Formula} (hleft : Single dialect left)
    (hright : Single dialect right) (hfirst : readFormula dialect left = some first)
    (hsecond : readFormula dialect right = some second) :
    ∃ whole, readFormula dialect (left ++ .word "AND" :: right) = some whole ∧
      ∀ row, whole.IsTrue row ↔ first.IsTrue row ∧ second.IsTrue row := by
  rw [readFormula_of_single hleft] at hfirst
  rw [readFormula_of_single hright] at hsecond
  rw [readFormula_of_single (hleft.and hright)]
  exact readTerm_and hfirst hsecond

end JoinPlan.Sql
