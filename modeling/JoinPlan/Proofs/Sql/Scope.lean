import JoinPlan.Sql.Page
import JoinPlan.Proofs.Plan.SelectList

/-!
# Relations in scope

The FROM and JOIN clauses of a statement introduce relations under aliases, one after the
other.  A clause sees the relations before it and its own, a subquery those before it and
the ones it introduces itself, and everything else in a statement sees them all.  Raw
texts are not looked into; what may stand where is a parameter.
-/

namespace JoinPlan.Sql

/-- Which raw texts may stand where some aliases are in scope. -/
abbrev Licence := List String → String → Prop

/-- What may stand somewhere may stand where more aliases are in scope. -/
def Licence.Monotone (licence : Licence) : Prop :=
  ∀ scope others sql, scope ⊆ others → licence scope sql → licence others sql

/-! ### What a statement introduces -/

def TableClause.aliasName : TableClause → String
  | .source origin => origin.aliasName
  | .join joined => joined.aliasName

/-- The aliases that clauses introduce. -/
def introduced (clauses : List TableClause) : List String :=
  clauses.map TableClause.aliasName

@[simp]
theorem introduced_nil : introduced [] = [] := rfl

@[simp]
theorem introduced_cons (clause : TableClause) (rest : List TableClause) :
    introduced (clause :: rest) = clause.aliasName :: introduced rest := rfl

@[simp]
theorem introduced_append (first second : List TableClause) :
    introduced (first ++ second) = introduced first ++ introduced second :=
  List.map_append

/-- The subquery of a clause, with its alias. -/
def TableClause.subquery? : TableClause → Option (String × Select)
  | .source (.select select aliasName) => some (aliasName, select)
  | .source (.table _ _) | .source (.values _ _ _) => none
  | .join (.leftLateral select aliasName _) => some (aliasName, select)
  | .join (.lateral select aliasName _) => some (aliasName, select)
  | .join (.left _ _ _) => none

/-- The clauses of a statement, its FROM clause first. -/
def Select.clauses (select : Select) : List TableClause :=
  select.source.toList.map .source ++ select.joins.map .join

/-- Clauses that put one relation after FROM and join others to it. -/
inductive StartsWithSource : List TableClause → Prop
  | mk (source : Source) (joins : List Join) :
      StartsWithSource (.source source :: joins.map .join)

/-- Clauses that only join relations to what is there. -/
def JoinsOnly (clauses : List TableClause) : Prop :=
  ∃ joins : List Join, clauses = joins.map .join

theorem JoinsOnly.append {first second : List TableClause} (hfirst : JoinsOnly first)
    (hsecond : JoinsOnly second) : JoinsOnly (first ++ second) := by
  obtain ⟨joins, rfl⟩ := hfirst
  obtain ⟨others, rfl⟩ := hsecond
  exact ⟨joins ++ others, List.map_append.symm⟩

theorem StartsWithSource.append {first second : List TableClause}
    (hfirst : StartsWithSource first) (hsecond : JoinsOnly second) :
    StartsWithSource (first ++ second) := by
  obtain ⟨source, joins⟩ := hfirst
  obtain ⟨others, rfl⟩ := hsecond
  rw [List.cons_append, ← List.map_append]
  exact .mk source (joins ++ others)

theorem Select.place_joins (joins : List Join) (select : Select) :
    select.place (joins.map .join) = (true, { select with joins := select.joins ++ joins }) := by
  induction joins generalizing select with
  | nil =>
      cases select
      simp [place]
  | cons join rest ih => simp [place, ih]

/-- Clauses that start with FROM are put in place as they are. -/
theorem StartsWithSource.exists_place {clauses : List TableClause}
    (h : StartsWithSource clauses) (list : SelectList) :
    ∃ select, (Select.ofList list).place clauses = (true, select) ∧ select.clauses = clauses ∧
      select.list = list := by
  obtain ⟨source, joins⟩ := h
  refine ⟨{ Select.ofList list with source := some source, joins := joins }, ?_, ?_, rfl⟩
  · simp [Select.place, Select.ofList, Select.place_joins]
  · simp [Select.clauses]

/-! ### Expressions -/

mutual

/-- An expression that reads relations in scope only. -/
def Expression.Scoped (licence : Licence) (scope : List String) : Expression → Prop
  | .and left right => left.Scoped licence scope ∧ right.Scoped licence scope
  | .or left right => left.Scoped licence scope ∧ right.Scoped licence scope
  | .compare _ left right => left.Scoped licence scope ∧ right.Scoped licence scope
  | .isIn item items => item.Scoped licence scope ∧ Expression.AllScoped licence scope items
  | .column table _ => table ∈ scope
  | .compositeKey table _ => table ∈ scope
  | .rowCount | .value _ => True
  | .raw sql => licence scope sql

def Expression.AllScoped (licence : Licence) (scope : List String) : List Expression → Prop
  | [] => True
  | item :: rest => item.Scoped licence scope ∧ Expression.AllScoped licence scope rest

end

def SelectList.Scoped (licence : Licence) (scope : List String) : SelectList → Prop
  | .items list => ∀ item ∈ list, item.2.Scoped licence scope
  | .star table => table ∈ scope
  | .both first second => first.Scoped licence scope ∧ second.Scoped licence scope

section Expression

variable {licence : Licence} {scope others : List String}

mutual

theorem Expression.Scoped.mono (hlicence : licence.Monotone) (hsub : scope ⊆ others) :
    ∀ {expression : Expression}, expression.Scoped licence scope →
      expression.Scoped licence others
  | .and _ _, h | .or _ _, h | .compare _ _ _, h =>
      ⟨Expression.Scoped.mono hlicence hsub h.1, Expression.Scoped.mono hlicence hsub h.2⟩
  | .isIn _ _, h =>
      ⟨Expression.Scoped.mono hlicence hsub h.1, Expression.AllScoped.mono hlicence hsub h.2⟩
  | .column _ _, h | .compositeKey _ _, h => hsub h
  | .rowCount, _ | .value _, _ => trivial
  | .raw _, h => hlicence _ _ _ hsub h

theorem Expression.AllScoped.mono (hlicence : licence.Monotone) (hsub : scope ⊆ others) :
    ∀ {items : List Expression}, Expression.AllScoped licence scope items →
      Expression.AllScoped licence others items
  | [], _ => trivial
  | _ :: _, h =>
      ⟨Expression.Scoped.mono hlicence hsub h.1, Expression.AllScoped.mono hlicence hsub h.2⟩

end

theorem Expression.allScoped_values (values : List Json) :
    Expression.AllScoped licence scope (values.map .value) := by
  induction values with
  | nil => trivial
  | cons value rest ih => exact ⟨trivial, ih⟩

theorem Expression.scoped_foldl_and {rest : List Expression} {first : Expression}
    (hfirst : first.Scoped licence scope)
    (hrest : ∀ condition ∈ rest, condition.Scoped licence scope) :
    (rest.foldl .and first).Scoped licence scope := by
  induction rest generalizing first with
  | nil => exact hfirst
  | cons condition rest ih =>
      rw [List.forall_mem_cons] at hrest
      exact ih ⟨hfirst, hrest.1⟩ hrest.2

theorem Expression.scoped_conjunction {conditions : List Expression}
    (h : ∀ condition ∈ conditions, condition.Scoped licence scope) :
    (Expression.conjunction conditions).Scoped licence scope := by
  have hkept : ∀ condition ∈ conditions.filter fun condition => !condition.isAlways,
      condition.Scoped licence scope :=
    fun condition hmem => h condition (List.mem_of_mem_filter hmem)
  unfold conjunction
  split
  · trivial
  · rename_i first rest hfilter
    rw [hfilter, List.forall_mem_cons] at hkept
    exact scoped_foldl_and hkept.1 hkept.2

end Expression

/-! ### Statements -/

mutual

/-- A statement in which everything is in scope, given the relations outside of it. -/
def Select.Scoped (licence : Licence) (outside : List String) : Select → Prop
  | ⟨list, source, joins, condition, order, _, _⟩ =>
      let afterSource := outside ++ (source.map Source.aliasName).toList
      let inside := afterSource ++ joins.map Join.aliasName
      sourceScoped licence outside source ∧ joinsScoped licence afterSource joins ∧
        list.Scoped licence inside ∧ condition.Scoped licence inside ∧
        ∀ term ∈ order, term.target.Scoped licence inside

def sourceScoped (licence : Licence) (outside : List String) : Option Source → Prop
  | none => True
  | some source => source.Scoped licence outside

def Source.Scoped (licence : Licence) (outside : List String) : Source → Prop
  | .select select _ => select.Scoped licence outside
  | .table _ _ | .values _ _ _ => True

def joinsScoped (licence : Licence) (scope : List String) : List Join → Prop
  | [] => True
  | join :: rest =>
      join.Scoped licence scope ∧ joinsScoped licence (scope ++ [join.aliasName]) rest

/-- A join in which everything is in scope, given the relations before it. -/
def Join.Scoped (licence : Licence) (scope : List String) : Join → Prop
  | .left _ aliasName on => on.Scoped licence (scope ++ [aliasName])
  | .leftLateral select aliasName on =>
      select.Scoped licence scope ∧ on.Scoped licence (scope ++ [aliasName])
  | .lateral select aliasName on =>
      select.Scoped licence scope ∧ on.Scoped licence (scope ++ [aliasName])

end

def TableClause.Scoped (licence : Licence) (scope : List String) : TableClause → Prop
  | .source origin => origin.Scoped licence scope
  | .join joined => joined.Scoped licence scope

/-- Clauses each of which sees the relations introduced before it. -/
def ClausesScoped (licence : Licence) : List String → List TableClause → Prop
  | _, [] => True
  | scope, clause :: rest =>
      clause.Scoped licence scope ∧ ClausesScoped licence (scope ++ [clause.aliasName]) rest

section Statement

variable {licence : Licence} {scope : List String}

theorem ClausesScoped.append {first second : List TableClause}
    (hfirst : ClausesScoped licence scope first)
    (hsecond : ClausesScoped licence (scope ++ introduced first) second) :
    ClausesScoped licence scope (first ++ second) := by
  induction first generalizing scope with
  | nil => simpa using hsecond
  | cons clause rest ih => exact ⟨hfirst.1, ih hfirst.2 (by simpa using hsecond)⟩

theorem joinsScoped_of_clauses {joins : List Join}
    (h : ClausesScoped licence scope (joins.map .join)) : joinsScoped licence scope joins := by
  induction joins generalizing scope with
  | nil => trivial
  | cons join rest ih => exact ⟨h.1, ih h.2⟩

/-- A statement is in scope when its clauses are, one after the other, and the rest sees
what they introduce. -/
theorem Select.scoped_of_clauses {select : Select} (hsource : StartsWithSource select.clauses)
    (hclauses : ClausesScoped licence scope select.clauses)
    (hlist : select.list.Scoped licence (scope ++ introduced select.clauses))
    (hcondition : select.condition.Scoped licence (scope ++ introduced select.clauses))
    (horder : ∀ term ∈ select.order,
      term.target.Scoped licence (scope ++ introduced select.clauses)) :
    select.Scoped licence scope := by
  obtain ⟨list, source, joins, condition, order, limit, offset⟩ := select
  cases source with
  | none =>
      generalize hempty : Select.clauses _ = clauses at hsource
      obtain ⟨source, others⟩ := hsource
      cases joins <;> simp [clauses] at hempty
  | some source =>
      have hintroduced : introduced (Select.clauses
          ⟨list, some source, joins, condition, order, limit, offset⟩) =
          source.aliasName :: joins.map Join.aliasName := by
        simp [clauses, introduced, TableClause.aliasName, Function.comp_def]
      rw [hintroduced, List.append_cons] at hlist hcondition horder
      exact ⟨hclauses.1, joinsScoped_of_clauses hclauses.2, hlist, hcondition, horder⟩

end Statement

end JoinPlan.Sql
