import JoinPlan.Proofs.Data.Rounds

/-!
# Statements of a request

A request sends the statement of its root, and then the rounds below the data that the
answer gives.  So it sends at most one statement for every boundary of the plan, however
many rows there are, and the data it ends with is complete.
-/

namespace JoinPlan.Plan

open Json.Pointer (ofPath)

/-- The sessions that go through all stages, with the plan that each is for. -/
inductive Pipeline (executor : Executor) (options : RunOptions) (env : Environment) :
    Except PlanError (Table Node) → Session Json → Prop
  | request (request : Request) :
      Pipeline executor options env (compile env options.minify request)
        (run executor options env request)
  | node (typeName : String) (found : NodeCondition) (request : Request) :
      Pipeline executor options env
        (compileNode env options.dialect options.minify typeName found request)
        (fetchNode executor options env typeName found request)

/-- What is sent for a plan: `Sends root first rounds` when `first` are the statements of
the root and the rounds follow. -/
inductive Sends (executor : Executor) (dialect : Dialect) (context : Context)
    (root : Table Node) : List String → List Round → Prop
  | nothing : Sends executor dialect context root [] []
  | first {sql : String} : root.statementText ⟨context, dialect, []⟩ = .ok sql →
      Sends executor dialect context root [sql] []
  | rounds {sql : String} {rows : List Row} {data : Json} {rounds : List Round}
      {result : Except RunError Json} :
      root.statementText ⟨context, dialect, []⟩ = .ok sql →
      (Session.execute executor sql).outcome [] = (.ok rows, [sql]) →
      root.rootData rows = .ok data →
      Rounds executor dialect context [⟨root, objectsAt data "" root.info⟩] data [sql] rounds
        result →
      Sends executor dialect context root [sql] rounds

/-- The objects of the tables of a plan in the data of the root. -/
inductive ObjectOf (root : Table Node) (data : Json) : Table Node → Json → Prop
  | root {object : Json} : object ∈ root.info.objectsIn data → ObjectOf root data root object
  | child {table child : Table Node} {object value inner : Json} :
      ObjectOf root data table object → child ∈ table.tables →
      object.get? child.info.fieldName = some value → inner ∈ child.info.objectsIn value →
      ObjectOf root data child inner

section Statements

variable {executor : Executor} {dialect : Dialect} {context : Context} {root : Table Node}
  {data final : Json} {sent : List String} {first : List String} {rounds : List Round}

/-- The unbounded rounds below a root end, with what filling in its batches gives. -/
theorem exists_rounds_fillBatches (executor : Executor) (dialect : Dialect) (context : Context)
    (root : Table Node) (data : Json) (sent : List String) :
    ∃ rounds result,
      Rounds executor dialect context [⟨root, objectsAt data "" root.info⟩] data sent rounds
          result ∧
        (root.fillBatches executor dialect context data).outcome sent =
          (result, sent ++ rounds.flatMap Round.statements) :=
  exists_rounds root.height data sent (Level.root data).inPlan (by simp)

theorem exists_sends_fetch (executor : Executor) (dialect : Dialect) (context : Context)
    (root : Table Node) :
    ∃ first rounds, Sends executor dialect context root first rounds ∧
      ((root.fetch executor dialect context).outcome []).2 =
        first ++ rounds.flatMap Round.statements := by
  cases hsql : root.statementText ⟨context, dialect, []⟩ with
  | error error =>
      refine ⟨[], [], Sends.nothing, ?_⟩
      simp [Table.fetch, Session.outcome_bind, hsql, Except.mapError]
  | ok sql =>
      by_cases hempty : sql = ""
      · refine ⟨[], [], Sends.nothing, ?_⟩
        simp [Table.fetch, Session.outcome_bind, hsql, Except.mapError, hempty]
      · cases hrows : (Session.execute executor sql).outcome [] with
        | mk answer after =>
            have hafter := congrArg Prod.snd hrows
            rw [Session.outcome_execute] at hafter
            obtain rfl : [sql] = after := hafter
            cases answer with
            | error error =>
                refine ⟨[sql], [], Sends.first hsql, ?_⟩
                simp [Table.fetch, Session.outcome_bind, hsql, Except.mapError, hempty, hrows]
            | ok rows =>
                cases hdata : root.rootData rows with
                | error error =>
                    refine ⟨[sql], [], Sends.first hsql, ?_⟩
                    simp [Table.fetch, Session.outcome_bind, hsql, Except.mapError, hempty, hrows,
                      hdata]
                | ok data =>
                    obtain ⟨rounds, result, hrounds, hfilled⟩ := exists_rounds_fillBatches executor
                      dialect context root data [sql]
                    refine ⟨[sql], rounds, Sends.rounds hsql hrows hdata hrounds, ?_⟩
                    simp [Table.fetch, Session.outcome_bind, hsql, Except.mapError, hempty, hrows,
                      hdata, hfilled]

/-- At most one statement is sent for the root, and at most one for every boundary below it,
and none without keys. -/
theorem Sends.asks (h : Sends executor dialect context root first rounds) :
    first.length ≤ 1 ∧
      (∀ round ∈ rounds, Asks dialect context round.scopes round.statements) ∧
      (rounds.flatMap fun round => round.scopes.map Prod.fst).Subperm root.batched := by
  cases h with
  | nothing => exact ⟨Nat.zero_le 1, by simp, List.nil_subperm⟩
  | first => exact ⟨Nat.le_refl 1, by simp, List.nil_subperm⟩
  | rounds _ _ _ hrounds =>
      have htables := hrounds.tables_subperm (Level.root _).inPlan
      exact ⟨Nat.le_refl 1, hrounds.asks, by simpa using htables⟩

/-- A session fails with its plan, or fetches the plan and finishes what was found. -/
theorem outcome_of_pipeline {options : RunOptions} {env : Environment}
    {compiled : Except PlanError (Table Node)} {session : Session Json}
    (h : Pipeline executor options env compiled session) :
    (∀ error, compiled = .error error → session.outcome [] = (.error (.plan error), [])) ∧
      ∀ root, compiled = .ok root → ∃ finish : Option Json → Json, session.outcome [] =
        (finish <$> root.fetch executor options.dialect env.context).outcome [] := by
  cases h with
  | request request =>
      constructor
      · intro error hcompiled
        simp [run, Session.outcome_bind, hcompiled, Except.mapError]
      · intro root hcompiled
        refine ⟨fun found => (found.map root.keepMatched).getD (.object []), ?_⟩
        rw [run, hcompiled, Session.outcome_bind, map_eq_pure_bind]
        change (root.fetch executor options.dialect env.context >>= _).outcome [] = _
        congr 2
        funext found
        cases found <;> rfl
  | node typeName found request =>
      constructor
      · intro error hcompiled
        simp [fetchNode, Session.outcome_bind, hcompiled, Except.mapError]
      · intro root hcompiled
        refine ⟨fun found => (found.map (withTypeName typeName)).getD .null, ?_⟩
        rw [fetchNode, hcompiled, Session.outcome_bind, map_eq_pure_bind]
        change (root.fetch executor options.dialect env.context >>= _).outcome [] = _
        congr 2
        funext found
        cases found <;> rfl

/-- A session sends what fetching its plan sends. -/
theorem sent_of_pipeline {options : RunOptions} {env : Environment}
    {compiled : Except PlanError (Table Node)} {session : Session Json}
    (h : Pipeline executor options env compiled session) :
    (∀ error, compiled = .error error → (session.outcome []).2 = []) ∧
      ∀ root, compiled = .ok root → (session.outcome []).2 =
        ((root.fetch executor options.dialect env.context).outcome []).2 := by
  obtain ⟨hfailed, hfetched⟩ := outcome_of_pipeline h
  constructor
  · intro error hcompiled
    rw [hfailed error hcompiled]
  · intro root hcompiled
    obtain ⟨finish, hfinish⟩ := hfetched root hcompiled
    rw [hfinish, Session.outcome_map]

/-- The objects found in the data of a root whose batches are filled in are complete. -/
theorem complete_of_objectOf (hseparated : ∀ table ∈ root.subtree, table.Separated fieldOnly)
    (hrounds : Rounds executor dialect context [⟨root, objectsAt data "" root.info⟩] data sent
      rounds (.ok final)) {table : Table Node} {object : Json}
    (hobject : ObjectOf root final table object) : Complete table object := by
  have hlevel : Level root [⟨root, objectsAt data "" root.info⟩] := Level.root data
  have hdone := hrounds.done hlevel.inPlan hseparated (List.pairwise_singleton _ _)
  induction hobject with
  | @root object hroot =>
      have hpaths : (⟨root, objectsAt data "" root.info⟩ : Located).paths =
          objectPaths data [] root.info := by
        have hobjects := objectsAt_ofPath data [] root.info
        rw [Json.Pointer.ofPath_nil] at hobjects
        rw [hobjects, Located.paths_mk]
      have hsame : ∀ rest, Json.Outside (root.info.places data) rest →
          Json.SameOutline final data ([] ++ rest) := by
        intro rest hrest
        apply hdone.unchanged
        intro located hlocated
        obtain rfl := List.mem_singleton.mp hlocated
        rw [hpaths]
        simpa [objectPaths, Json.at?] using hrest
      have hvalue (value : Json) : value.at? [] = some value := rfl
      obtain ⟨place, hplace, hat⟩ :=
        exists_place_of_sameOutline (hvalue data) (hvalue final) hsame hroot
      apply hdone.complete _ (List.mem_singleton_self _) place _ _ hat
        (TableInfo.isObject_of_mem_objectsIn hroot)
      rw [hpaths]
      exact mem_objectPaths.mpr ⟨data, rfl, place, hplace, rfl⟩
  | child _ hchild hvalue hinner ih =>
      cases ih with
      | intro _ hbelow => exact hbelow _ hchild _ hvalue _ hinner

theorem separated_fieldOnly_iff (table : Table Node) :
    table.Separated fieldOnly ↔ (table.tables.map fun child => child.info.fieldName).Nodup := by
  rw [List.Nodup, List.pairwise_map]
  apply List.Pairwise.iff
  intro first second
  simp [Separate, eq_comm]

end Statements

/-- For every plan, data and executor the unbounded rounds end, with the result of filling in
the batches; a session sends at most one statement for the root, and then at most one for
every boundary of the plan, in rounds, and none for a boundary without keys.  When the
children of every table have different fields and the rounds succeed, every object in the
data has a value for each field that is fetched in batches. -/
theorem one_statement_per_boundary (executor : Executor) (options : RunOptions)
    (env : Environment) :
    (∀ root data sent, ∃ rounds result,
      Rounds executor options.dialect env.context [⟨root, objectsAt data "" root.info⟩] data sent
          rounds result ∧
        (∀ others other, Rounds executor options.dialect env.context
          [⟨root, objectsAt data "" root.info⟩] data sent others other →
            others = rounds ∧ other = result) ∧
        (root.fillBatches executor options.dialect env.context data).outcome sent =
          (result, sent ++ rounds.flatMap Round.statements) ∧
        ((∀ table ∈ root.subtree, (table.tables.map fun child => child.info.fieldName).Nodup) →
          ∀ final, result = .ok final → ∀ table object, ObjectOf root final table object →
            ∀ child ∈ table.tables, child.info.isBoundary = true →
              ∃ value, object.get? child.info.fieldName = some value)) ∧
    ∀ compiled session, Pipeline executor options env compiled session →
      (∀ error, compiled = .error error → (session.outcome []).2 = []) ∧
      ∀ root, compiled = .ok root → ∃ first rounds,
        (session.outcome []).2 = first ++ rounds.flatMap Round.statements ∧
          Sends executor options.dialect env.context root first rounds ∧
          first.length ≤ 1 ∧
          (∀ round ∈ rounds, Asks options.dialect env.context round.scopes round.statements) ∧
          (rounds.flatMap fun round => round.scopes.map Prod.fst).Subperm root.batched := by
  constructor
  · intro root data sent
    obtain ⟨rounds, result, hrounds, houtcome⟩ := exists_rounds_fillBatches executor
      options.dialect env.context root data sent
    refine ⟨rounds, result, hrounds, fun _ _ => hrounds.unique, houtcome, ?_⟩
    intro hnames final hresult table object hobject child hchild hboundary
    subst hresult
    have hseparated : ∀ table ∈ root.subtree, table.Separated fieldOnly :=
      fun table htable => (separated_fieldOnly_iff table).mpr (hnames table htable)
    cases complete_of_objectOf hseparated hrounds hobject with
    | intro hfilled _ => exact hfilled child hchild hboundary
  · intro compiled session hpipeline
    obtain ⟨hfailed, hsent⟩ := sent_of_pipeline hpipeline
    refine ⟨hfailed, ?_⟩
    intro root hcompiled
    obtain ⟨first, rounds, hsends, hfetched⟩ := exists_sends_fetch executor options.dialect
      env.context root
    exact ⟨first, rounds, (hsent root hcompiled).trans hfetched, hsends, hsends.asks⟩

/-- A library: shelves with the books on them, by the number of the shelf. -/
def libraryEnvironment : Environment where
  schema :=
    ⟨[("Book", ⟨.object, [("title", ⟨.named "String", FieldOptions.empty⟩)], [], [],
        some ⟨.literal "books", .one "id", none⟩⟩),
      ("Q", ⟨.object, [("shelves", ⟨.list (.named "Shelf"), FieldOptions.empty⟩)], [], [], none⟩),
      ("Shelf", ⟨.object, [("books", ⟨.list (.named "Book"), { FieldOptions.empty with
          sqlBatch := some ⟨"shelf", "number"⟩ }⟩)], [], [],
        some ⟨.literal "shelves", .one "id", none⟩⟩)]⟩
  context := .null

def libraryRequest : Request where
  parentType := "Q"
  fields := [⟨"shelves", [], [.field "books" [] [.field "title" [] []]]⟩]
  fragments := []

def libraryPlan : Table Node where
  info := { plainInfo "shelves" "shelves" true none with typeName := "Shelf" }
  shared :=
    [.column (ownedColumn "id"),
     .table ⟨{ plainInfo "books" "books" true
        (some (.batch (ownedColumn "shelf") (ownedColumn "number"))) with typeName := "Book" },
      [.column (ownedColumn "id"), .column (ownedColumn "title"),
       .column (ownedColumn "shelf")], []⟩]
  typed := []

theorem compile_library :
    compile libraryEnvironment false libraryRequest = .ok libraryPlan := by
  rfl

/-- Two shelves, one without a number. -/
def libraryRows : Json :=
  .array
    [.object [("id", .number (.int 1)), ("number", .number (.int 7))],
     .object [("id", .number (.int 2)), ("number", .null)]]

/-- Answers the first statement with the shelves and the second with a book. -/
def libraryExecutor : Executor
  | [_] => .ok libraryRows
  | _ => .ok (.array
      [.object [("id", .number (.int 5)), ("shelf", .number (.int 7)), ("title", .string "Emma")]])

theorem one_statement_per_boundary_library :
    (∀ table ∈ libraryPlan.subtree,
      (table.tables.map fun child => child.info.fieldName).Nodup) ∧
    (∃ final, ((libraryPlan.fillBatches libraryExecutor .postgres .null libraryRows).outcome
        ["SELECT"]).1 = .ok final ∧
      ∀ table object, ObjectOf libraryPlan final table object →
        ∀ child ∈ table.tables, child.info.isBoundary = true →
          ∃ value, object.get? child.info.fieldName = some value) ∧
    ((run libraryExecutor ⟨.postgres, false⟩ libraryEnvironment libraryRequest).outcome
        []).2.length = 2 ∧
    ∃ (first : List String) (rounds : List Round),
      ((run libraryExecutor ⟨.postgres, false⟩ libraryEnvironment libraryRequest).outcome []).2 =
          first ++ rounds.flatMap Round.statements ∧
        first.length ≤ 1 ∧
        (rounds.flatMap fun round => round.scopes.map Prod.fst).Subperm libraryPlan.batched := by
  have hnames : ∀ table ∈ libraryPlan.subtree,
      (table.tables.map fun child => child.info.fieldName).Nodup := by decide
  obtain ⟨hrounds, hpipeline⟩ :=
    one_statement_per_boundary libraryExecutor ⟨.postgres, false⟩ libraryEnvironment
  refine ⟨hnames, ?_, by decide +kernel, ?_⟩
  · obtain ⟨rounds, result, -, -, houtcome, hcomplete⟩ :=
      hrounds libraryPlan libraryRows ["SELECT"]
    have hok : (((libraryPlan.fillBatches libraryExecutor .postgres .null libraryRows).outcome
        ["SELECT"]).1.toOption).isSome = true := by decide +kernel
    rw [show (libraryPlan.fillBatches libraryExecutor .postgres .null libraryRows).outcome
      ["SELECT"] = _ from houtcome] at hok ⊢
    cases result with
    | error error => simp [Except.toOption] at hok
    | ok final => exact ⟨final, rfl, hcomplete hnames final rfl⟩
  · obtain ⟨first, rounds, hsent, -, hfirst, -, htables⟩ :=
      (hpipeline _ _ (Pipeline.request libraryRequest)).2 libraryPlan compile_library
    exact ⟨first, rounds, hsent, hfirst, htables⟩

end JoinPlan.Plan
