import JoinPlan.Proofs.Data.Connecting
import JoinPlan.Proofs.Data.Pipeline
import JoinPlan.Proofs.Plan.AnyScope
import JoinPlan.Proofs.Plan.Compiled
import JoinPlan.Proofs.Plan.DistinctAliases

/-!
# Requests that are refused

A request that cannot be compiled, or whose first statement cannot be written, is refused
with nothing sent, whoever would answer.  Nothing that comes later refuses a request but the
statement of a table fetched in batches: it is written once the keys of its parents are
known, though whether it can be written depends on the plan alone.  So a request is refused
after a statement was sent only for such a table.
-/

namespace JoinPlan

namespace Row

theorem ofJson_ne_plan (value : Json) (error : PlanError) :
    ofJson value ≠ .error (.plan error) := by
  cases value <;> simp [ofJson]

theorem mapM_ofJson_ne_plan (items : List Json) (error : PlanError) :
    items.mapM ofJson ≠ .error (.plan error) := by
  induction items with
  | nil => simp [pure, Except.pure]
  | cons item rest ih =>
      intro h
      rw [List.mapM_cons] at h
      rcases bind_eq_error.mp h with hitem | ⟨row, -, h⟩
      · exact ofJson_ne_plan item error hitem
      · rcases bind_eq_error.mp h with hrest | ⟨rows, -, h⟩
        · exact ih hrest
        · cases h

/-- An answer without rows is no fault of the request. -/
theorem ofResult_ne_plan (result : Json) (error : PlanError) :
    ofResult result ≠ .error (.plan error) := by
  cases result with
  | null | bool | number | string => simp [ofResult]
  | array items => exact mapM_ofJson_ne_plan items error
  | object members =>
      rw [ofResult]
      split
      · exact mapM_ofJson_ne_plan _ error
      · simp

end Row

/-- A session that no answer makes a refused request. -/
def Session.Accepted {α : Type} (session : Session α) : Prop :=
  ∀ sent error, (session.outcome sent).1 ≠ .error (.plan error)

namespace Session

variable {α β : Type}

theorem accepted_pure (value : α) : (pure value : Session α).Accepted := by
  intro sent error
  simp

theorem accepted_ofPlan {result : Except PlanError α} (h : ∃ value, result = .ok value) :
    (ofPlan result).Accepted := by
  obtain ⟨value, rfl⟩ := h
  exact accepted_pure value

theorem accepted_ofRequest {result : Except RequestError α} (h : ∃ value, result = .ok value) :
    (ofRequest result).Accepted := by
  obtain ⟨value, rfl⟩ := h
  exact accepted_pure value

theorem accepted_execute (executor : Executor) (sql : String) :
    (execute executor sql).Accepted := by
  intro sent error
  rw [outcome_execute]
  dsimp only
  split
  · simp
  · exact Row.ofResult_ne_plan _ error

theorem Accepted.bind {session : Session α} {next : α → Session β} (hsession : session.Accepted)
    (hnext : ∀ value, (next value).Accepted) : (session >>= next).Accepted := by
  intro sent error
  rw [outcome_bind]
  cases hresult : session.outcome sent with
  | mk result after =>
      cases result with
      | error cause =>
          have hcause := hsession sent error
          rw [hresult] at hcause
          simpa using hcause
      | ok value => exact hnext value after error

theorem Accepted.map {session : Session α} (h : session.Accepted) (f : α → β) :
    (f <$> session).Accepted := by
  rw [map_eq_pure_bind]
  exact h.bind fun value => accepted_pure (f value)

end Session

namespace Plan

/-! ### Putting answers into the data -/

section Splice

theorem exists_batchValue_ok {info : TableInfo} (h : info.Connects) (objects : List Json) :
    ∃ value, batchValue info objects = .ok value := by
  unfold batchValue
  split
  · exact h ‹_› _
  · split <;> exact ⟨_, rfl⟩

theorem exists_spliceInto_ok {info : TableInfo} (h : info.Connects) (parentKey : Column)
    (groups : Groups) (data : Json) (parent : Json.Pointer) :
    ∃ spliced, spliceInto info parentKey groups data parent = .ok spliced := by
  unfold spliceInto
  split
  · exact ⟨_, rfl⟩
  · exact exists_bind_ok (exists_batchValue_ok h _) fun value => ⟨_, rfl⟩

theorem exists_spliceAll_ok {info : TableInfo} (h : info.Connects) (parentKey : Column)
    (groups : Groups) (parents : List Json.Pointer) (data : Json) :
    ∃ spliced, spliceAll info parentKey groups parents data = .ok spliced := by
  induction parents generalizing data with
  | nil => exact ⟨_, rfl⟩
  | cons parent rest ih =>
      rw [spliceAll]
      exact exists_bind_ok (exists_spliceInto_ok h parentKey groups data parent) fun first =>
        exists_bind_ok (ih first.1) fun others => ⟨_, rfl⟩

theorem exists_splice_ok {boundary : Located} (h : boundary.table.info.Connects) (data : Json)
    (groups : Groups) : ∃ spliced, splice data boundary groups = .ok spliced := by
  unfold splice
  split
  · exact ⟨_, rfl⟩
  · exact exists_bind_ok (exists_spliceAll_ok h _ groups boundary.objects data) fun spliced =>
      ⟨_, rfl⟩

/-- The answers of a level are put into the data when the lists among them connect. -/
theorem exists_spliceLevel_ok {jobs : List (Located × Groups)}
    (h : ∀ job ∈ jobs, job.1.table.info.Connects) (data : Json) :
    ∃ spliced, spliceLevel jobs data = .ok spliced := by
  induction jobs generalizing data with
  | nil => exact ⟨_, rfl⟩
  | cons job rest ih =>
      rw [List.forall_mem_cons] at h
      obtain ⟨boundary, groups⟩ := job
      rw [spliceLevel]
      exact exists_bind_ok (exists_splice_ok h.1 data groups) fun first =>
        exists_bind_ok (ih h.2 first.1) fun others => ⟨_, rfl⟩

end Splice

/-! ### Rounds of statements that can be written -/

/-- A table whose statement can be written, whatever the keys. -/
def Table.Writable (dialect : Dialect) (context : Context) (table : Table Node) : Prop :=
  ∀ scope, ∃ sql, table.statementText ⟨context, dialect, scope⟩ = .ok sql

section Rounds

variable {executor : Executor} {dialect : Dialect} {context : Context}

theorem Table.Writable.connects {table : Table Node} (h : table.Writable dialect context) :
    table.info.Connects := by
  obtain ⟨sql, hsql⟩ := h []
  exact connects_of_statementText hsql table table.mem_joinedTables_self

theorem Table.exists_batchObjects_ok {table : Table Node} {ctx : StatementContext} {sql : String}
    (h : table.statementText ctx = .ok sql) (rows : List Row) :
    ∃ objects, table.batchObjects rows = .ok objects :=
  exists_bind_ok (connectChildren_of_joined (connects_of_statementText h) _) fun _ => ⟨_, rfl⟩

theorem Table.exists_rootData_ok {root : Table Node} {ctx : StatementContext} {sql : String}
    (h : root.statementText ctx = .ok sql) (rows : List Row) :
    ∃ data, root.rootData rows = .ok data :=
  connect_of_joined (connects_of_statementText h) _

theorem accepted_fetchBatch {table : Table Node} (h : table.Writable dialect context)
    (scope : List Json) : (fetchBatch executor dialect context table scope).Accepted := by
  obtain ⟨sql, hsql⟩ := h scope
  unfold fetchBatch
  split
  · exact Session.accepted_pure _
  · split
    · exact Session.accepted_pure _
    · refine (Session.accepted_ofPlan (h scope)).bind fun text => ?_
      split
      · exact Session.accepted_pure _
      · exact (Session.accepted_execute executor text).bind fun rows =>
          (Session.accepted_ofRequest (Table.exists_batchObjects_ok hsql rows)).bind fun objects =>
            Session.accepted_pure _

theorem accepted_fetchLevel {boundaries : List (Table Node × List Json)}
    (h : ∀ boundary ∈ boundaries, boundary.1.Writable dialect context) :
    (fetchLevel executor dialect context boundaries).Accepted := by
  induction boundaries with
  | nil => exact Session.accepted_pure _
  | cons boundary rest ih =>
      rw [List.forall_mem_cons] at h
      rw [fetchLevel_cons]
      exact (accepted_fetchBatch h.1 boundary.2).bind fun groups =>
        (ih h.2).bind fun others => Session.accepted_pure _

theorem spliceLevel_ne_error {level : List Located} {data : Json} {groups : List Groups}
    (h : ∀ boundary ∈ levelScopes data level, boundary.1.Writable dialect context)
    (error : RequestError) :
    spliceLevel ((levelBoundaries data level).zip groups) data ≠ .error error := by
  have hconnects : ∀ job ∈ (levelBoundaries data level).zip groups,
      job.1.table.info.Connects := by
    intro job hjob
    have hmem := (fst_zip_sublist _ groups).subset (List.mem_map_of_mem hjob)
    exact (h _ (List.mem_map_of_mem hmem)).connects
  obtain ⟨spliced, hspliced⟩ := exists_spliceLevel_ok hconnects data
  simp [hspliced]

/-- Rounds of statements that can be written refuse nothing. -/
theorem Rounds.ne_plan {level : List Located} {data : Json} {sent : List String}
    {rounds : List Round} {result : Except RunError Json}
    (h : Rounds executor dialect context level data sent rounds result)
    (hwritable : ∀ round ∈ rounds, ∀ boundary ∈ round.scopes,
      boundary.1.Writable dialect context) (error : PlanError) :
    result ≠ .error (.plan error) := by
  -- a round goes wrong in its statements or in putting their answers in, and neither refuses
  induction h with
  | finished => simp
  | unanswered _ hfetch =>
      intro hplan
      obtain rfl := Except.error.inj hplan
      rw [List.forall_mem_singleton] at hwritable
      exact accepted_fetchLevel hwritable _ error (congrArg Prod.fst hfetch)
  | unspliced _ _ hsplice =>
      rw [List.forall_mem_singleton] at hwritable
      exact absurd hsplice (spliceLevel_ne_error hwritable _)
  | spliced _ _ _ _ ih =>
      rw [List.forall_mem_cons] at hwritable
      exact ih hwritable.2

theorem accepted_fillBatches {root : Table Node}
    (h : ∀ boundary ∈ root.batched, boundary.Writable dialect context) (data : Json) :
    (root.fillBatches executor dialect context data).Accepted := by
  intro sent error
  obtain ⟨rounds, result, hrounds, houtcome⟩ := exists_rounds_fillBatches executor dialect
    context root data sent
  rw [houtcome]
  refine hrounds.ne_plan (fun round hround boundary hboundary => h _ ?_) error
  have htables := (hrounds.tables_subperm (Level.root data).inPlan).subset
  rw [List.flatMap_singleton] at htables
  exact htables (List.mem_flatMap.mpr ⟨round, hround, List.mem_map_of_mem hboundary⟩)

theorem accepted_fetch {root : Table Node} {sql : String}
    (hsql : root.statementText ⟨context, dialect, []⟩ = .ok sql)
    (h : ∀ boundary ∈ root.batched, boundary.Writable dialect context) :
    (root.fetch executor dialect context).Accepted := by
  unfold Table.fetch
  refine (Session.accepted_ofPlan ⟨sql, hsql⟩).bind fun text => ?_
  split
  · exact Session.accepted_pure _
  · exact (Session.accepted_execute executor text).bind fun rows =>
      (Session.accepted_ofRequest (Table.exists_rootData_ok hsql rows)).bind fun data =>
        (accepted_fillBatches h data).map some

end Rounds

/-! ### Requests -/

/-- What comes of a plan before anything is sent: the text of its first statement. -/
def firstStatement (compiled : Except PlanError (Table Node)) (dialect : Dialect)
    (context : Context) : Except PlanError String :=
  compiled >>= fun root => root.statementText ⟨context, dialect, []⟩

section Pipeline

variable {executor : Executor} {options : RunOptions} {env : Environment}
  {compiled : Except PlanError (Table Node)} {session : Session Json}

theorem Pipeline.compiles (h : Pipeline executor options env compiled session)
    {root : Table Node} (hroot : compiled = .ok root) : Compiled env options.minify root := by
  cases h with
  | request request => exact .request hroot
  | node typeName found request => exact .node hroot

theorem outcome_fetch_of_error {executor : Executor} {dialect : Dialect} {context : Context}
    {root : Table Node} {error : PlanError}
    (h : root.statementText ⟨context, dialect, []⟩ = .error error) (sent : List String) :
    (root.fetch executor dialect context).outcome sent = (.error (.plan error), sent) := by
  simp [Table.fetch, Session.outcome_bind, h, Except.mapError]

/-- A boundary whose statement cannot be written for some keys cannot be written for any. -/
theorem exists_error_of_not_writable {minify : Bool} {root boundary : Table Node}
    (hroot : Compiled env minify root) (hboundary : boundary ∈ root.batched) {dialect : Dialect}
    (h : ¬ boundary.Writable dialect env.context) :
    ∃ error, ∀ scope, boundary.statementText ⟨env.context, dialect, scope⟩ = .error error := by
  have hbelow : boundary ∈ root.subtree := by
    rw [Table.subtree_eq]
    exact List.mem_cons_of_mem _ (List.mem_of_mem_filter hboundary)
  have hsound : ∀ inner ∈ boundary.subtree, inner.Sound env.schema := fun inner hinner =>
    hroot.sound inner ((Table.subtree_sublist boundary hbelow).subset hinner)
  obtain ⟨scope, hscope⟩ := not_forall.mp h
  cases htext : boundary.statementText ⟨env.context, dialect, scope⟩ with
  | ok sql => exact absurd ⟨sql, htext⟩ hscope
  | error error => exact ⟨error, Table.statementText_error_scope hsound htext⟩

/-- A request that is refused has sent nothing, or it has a batch whose statement cannot be
written for any keys.  When compiling it or writing its first statement fails, it is refused
for every executor and with that error, and nothing is sent; it is refused for no other
reason as long as the statement of every table fetched in batches can be written. -/
theorem refused_unsent_or_batched (h : Pipeline executor options env compiled session) :
    (∀ error, firstStatement compiled options.dialect env.context = .error error →
      session.outcome [] = (.error (.plan error), [])) ∧
    ∀ error, (session.outcome []).1 = .error (.plan error) →
      firstStatement compiled options.dialect env.context = .error error ∨
        ∃ root, compiled = .ok root ∧ ∃ boundary ∈ root.batched, ∃ cause, ∀ scope,
          boundary.statementText ⟨env.context, options.dialect, scope⟩ = .error cause := by
  obtain ⟨hfailed, hfetched⟩ := outcome_of_pipeline h
  have hearly : ∀ error, firstStatement compiled options.dialect env.context = .error error →
      session.outcome [] = (.error (.plan error), []) := by
    intro error herror
    rcases bind_eq_error.mp herror with hcompiled | ⟨root, hcompiled, htext⟩
    · exact hfailed error hcompiled
    · obtain ⟨finish, hfinish⟩ := hfetched root hcompiled
      rw [hfinish, Session.outcome_map, outcome_fetch_of_error htext]
      rfl
  refine ⟨hearly, fun error herror => ?_⟩
  cases hfirst : firstStatement compiled options.dialect env.context with
  | error cause =>
      rw [hearly cause hfirst] at herror
      exact Or.inl (by simpa using herror)
  | ok sql =>
      obtain ⟨root, hcompiled, htext⟩ := bind_eq_ok.mp hfirst
      refine Or.inr ⟨root, hcompiled, ?_⟩
      by_contra hnone
      -- no batch is refused, so no answer makes the request refused
      have hwritable : ∀ boundary ∈ root.batched,
          boundary.Writable options.dialect env.context := by
        intro boundary hboundary
        by_contra hrefused
        exact hnone ⟨boundary, hboundary,
          exists_error_of_not_writable (h.compiles hcompiled) hboundary hrefused⟩
      obtain ⟨finish, hfinish⟩ := hfetched root hcompiled
      rw [hfinish] at herror
      exact (accepted_fetch htext hwritable).map finish [] error herror

end Pipeline

/-! ### A page size below zero -/

/-- A request for the tags of every post, less than none of them. -/
def negativeRequest : Request where
  parentType := "Query"
  fields := [⟨"posts", [], [.field "tags" [("first", .number (.int (-1)))]
    [.field "edges" [] [.field "node" [] [.field "name" [] []]]]]⟩]
  fragments := []

/-- Answers every statement with rows that have these values of `id`. -/
def answeringIds (ids : List Int) : Executor := fun _ =>
  .ok (.array (ids.map fun id => .object [("id", .number (.int id))]))

theorem firstStatement_taggings :
    firstStatement (compile ⟨tagsSchema "tags" taggingOptions, .null⟩ false negativeRequest)
      .postgres .null = .error (.request (.invalidPageSize "first" "-1")) := by
  decide +kernel

/-- Tags joined to their posts are part of the first statement, so the request is refused
with nothing sent. -/
theorem refused_unsent_or_batched_taggings :
    Pipeline (answeringIds [1]) ⟨.postgres, false⟩ ⟨tagsSchema "tags" taggingOptions, .null⟩
        (compile ⟨tagsSchema "tags" taggingOptions, .null⟩ false negativeRequest)
        (run (answeringIds [1]) ⟨.postgres, false⟩ ⟨tagsSchema "tags" taggingOptions, .null⟩
          negativeRequest) ∧
      (run (answeringIds [1]) ⟨.postgres, false⟩ ⟨tagsSchema "tags" taggingOptions, .null⟩
          negativeRequest).outcome [] =
        (.error (.plan (.request (.invalidPageSize "first" "-1"))), []) := by
  have hpipeline : Pipeline (answeringIds [1]) ⟨.postgres, false⟩
      ⟨tagsSchema "tags" taggingOptions, .null⟩ _ _ := .request negativeRequest
  exact ⟨hpipeline, (refused_unsent_or_batched hpipeline).1 _ firstStatement_taggings⟩

/-- Tags fetched in a batch are asked for when a post was found: the request is refused after
its first statement was sent, and it is not refused when there is no post. -/
theorem exists_refused_after_sending :
    ∃ (options : RunOptions) (env : Environment) (request : Request),
      failure? ((run (answeringIds [1]) options env request).outcome []).1 =
          some (.plan (.request (.invalidPageSize "first" "-1"))) ∧
        ((run (answeringIds [1]) options env request).outcome []).2.length = 1 ∧
        failure? ((run (answeringIds []) options env request).outcome []).1 = none := by
  refine ⟨⟨.postgres, false⟩, ⟨tagsSchema "tags" batchedTagOptions, .null⟩, negativeRequest, ?_⟩
  decide +kernel

end Plan

end JoinPlan
