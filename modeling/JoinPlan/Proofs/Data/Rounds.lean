import JoinPlan.Data.Run
import JoinPlan.Proofs.Data.Complete
import Mathlib.Data.List.Perm.Subperm
import Mathlib.Data.List.Flatten

/-!
# Rounds of statements

The batches of a plan are filled in round by round, without any bound on the number of
rounds: every round asks for the boundaries of the level, and the next one starts when all
of them have been answered and spliced.  The boundaries of a level are lower in the plan
than those of the level before, so the rounds end; and they are other boundaries, so none
is asked for twice.
-/

namespace JoinPlan

/-- The result of a session, and the statements sent when it ends, when some were sent
before. -/
def Session.outcome {α : Type} (session : Session α) (sent : List String) :
    Except RunError α × List String :=
  session.run.run sent

namespace Session

variable {α β : Type} {sent : List String}

theorem outcome_bind (session : Session α) (next : α → Session β) (sent : List String) :
    (session >>= next).outcome sent =
      match session.outcome sent with
      | (.ok value, after) => (next value).outcome after
      | (.error error, after) => (.error error, after) := by
  simp only [outcome, ExceptT.run_bind, StateT.run_bind]
  change (match StateT.run (ExceptT.run session) sent with | (result, after) => _) = _
  rcases StateT.run (ExceptT.run session) sent with ⟨result, after⟩
  cases result <;> rfl

@[simp]
theorem outcome_pure (value : α) (sent : List String) :
    (pure value : Session α).outcome sent = (.ok value, sent) := rfl

@[simp]
theorem outcome_map (f : α → β) (session : Session α) (sent : List String) :
    (f <$> session).outcome sent =
      ((session.outcome sent).1.map f, (session.outcome sent).2) := by
  rw [map_eq_pure_bind, outcome_bind]
  rcases session.outcome sent with ⟨_ | _, _⟩ <;> rfl

@[simp]
theorem outcome_ofPlan (result : Except PlanError α) (sent : List String) :
    (ofPlan result).outcome sent = (result.mapError .plan, sent) := by
  cases result <;> rfl

@[simp]
theorem outcome_ofRequest (result : Except RequestError α) (sent : List String) :
    (ofRequest result).outcome sent =
      (result.mapError fun error => .plan (.request error), sent) := by
  cases result <;> rfl

/-- The executor is given all statements sent, the new one last. -/
theorem outcome_execute (executor : Executor) (sql : String) (sent : List String) :
    (execute executor sql).outcome sent =
      (match executor (sent ++ [sql]) with
        | .error message => .error (.external message)
        | .ok result => Row.ofResult result, sent ++ [sql]) := by
  have hexecute : (execute executor sql).outcome sent =
      (match executor (sent ++ [sql]) with
        | .error message => throw (.external message)
        | .ok result => ExceptT.mk (pure (Row.ofResult result)) :
          Session (List Row)).outcome (sent ++ [sql]) := rfl
  rw [hexecute]
  cases executor (sent ++ [sql]) <;> rfl

theorem outcome_bind_eq_ok {session : Session α} {next : α → Session β} {value : β}
    {after : List String} (h : (session >>= next).outcome sent = (.ok value, after)) :
    ∃ first between, session.outcome sent = (.ok first, between) ∧
      (next first).outcome between = (.ok value, after) := by
  rw [outcome_bind] at h
  cases hresult : session.outcome sent with
  | mk result between =>
      rw [hresult] at h
      cases result with
      | ok first => exact ⟨first, between, rfl, h⟩
      | error error => simp at h

/-- No statement is sent before the first fails, and none after it. -/
theorem snd_outcome_bind {session : Session α} {next : α → Session β} {first : List String}
    (hfirst : (session.outcome sent).2 = first)
    (hnext : ∀ value, ((next value).outcome first).2 = first) :
    ((session >>= next).outcome sent).2 = first := by
  rw [outcome_bind]
  cases hresult : session.outcome sent with
  | mk result after =>
      rw [hresult] at hfirst
      obtain rfl : after = first := hfirst
      cases result with
      | ok value => exact hnext value
      | error error => rfl

end Session

namespace Plan

/-! ### Boundaries of a plan -/

/-- The boundaries below a table. -/
def Table.batched (table : Table Node) : List (Table Node) :=
  (table.children.flatMap Node.subtree).filter fun inner => inner.info.isBoundary

section Height

theorem height_le_nodesHeight {nodes : List Node} {node : Node} (h : node ∈ nodes) :
    node.height ≤ nodesHeight nodes := by
  induction nodes with
  | nil => simp at h
  | cons first rest ih =>
      rw [nodesHeight]
      rcases List.mem_cons.mp h with rfl | hrest
      · exact Nat.le_max_left _ _
      · exact (ih hrest).trans (Nat.le_max_right _ _)

theorem height_le_bucketsHeight {buckets : List (String × List Node)} {node : Node}
    (h : node ∈ buckets.flatMap Prod.snd) : node.height ≤ bucketsHeight buckets := by
  induction buckets with
  | nil => simp at h
  | cons bucket rest ih =>
      rw [bucketsHeight, bucketHeight]
      rw [List.flatMap_cons] at h
      rcases List.mem_append.mp h with hfirst | hrest
      · exact (height_le_nodesHeight hfirst).trans (Nat.le_max_left _ _)
      · exact (ih hrest).trans (Nat.le_max_right _ _)

theorem Table.height_lt_of_mem_tables {table child : Table Node} (h : child ∈ table.tables) :
    child.height < table.height := by
  obtain ⟨info, shared, typed⟩ := table
  have hnode := Table.mem_tables.mp h
  have hheight : (Node.table child).height = child.height := by rw [Node.height]
  rw [← hheight, Table.height]
  rcases List.mem_append.mp hnode with hshared | htyped
  · exact Nat.lt_succ_of_le ((height_le_nodesHeight hshared).trans (Nat.le_max_left _ _))
  · exact Nat.lt_succ_of_le ((height_le_bucketsHeight htyped).trans (Nat.le_max_right _ _))

theorem Table.height_lt_of_mem_below {table inner : Table Node}
    (h : inner ∈ table.children.flatMap Node.subtree) : inner.height < table.height := by
  induction table using Table.induction with
  | step table ih =>
      obtain ⟨child, hchild, hinner⟩ := Table.exists_tables_of_mem_children h
      have hlower := Table.height_lt_of_mem_tables hchild
      rw [Table.subtree_eq, List.mem_cons] at hinner
      rcases hinner with rfl | hbelow
      · exact hlower
      · exact (ih child hchild hbelow).trans hlower

end Height

section Batched

variable {table child : Table Node} {data : Json} {paths : List Json.Path}

theorem Table.batched_eq (table : Table Node) :
    table.batched = table.tables.flatMap fun child =>
      child.subtree.filter fun inner => inner.info.isBoundary := by
  rw [batched, flatMap_eq_tables fun _ => Node.subtree_of_leaf, List.filter_flatMap]
  rfl

theorem filter_subtree (table : Table Node) :
    (table.subtree.filter fun inner => inner.info.isBoundary) =
      if table.info.isBoundary then table :: table.batched else table.batched := by
  rw [Table.subtree_eq, List.filter_cons]
  rfl

/-- The boundaries found below a table, each with those below it, are distinct boundaries of
the plan below the table. -/
theorem boundaries_batched_sublist :
    ((table.boundaries data (paths.map Json.Pointer.ofPath)).flatMap fun boundary =>
      boundary.table :: boundary.table.batched).Sublist table.batched := by
  induction table using Table.induction generalizing paths with
  | step table ih =>
      rw [Table.boundaries_eq]
      split
      · exact List.nil_sublist _
      · rw [List.flatMap_assoc, Table.batched_eq]
        apply List.Sublist.flatMap_right
        intro child hchild
        rw [Node.boundaries_table, filter_subtree]
        split
        · rw [List.flatMap_singleton]
        · exact ih child hchild

end Batched

/-! ### One round -/

/-- The boundaries of a level, with the keys found in the data. -/
def levelScopes (data : Json) (level : List Located) : List (Table Node × List Json) :=
  (levelBoundaries data level).map fun boundary => (boundary.table, batchScope data boundary)

/-- Statements for some boundaries, in their order: each is the statement of its table for
its keys, of which there are some. -/
def Asks (dialect : Dialect) (context : Context) (boundaries : List (Table Node × List Json))
    (statements : List String) : Prop :=
  ∃ asked, List.Sublist asked boundaries ∧
    List.Forall₂ (fun boundary sql => boundary.2 ≠ [] ∧
      boundary.1.statementText ⟨context, dialect, boundary.2⟩ = .ok sql) asked statements

section Round

variable {executor : Executor} {dialect : Dialect} {context : Context}

theorem Asks.nil (boundaries : List (Table Node × List Json)) :
    Asks dialect context boundaries [] :=
  ⟨[], List.nil_sublist _, List.Forall₂.nil⟩

theorem Asks.append {boundaries others : List (Table Node × List Json)}
    {statements more : List String} (h : Asks dialect context boundaries statements)
    (hmore : Asks dialect context others more) :
    Asks dialect context (boundaries ++ others) (statements ++ more) := by
  obtain ⟨asked, hasked, htexts⟩ := h
  obtain ⟨rest, hrest, hothers⟩ := hmore
  exact ⟨asked ++ rest, hasked.append hrest, List.rel_append htexts hothers⟩

/-- A boundary is asked for once, or not at all when there are no keys. -/
theorem outcome_fetchBatch (executor : Executor) (dialect : Dialect) (context : Context)
    (table : Table Node) (scope : List Json) (sent : List String) :
    ∃ statements, Asks dialect context [(table, scope)] statements ∧
      ((fetchBatch executor dialect context table scope).outcome sent).2 =
        sent ++ statements := by
  have hnone : ((fetchBatch executor dialect context table scope).outcome sent).2 = sent →
      ∃ statements, Asks dialect context [(table, scope)] statements ∧
        ((fetchBatch executor dialect context table scope).outcome sent).2 =
          sent ++ statements :=
    fun h => ⟨[], Asks.nil _, by rw [h, List.append_nil]⟩
  cases hkeys : table.info.batchKeys? with
  | none => exact hnone (by simp [fetchBatch, hkeys])
  | some keys =>
      cases hscope : scope.isEmpty with
      | true => exact hnone (by simp [fetchBatch, hkeys, hscope])
      | false =>
          have hkept : scope ≠ [] := List.isEmpty_eq_false_iff.mp hscope
          cases hsql : table.statementText ⟨context, dialect, scope⟩ with
          | error error =>
              exact hnone (by
                simp [fetchBatch, hkeys, hscope, Session.outcome_bind, hsql, Except.mapError])
          | ok sql =>
              by_cases hempty : sql = ""
              · exact hnone (by
                  simp [fetchBatch, hkeys, hscope, Session.outcome_bind, hsql, Except.mapError,
                    hempty])
              · refine ⟨[sql], ⟨[(table, scope)], List.Sublist.refl _,
                  List.Forall₂.cons ⟨hkept, hsql⟩ List.Forall₂.nil⟩, ?_⟩
                have hfetch : (fetchBatch executor dialect context table scope).outcome sent =
                    (Session.execute executor sql >>= fun rows => do
                      let objects ← Session.ofRequest (table.batchObjects rows)
                      pure (groupByKey keys.1 objects)).outcome sent := by
                  simp [fetchBatch, hkeys, hscope, Session.outcome_bind, hsql, Except.mapError,
                    hempty]
                rw [hfetch]
                apply Session.snd_outcome_bind
                · rw [Session.outcome_execute]
                · intro rows
                  apply Session.snd_outcome_bind
                  · rw [Session.outcome_ofRequest]
                  · intro objects
                    rw [Session.outcome_pure]

theorem fetchLevel_cons (boundary : Table Node × List Json)
    (rest : List (Table Node × List Json)) :
    fetchLevel executor dialect context (boundary :: rest) =
      (fetchBatch executor dialect context boundary.1 boundary.2 >>= fun groups =>
        fetchLevel executor dialect context rest >>= fun others => pure (groups :: others)) := by
  rw [fetchLevel, List.mapM_cons]
  rfl

/-- A round asks for some of its boundaries, each of them once. -/
theorem outcome_fetchLevel (executor : Executor) (dialect : Dialect) (context : Context)
    (boundaries : List (Table Node × List Json)) (sent : List String) :
    ∃ statements, Asks dialect context boundaries statements ∧
      ((fetchLevel executor dialect context boundaries).outcome sent).2 =
        sent ++ statements := by
  induction boundaries generalizing sent with
  | nil => exact ⟨[], Asks.nil _, by simp [fetchLevel]⟩
  | cons boundary rest ih =>
      obtain ⟨first, hfirst, hsent⟩ :=
        outcome_fetchBatch executor dialect context boundary.1 boundary.2 sent
      rw [fetchLevel_cons, Session.outcome_bind]
      cases hresult : (fetchBatch executor dialect context boundary.1 boundary.2).outcome sent with
      | mk result between =>
          rw [hresult] at hsent
          obtain rfl : between = sent ++ first := hsent
          cases result with
          | error error =>
              refine ⟨first, ?_, rfl⟩
              simpa using hfirst.append (Asks.nil rest)
          | ok groups =>
              obtain ⟨more, hmore, hafter⟩ := ih (sent ++ first)
              refine ⟨first ++ more, hfirst.append hmore, ?_⟩
              rw [← List.append_assoc]
              exact Session.snd_outcome_bind hafter fun others => by rw [Session.outcome_pure]

theorem length_of_fetchLevel {boundaries : List (Table Node × List Json)}
    {sent after : List String} {groups : List Groups}
    (h : (fetchLevel executor dialect context boundaries).outcome sent = (.ok groups, after)) :
    groups.length = boundaries.length := by
  induction boundaries generalizing sent groups with
  | nil =>
      simp only [fetchLevel, List.mapM_nil, Session.outcome_pure, Prod.mk.injEq,
        Except.ok.injEq] at h
      rw [← h.1]
      rfl
  | cons boundary rest ih =>
      rw [fetchLevel_cons] at h
      obtain ⟨first, between, -, hrest⟩ := Session.outcome_bind_eq_ok h
      obtain ⟨others, last, hothers, hpure⟩ := Session.outcome_bind_eq_ok hrest
      rw [Session.outcome_pure, Prod.mk.injEq, Except.ok.injEq] at hpure
      rw [← hpure.1, List.length_cons, ih (hpure.2 ▸ hothers), List.length_cons]

end Round

/-! ### All rounds -/

/-- The boundaries of a level with the keys found in the data, and the statements sent for
them. -/
structure Round where
  scopes : List (Table Node × List Json)
  statements : List String

/-- The rounds below a level, whatever their number: `Rounds level data sent rounds result`
when, after the statements `sent`, every one of `rounds` is sent in turn and the data
becomes `result`. -/
inductive Rounds (executor : Executor) (dialect : Dialect) (context : Context) :
    List Located → Json → List String → List Round → Except RunError Json → Prop
  /-- There is nothing left to fetch. -/
  | finished {level : List Located} {data : Json} {sent : List String} :
      levelBoundaries data level = [] →
      Rounds executor dialect context level data sent [] (.ok data)
  /-- A statement of the round cannot be made or answered. -/
  | unanswered {level : List Located} {data : Json} {sent statements : List String}
      {error : RunError} :
      levelBoundaries data level ≠ [] →
      (fetchLevel executor dialect context (levelScopes data level)).outcome sent =
        (.error error, sent ++ statements) →
      Rounds executor dialect context level data sent [⟨levelScopes data level, statements⟩]
        (.error error)
  /-- The answers cannot be put into the data. -/
  | unspliced {level : List Located} {data : Json} {sent statements : List String}
      {groups : List Groups} {error : RequestError} :
      levelBoundaries data level ≠ [] →
      (fetchLevel executor dialect context (levelScopes data level)).outcome sent =
        (.ok groups, sent ++ statements) →
      spliceLevel ((levelBoundaries data level).zip groups) data = .error error →
      Rounds executor dialect context level data sent [⟨levelScopes data level, statements⟩]
        (.error (.plan (.request error)))
  /-- When all statements of the round are answered and spliced, the next round is sent. -/
  | spliced {level later : List Located} {data after : Json} {sent statements : List String}
      {groups : List Groups} {rounds : List Round} {result : Except RunError Json} :
      levelBoundaries data level ≠ [] →
      (fetchLevel executor dialect context (levelScopes data level)).outcome sent =
        (.ok groups, sent ++ statements) →
      spliceLevel ((levelBoundaries data level).zip groups) data = .ok (after, later) →
      Rounds executor dialect context later after (sent ++ statements) rounds result →
      Rounds executor dialect context level data sent
        (⟨levelScopes data level, statements⟩ :: rounds) result

section Rounds

variable {executor : Executor} {dialect : Dialect} {context : Context} {root : Table Node}
  {level : List Located} {data final : Json} {sent : List String} {rounds others : List Round}
  {result other : Except RunError Json}

/-- The rounds and their result are determined. -/
theorem Rounds.unique (h : Rounds executor dialect context level data sent rounds result)
    (hother : Rounds executor dialect context level data sent others other) :
    others = rounds ∧ other = result := by
  induction h generalizing others other with
  | finished hnone =>
      cases hother with
      | finished => exact ⟨rfl, rfl⟩
      | unanswered hsome | unspliced hsome | spliced hsome => exact absurd hnone hsome
  | unanswered hsome hfetch =>
      cases hother with
      | finished hnone => exact absurd hnone hsome
      | unanswered _ hagain => simp_all
      | unspliced _ hagain => simp [hfetch] at hagain
      | spliced _ hagain => simp [hfetch] at hagain
  | unspliced hsome hfetch hsplice =>
      cases hother with
      | finished hnone => exact absurd hnone hsome
      | unanswered _ hagain => simp [hfetch] at hagain
      | unspliced _ hagain hsplices => simp_all
      | spliced _ hagain hsplices => simp_all
  | spliced hsome hfetch hsplice _ ih =>
      cases hother with
      | finished hnone => exact absurd hnone hsome
      | unanswered _ hagain => simp [hfetch] at hagain
      | unspliced _ hagain hsplices => simp_all
      | spliced _ hagain hsplices hrest =>
          rw [hfetch, Prod.mk.injEq, Except.ok.injEq, List.append_cancel_left_eq] at hagain
          obtain ⟨rfl, rfl⟩ := hagain
          rw [hsplice, Except.ok.injEq, Prod.mk.injEq] at hsplices
          obtain ⟨rfl, rfl⟩ := hsplices
          obtain ⟨rfl, rfl⟩ := ih hrest
          exact ⟨rfl, rfl⟩

theorem Table.height_pos (table : Table Node) : 0 < table.height := by
  obtain ⟨info, shared, typed⟩ := table
  rw [height]
  exact Nat.succ_pos _

theorem height_of_spliceLevel {height : Nat} (hin : ∀ located ∈ level, InPlan root located)
    (hheight : ∀ located ∈ level, located.table.height ≤ height + 1) {groups : List Groups}
    {after : Json} {later : List Located}
    (hsplice : spliceLevel ((levelBoundaries data level).zip groups) data = .ok (after, later)) :
    ∀ located ∈ later, located.table.height ≤ height := by
  intro fetched hfetched
  obtain ⟨boundary, hboundary, hfor⟩ :=
    (exists_of_mem_forall₂ (forall₂_of_spliceLevel_zip hin hsplice)).2 fetched hfetched
  obtain ⟨located, hlocated, hmem⟩ :=
    List.mem_flatMap.mp ((fst_zip_sublist _ groups).subset hboundary)
  have hplaced := (hin located hlocated).placed
  rw [hplaced.objects] at hmem
  obtain ⟨-, -, hbelow, -⟩ := placed_of_mem_boundaries hplaced.apart hmem
  have hlower := Table.height_lt_of_mem_below hbelow
  have hupper := hheight located hlocated
  rw [hfor.table]
  omega

theorem forall_inPlan_of_spliceLevel (hin : ∀ located ∈ level, InPlan root located)
    {groups : List Groups} {after : Json} {later : List Located}
    (hsplice : spliceLevel ((levelBoundaries data level).zip groups) data = .ok (after, later)) :
    ∀ located ∈ later, InPlan root located := by
  apply forall_inPlan_of_forall₂ _ (forall₂_of_spliceLevel_zip hin hsplice)
  intro boundary hboundary
  exact (inPlan_of_mem_levelBoundaries hin ((fst_zip_sublist _ _).subset hboundary)).2

/-- The rounds end before the heights of the tables are used up. -/
theorem exists_rounds (height : Nat) (data : Json) (sent : List String)
    (hin : ∀ located ∈ level, InPlan root located)
    (hheight : ∀ located ∈ level, located.table.height ≤ height) :
    ∃ rounds result, Rounds executor dialect context level data sent rounds result ∧
      (fillLevels executor dialect context height level data).outcome sent =
        (result, sent ++ rounds.flatMap Round.statements) := by
  induction height generalizing level data sent with
  | zero =>
      have hempty : level = [] := by
        apply List.eq_nil_iff_forall_not_mem.mpr
        intro located hlocated
        have hpos := located.table.height_pos
        have hzero := hheight located hlocated
        omega
      subst hempty
      exact ⟨[], .ok data, Rounds.finished rfl, by simp [fillLevels]⟩
  | succ height ih =>
      rw [fillLevels]
      by_cases hnone : levelBoundaries data level = []
      · refine ⟨[], .ok data, Rounds.finished hnone, ?_⟩
        simp [hnone]
      · have hnonempty : (levelBoundaries data level).isEmpty = false :=
          List.isEmpty_eq_false_iff.mpr hnone
        simp only [hnonempty, Bool.false_eq_true, if_false, Session.outcome_bind,
          Session.outcome_ofRequest]
        obtain ⟨statements, -, hround⟩ := outcome_fetchLevel executor dialect context
          (levelScopes data level) sent
        cases hfetch : (fetchLevel executor dialect context (levelScopes data level)).outcome
            sent with
        | mk found between =>
            rw [hfetch] at hround
            obtain rfl : between = sent ++ statements := hround
            rw [levelScopes] at hfetch
            cases found with
            | error error =>
                refine ⟨_, _, Rounds.unanswered hnone hfetch, ?_⟩
                simp [hfetch]
            | ok groups =>
                cases hsplice : spliceLevel ((levelBoundaries data level).zip groups) data with
                | error error =>
                    refine ⟨_, _, Rounds.unspliced hnone hfetch hsplice, ?_⟩
                    simp [hfetch, hsplice, Except.mapError]
                | ok spliced =>
                    obtain ⟨after, later⟩ := spliced
                    obtain ⟨rounds, result, hrounds, hrest⟩ := ih after (sent ++ statements)
                      (forall_inPlan_of_spliceLevel hin hsplice)
                      (height_of_spliceLevel hin hheight hsplice)
                    refine ⟨_, result, Rounds.spliced hnone hfetch hsplice hrounds, ?_⟩
                    simp [hfetch, hsplice, Except.mapError, hrest]

/-- The boundaries found at a level, and those below them, are boundaries below the tables
of the level. -/
theorem levelBoundaries_batched_sublist (hin : ∀ located ∈ level, InPlan root located) :
    ((levelBoundaries data level).flatMap fun boundary =>
      boundary.table :: boundary.table.batched).Sublist
        (level.flatMap fun located => located.table.batched) := by
  rw [levelBoundaries, List.flatMap_assoc]
  apply List.Sublist.flatMap_right
  intro located hlocated
  rw [(hin located hlocated).placed.objects]
  exact boundaries_batched_sublist

theorem tables_of_forall₂ {boundaries later : List Located}
    (h : List.Forall₂ FetchedFor boundaries later) :
    later.map Located.table = boundaries.map Located.table := by
  induction h with
  | nil => rfl
  | cons hfetched _ ih => rw [List.map_cons, List.map_cons, ih, hfetched.table]

/-- What the later rounds may ask for lies below the boundaries of this one. -/
theorem later_batched_sublist (hin : ∀ located ∈ level, InPlan root located)
    {groups : List Groups} {after : Json} {later : List Located}
    (hsplice : spliceLevel ((levelBoundaries data level).zip groups) data = .ok (after, later)) :
    (later.flatMap fun located => located.table.batched).Sublist
      ((levelBoundaries data level).flatMap fun boundary => boundary.table.batched) := by
  have htables := tables_of_forall₂ (forall₂_of_spliceLevel_zip hin hsplice)
  rw [← List.flatMap_map Located.table, htables, List.flatMap_map]
  exact (fst_zip_sublist _ groups).flatMap _

/-- Every statement of a round is for one of its boundaries that has keys. -/
theorem Rounds.asks (h : Rounds executor dialect context level data sent rounds result) :
    ∀ round ∈ rounds, Asks dialect context round.scopes round.statements := by
  have hround : ∀ {level : List Located} {data : Json} {sent statements : List String}
      {found : Except RunError (List Groups)},
      (fetchLevel executor dialect context (levelScopes data level)).outcome sent =
        (found, sent ++ statements) →
      Asks dialect context (levelScopes data level) statements := by
    intro level data sent statements found hfetch
    obtain ⟨asked, hasks, hsent⟩ := outcome_fetchLevel executor dialect context
      (levelScopes data level) sent
    rw [hfetch, List.append_cancel_left_eq] at hsent
    exact hsent ▸ hasks
  induction h with
  | finished => simp
  | unanswered _ hfetch | unspliced _ hfetch _ => simpa using hround hfetch
  | spliced _ hfetch _ _ ih => exact List.forall_mem_cons.mpr ⟨hround hfetch, ih⟩

theorem tables_levelScopes (data : Json) (level : List Located) :
    (levelScopes data level).map Prod.fst = (levelBoundaries data level).map Located.table := by
  rw [levelScopes, List.map_map]
  rfl

/-- The boundaries of all rounds are distinct boundaries of the plan. -/
theorem Rounds.tables_subperm
    (h : Rounds executor dialect context level data sent rounds result)
    (hin : ∀ located ∈ level, InPlan root located) :
    (rounds.flatMap fun round => round.scopes.map Prod.fst).Subperm
      (level.flatMap fun located => located.table.batched) := by
  have hboth : ∀ boundaries : List Located,
      (boundaries.map Located.table ++
        boundaries.flatMap fun boundary => boundary.table.batched).Perm
          (boundaries.flatMap fun boundary => boundary.table :: boundary.table.batched) :=
    fun boundaries => List.map_append_flatMap_perm _ _ _
  induction h with
  | finished => exact List.nil_subperm
  | unanswered | unspliced =>
      rw [List.flatMap_singleton, tables_levelScopes]
      exact ((List.sublist_append_left _ _).subperm.trans (hboth _).subperm).trans
        (levelBoundaries_batched_sublist hin).subperm
  | spliced _ _ hsplice _ ih =>
      have hbelow := (ih (forall_inPlan_of_spliceLevel hin hsplice)).trans
        (later_batched_sublist hin hsplice).subperm
      rw [List.flatMap_cons, tables_levelScopes]
      exact (((List.Subperm.refl _).append hbelow).trans (hboth _).subperm).trans
        (levelBoundaries_batched_sublist hin).subperm

/-- When the rounds succeed, the objects of the level are complete. -/
theorem Rounds.done (h : Rounds executor dialect context level data sent rounds (.ok final))
    (hin : ∀ located ∈ level, InPlan root located)
    (hseparated : ∀ table ∈ root.subtree, table.Separated fieldOnly)
    (hseparate : level.Pairwise Located.Separate) : Done level data final := by
  generalize hresult : (Except.ok final : Except RunError Json) = result at h
  induction h with
  | finished hnone =>
      obtain rfl := Except.ok.inj hresult
      apply done_of_settled hin hseparated hseparate
      rw [hnone]
      exact ⟨fun _ _ => rfl, by simp⟩
  | unanswered | unspliced => simp at hresult
  | spliced _ hfetch hsplice _ ih =>
      have hlength := length_of_fetchLevel hfetch
      rw [levelScopes, List.length_map] at hlength
      have htouched : ∀ info : TableInfo, info.fieldName ∈ fieldOnly info :=
        fun _ => List.mem_singleton_self _
      exact done_of_spliceLevel hin hseparated hseparate hlength hsplice
        (ih (forall_inPlan_of_spliceLevel hin hsplice)
          (pairwise_separate_of_splice htouched hseparated hin hseparate hsplice) hresult)

end Rounds

end Plan

end JoinPlan
