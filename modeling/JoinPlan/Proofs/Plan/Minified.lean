import JoinPlan.Proofs.Plan.Mirroring
import JoinPlan.Proofs.Plan.Scoping

/-!
# Minified plans are renamed plans

Selections are compiled and dependencies merged alike in a plain and in a minified
namespace, so a minified plan is the plain one with its aliases renamed, and a request that
cannot be compiled fails with the same error in both.
-/

namespace JoinPlan

/-- A schema whose tables always fetch the same columns, whatever alias they have. -/
def Schema.FetchesAlike (schema : Schema) : Prop :=
  ∀ name type table, schema.type? name = some type → type.table = some table →
    Plan.TableOptions.FetchesAlike table

namespace Plan

/-! ### Fields -/

section Field

variable {ledger : Ledger} {env : Environment} {scope otherScope : Scope}

theorem namedColumn_mirrors (name : String) :
    Mirrors ledger (fun r entry => (entry.1, r.column entry.2)) (namedColumn name)
      (namedColumn name) :=
  .bind (.column name) fun _ _ _ _ halias => .pure (halias.map fun word => (name, word))

theorem compileLeaf_mirrors (hscope : ledger.Agrees (fun r => scope.rename r) otherScope)
    (bucket : Option String) (name : String) (args : Arguments) {field otherField : ScopedField}
    (hfield : ledger.Agrees (fun r => field.rename r) otherField) :
    Mirrors ledger Node.rename (compileLeaf scope bucket name args field)
      (compileLeaf otherScope bucket name args otherField) := by
  have htype : otherScope.type = scope.type := by rw [hscope.eq]; rfl
  have hoptions : otherField.options = field.options := by rw [hfield.eq]; rfl
  have howner : ledger.Agrees (fun r => field.owner.map r.table) otherField.owner :=
    hfield.map ScopedField.owner
  unfold compileLeaf
  rw [hoptions, htype]
  cases field.options.sqlExpr with
  | some sql =>
      refine .bind (.column _) fun after hgrows aliasName word halias => .pure fun r hr => ?_
      simp only [Node.rename, halias r hr, howner r (hr.of_grows hgrows)]
  | none =>
      cases field.options.sqlDeps with
      | some columns =>
          refine .bind (.mapM fun column _ after _ => namedColumn_mirrors column)
            fun after hgrows named others hnamed => .pure fun r hr => ?_
          have hdistinct : Assoc.mapValues r.column (Assoc.distinct named) =
              Assoc.distinct others := by
            rw [← Assoc.distinct_mapValues, ← hnamed r hr]
            rfl
          simp only [Node.rename, hdistinct, howner r (hr.of_grows hgrows)]
      | none =>
          dsimp only
          split
          · refine .bind (.column _) fun after hgrows aliasName word halias => .pure fun r hr => ?_
            simp only [Node.rename, Column.rename, halias r hr, howner r (hr.of_grows hgrows)]
          · exact .pure fun _ _ => rfl

/-- A way to fill in children that mirrors itself in scopes and children renamed alike. -/
def Mirroring (fill : Scope → Children → Compile Children) : Prop :=
  ∀ ⦃ledger : Ledger⦄ ⦃scope otherScope : Scope⦄ ⦃children otherChildren : Children⦄,
    ledger.Agrees (fun r => scope.rename r) otherScope →
      ledger.Agrees (fun r => children.rename r) otherChildren →
        Mirrors ledger Children.rename (fill scope children) (fill otherScope otherChildren)

theorem tableOf_mirrors {field : TableField} (halike : TableOptions.FetchesAlike field.table)
    {existing other : Option (Table Node)}
    (hexisting : ledger.Agrees (fun r => existing.map (Table.rename r)) other) :
    Mirrors ledger Table.rename (tableOf env field existing) (tableOf env field other) := by
  cases existing with
  | none =>
      rw [hexisting.none]
      exact newTable_mirrors env halike
  | some table =>
      obtain ⟨found, rfl, htable⟩ := hexisting.some
      exact .pure htable

theorem compileTable_mirrors {field : TableField} (halike : TableOptions.FetchesAlike field.table)
    (type : TypeDefinition) {existing other : Option (Table Node)}
    (hexisting : ledger.Agrees (fun r => existing.map (Table.rename r)) other)
    {fill : Scope → Children → Compile Children} (hfill : Mirroring fill) :
    Mirrors ledger Node.rename (compileTable env field type existing fill)
      (compileTable env field type other fill) := by
  refine .bind (tableOf_mirrors halike hexisting) fun opened hopened table otherTable htable => ?_
  have hinfo : ∀ r, opened.Fits r → otherTable.info = table.info.rename r := by
    intro r hr
    rw [← Table.info_rename]
    exact congrArg Table.info (htable r hr).symm
  have hscope : opened.Agrees
      (fun r => Scope.rename r ⟨field.typeName, type, table.info.junction?⟩)
      ⟨field.typeName, type, otherTable.info.junction?⟩ := by
    intro r hr
    rw [hinfo r hr, TableInfo.junction?_rename]
    rfl
  have hchildren : opened.Agrees (fun r => Children.rename r ⟨table.shared, table.typed⟩)
      ⟨otherTable.shared, otherTable.typed⟩ :=
    fun r hr => by simp [← htable r hr, Children.rename]
  refine .bind (hfill hscope hchildren)
    fun after hgrows children otherChildren hfilled => .pure fun r hr => ?_
  have hlast : (lastColumns { table.info with isAbstract := field.kind.isAbstract }
      existing).map (Node.rename r) =
        lastColumns { otherTable.info with isAbstract := field.kind.isAbstract } other := by
    cases existing with
    | none =>
        rw [hexisting.none, ← lastColumns_rename, hinfo r (hr.of_grows hgrows)]
        rfl
    | some found =>
        obtain ⟨renamed, rfl, -⟩ := hexisting.some
        rfl
  simp only [Node.rename, Table.rename_eq, List.map_append, hlast, ← hfilled r hr,
    hinfo r (hr.of_grows hgrows), Children.rename, TableInfo.rename]

theorem compileField_mirrors (halike : env.schema.FetchesAlike) (fragments : Fragments)
    (hscope : ledger.Agrees (fun r => scope.rename r) otherScope) (nested : Bool)
    (bucket : Option String) {existing other : Option (Table Node)}
    (hexisting : ledger.Agrees (fun r => existing.map (Table.rename r)) other) (name : String)
    (args : Arguments) (selections : List Selection)
    {fill : Place → Scope → Children → Compile Children} (hfill : ∀ place, Mirroring (fill place)) :
    Mirrors ledger Node.rename
      (compileField env fragments scope nested bucket existing name args selections fill)
      (compileField env fragments otherScope nested bucket other name args selections fill) := by
  have hname : otherScope.typeName = scope.typeName := by rw [hscope.eq]; rfl
  have hfound : ledger.Agrees (fun r => (scope.field? name).map (ScopedField.rename r))
      (otherScope.field? name) := by
    intro r hr
    rw [← hscope r hr, Scope.field?_rename]
  unfold compileField
  split
  · exact .pure fun _ _ => rfl
  · rw [hname]
    cases hfield : scope.field? name with
    | none =>
        rw [hfield] at hfound
        rw [hfound.none]
        exact .fail _
    | some field =>
        rw [hfield] at hfound
        obtain ⟨otherField, hother, hfield⟩ := hfound.some
        have hoptions : otherField.options = field.options := by rw [hfield.eq]; rfl
        have htarget : fieldTarget env.schema fragments name otherField selections =
            fieldTarget env.schema fragments name field selections := by
          rw [hfield.eq]; rfl
        rw [hother]
        dsimp only
        rw [hoptions, htarget]
        split
        · exact .pure fun _ _ => rfl
        · refine .bind (.lift _) fun after hgrows target otherTarget hsame => ?_
          obtain rfl : otherTarget = target := hsame.eq
          cases hbacking : backingTable? env.schema otherTarget.typeName field.options with
          | none =>
              exact compileLeaf_mirrors (hscope.mono hgrows) bucket name args (hfield.mono hgrows)
          | some backing =>
              obtain ⟨htype, hbacked⟩ := backingTable?_eq_some hbacking
              refine .bind (.lift _) fun last hlast _ _ _ => ?_
              exact compileTable_mirrors (halike _ _ _ htype hbacked) backing.1
                (hexisting.mono (hgrows.trans hlast)) (hfill otherTarget.place)

end Field

/-! ### Selections -/

/-- The scope that is entered and the bucket that is filled there, renamed. -/
def renameEntered (r : Renaming) :
    Option (Scope × Option String) → Option (Scope × Option String) :=
  Option.map fun entered => (entered.1.rename r, entered.2)

theorem rowsScope_rename (r : Renaming) (schema : Schema) (scope : Scope)
    (bucket condition : Option String) :
    rowsScope schema (scope.rename r) bucket condition =
      renameEntered r <$> rowsScope schema scope bucket condition := by
  unfold rowsScope
  by_cases hkind : scope.type.kind = .object
  · have hrenamed : (scope.rename r).type.kind = .object := hkind
    have hmatches : (scope.rename r).matches condition = scope.matches condition := by
      cases condition <;> rfl
    rw [if_pos hkind, if_pos hrenamed, hmatches]
    split <;> rfl
  · have hrenamed : (scope.rename r).type.kind ≠ .object := hkind
    rw [if_neg hkind, if_neg hrenamed]
    have hname : (scope.rename r).typeName = scope.typeName := rfl
    rw [hname, conditionScope, conditionScope]
    cases schema.type? (condition.getD scope.typeName) <;> rfl

theorem inlineScope_rename (r : Renaming) (schema : Schema) (place : Place) (scope : Scope)
    (bucket condition : Option String) :
    inlineScope schema place (scope.rename r) bucket condition =
      renameEntered r <$> inlineScope schema place scope bucket condition := by
  cases place with
  | rows => exact rowsScope_rename r schema scope bucket condition
  | edges typeName | connection typeName _ =>
      simp only [inlineScope]
      split <;> rfl

theorem spreadScope_rename (r : Renaming) (schema : Schema) (place : Place) (scope : Scope)
    (bucket : Option String) (condition : String) :
    spreadScope schema place (scope.rename r) bucket condition =
      renameEntered r <$> spreadScope schema place scope bucket condition := by
  cases place with
  | rows => exact rowsScope_rename r schema scope bucket (some condition)
  | edges typeName | connection typeName edgeType => rfl

section Select

variable {env : Environment} {fragments : Fragments} {spread : SpreadCompiler}

/-- What is entered is filled alike on both sides. -/
theorem entered_mirrors {ledger : Ledger} {children otherChildren : Children}
    (hchildren : ledger.Agrees (fun r => children.rename r) otherChildren)
    {first second : Except ConfigurationError (Option (Scope × Option String))}
    (hentered : ledger.Agrees (fun r => renameEntered r <$> first) second)
    {fill : Scope → Option String → Children → Compile Children}
    (hfill : ∀ bucket, Mirroring fun scope => fill scope bucket) :
    Mirrors ledger Children.rename
      (liftM first >>= fun
        | some (scope, bucket) => fill scope bucket children
        | none => pure children)
      (liftM second >>= fun
        | some (scope, bucket) => fill scope bucket otherChildren
        | none => pure otherChildren) := by
  cases first with
  | error error =>
      obtain rfl := hentered.eq
      exact fun _ _ _ => .failed _
  | ok entered =>
      cases entered with
      | none =>
          obtain rfl := hentered.eq
          exact .pure hchildren
      | some target =>
          have hscope : ledger.Agrees (fun r => target.1.rename r)
              (target.1.rename ledger.toRenaming) := by
            intro r hr
            have hsame := (hentered r hr).trans hentered.eq
            exact (Prod.mk.inj (Option.some.inj (Except.ok.inj hsame))).1
          obtain rfl := hentered.eq
          exact hfill target.2 hscope hchildren

mutual

theorem select_mirrors (halike : env.schema.FetchesAlike)
    (hspread : ∀ place bucket name, Mirroring fun scope => spread place scope bucket name) :
    ∀ (selections : List Selection) (place : Place) (bucket : Option String),
      Mirroring fun scope => select env fragments spread place scope bucket selections
  | [], place, bucket => fun _ _ _ _ _ _ hchildren => .pure hchildren
  | selection :: rest, place, bucket => by
      intro ledger scope otherScope children otherChildren hscope hchildren
      refine .bind (selectOne_mirrors halike hspread selection place bucket hscope hchildren)
        fun after hgrows filled otherFilled hfilled => ?_
      exact select_mirrors halike hspread rest place bucket (hscope.mono hgrows) hfilled

theorem selectOne_mirrors (halike : env.schema.FetchesAlike)
    (hspread : ∀ place bucket name, Mirroring fun scope => spread place scope bucket name) :
    ∀ (selection : Selection) (place : Place) (bucket : Option String),
      Mirroring fun scope => selectOne env fragments spread place scope bucket selection
  | .field name args selections, .rows, bucket => by
      intro ledger scope otherScope children otherChildren hscope hchildren
      have hexisting : ledger.Agrees
          (fun r => (existingTable (children.bucket bucket) name).map (Table.rename r))
          (existingTable (otherChildren.bucket bucket) name) := by
        intro r hr
        rw [← hchildren r hr, bucket_rename, existingTable_rename]
      refine .bind (compileField_mirrors halike fragments hscope true bucket hexisting name args
        selections fun place => select_mirrors halike hspread selections place none)
        fun after hgrows node other hnode => .pure fun r hr => ?_
      change (putField children bucket name node).rename r =
        putField otherChildren bucket name other
      simp only [← putField_rename, hchildren r (hr.of_grows hgrows), hnode r hr]
  | .field name args selections, .edges typeName, bucket => by
      intro ledger scope otherScope children otherChildren hscope hchildren
      dsimp only
      rw [selectOne, selectOne]
      split
      · exact select_mirrors halike hspread selections .rows bucket hscope hchildren
      · exact .pure hchildren
  | .field name args selections, .connection typeName edgeType, bucket => by
      intro ledger scope otherScope children otherChildren hscope hchildren
      dsimp only
      rw [selectOne, selectOne]
      split
      · exact select_mirrors halike hspread selections (.edges edgeType) bucket hscope hchildren
      · exact .pure hchildren
  | .inline condition selections, place, bucket => by
      intro ledger scope otherScope children otherChildren hscope hchildren
      refine entered_mirrors hchildren (fun r hr => ?_)
        (fun bucket => select_mirrors halike hspread selections place bucket)
      simp only [← inlineScope_rename, hscope r hr]
  | .spread fragment, place, bucket => hspread place bucket fragment

end

theorem selectSpread_mirrors (halike : env.schema.FetchesAlike) (depth : Nat) (place : Place)
    (bucket : Option String) (name : String) :
    Mirroring fun scope => selectSpread env fragments depth place scope bucket name := by
  induction depth generalizing place bucket name with
  | zero => exact fun _ _ _ _ _ _ _ => .fail _
  | succ depth ih =>
      intro ledger scope otherScope children otherChildren hscope hchildren
      dsimp only
      rw [selectSpread, selectSpread]
      cases fragments.named? name with
      | none => exact .fail _
      | some fragment =>
          refine entered_mirrors hchildren (fun r hr => ?_)
            (fun bucket => select_mirrors halike ih fragment.selections place bucket)
          simp only [← spreadScope_rename, hscope r hr]

/-- Selections are compiled alike on both sides, with the fragments they spread. -/
theorem selectAll_mirrors (halike : env.schema.FetchesAlike) (selections : List Selection)
    (place : Place) : Mirroring (selectAll env fragments selections place) :=
  select_mirrors halike (selectSpread_mirrors halike fragments.depth) selections place none

end Select

/-! ### Merging dependencies -/

/-- Merging is a step of the compiler that never fails. -/
def merging {α : Type} (action : StateM Namespace α) : Compile α :=
  modifyGet action.run

theorem merging_pure {α : Type} (value : α) : merging (pure value) = pure value := rfl

theorem merging_bind {α β : Type} (action : StateM Namespace α) (next : α → StateM Namespace β) :
    merging (action >>= next) = merging action >>= fun value => merging (next value) := rfl

theorem merging_mapM {α β : Type} (next : α → StateM Namespace β) (items : List α) :
    merging (items.mapM next) = items.mapM fun item => merging (next item) := by
  induction items with
  | nil => rfl
  | cons item rest ih =>
      rw [List.mapM_cons, List.mapM_cons, ← ih]
      rfl

section Merge

variable {ledger : Ledger}

theorem mergedNode_mirrors (columns : List String) {owner otherOwner : Option String}
    (howner : ledger.Agrees (fun r => owner.map r.table) otherOwner) :
    Mirrors ledger Node.rename (merging (mergedNode (owner, columns)))
      (merging (mergedNode (otherOwner, columns))) := by
  have hcolumn : ∀ name ∈ columns, ∀ after, ledger.Grows after →
      Mirrors after (fun r entry => (entry.1, r.column entry.2)) (merging (neededColumn name))
        (merging (neededColumn name)) :=
    fun name _ _ _ => namedColumn_mirrors name
  simp only [mergedNode, merging_bind, merging_mapM, merging_pure]
  refine .bind (.mapM hcolumn) fun after hgrows merged other hmerged => .pure fun r hr => ?_
  simp only [Node.rename, Assoc.mapValues, hmerged r hr, howner r (hr.of_grows hgrows)]

/-- The dependencies among children are merged alike on both sides: a renaming keeps the
tables that they belong to apart. -/
theorem mergedNodes_mirrors {nodes others : List Node}
    (hnodes : ledger.Agrees (fun r => nodes.map (Node.rename r)) others) :
    Mirrors ledger (fun r => List.map (Node.rename r))
      (merging ((neededColumns nodes).mapM mergedNode))
      (merging ((neededColumns others).mapM mergedNode)) := by
  have hneeded : neededColumns others =
      Assoc.mapKeys (Option.map ledger.toRenaming.table) (neededColumns nodes) := by
    rw [hnodes.eq, neededColumns_rename ledger.table_injective]
  rw [hneeded, merging_mapM, merging_mapM, Assoc.mapKeys, List.mapM_map]
  refine .mapM fun needed hmem after hgrows => mergedNode_mirrors needed.2 (.mono ?_ hgrows)
  obtain ⟨columns, hdependencies⟩ := exists_dependencies_of_mem_neededColumns hmem
  intro r hr
  have hsame := List.map_inj_left.mp ((hnodes r hr).trans hnodes.eq) _ hdependencies
  simp only [Node.rename, Node.dependencies.injEq] at hsame
  exact hsame.2

mutual

theorem Table.prune_mirrors : ∀ (table : Table Node) {ledger : Ledger} {other : Table Node},
    ledger.Agrees (fun r => table.rename r) other →
      Mirrors ledger Table.rename (merging table.prune) (merging other.prune)
  | ⟨info, shared, typed⟩, ledger, ⟨otherInfo, otherShared, otherTyped⟩, h => by
      have hinfo : ledger.Agrees (fun r => info.rename r) otherInfo :=
        fun r hr => (Table.info_rename r _).symm.trans (congrArg Table.info (h r hr))
      have hshared : ledger.Agrees (fun r => shared.map (Node.rename r)) otherShared :=
        fun r hr => (Table.shared_rename r _).symm.trans (congrArg Table.shared (h r hr))
      have htyped : ledger.Agrees (fun r => Assoc.mapValues (List.map (Node.rename r)) typed)
          otherTyped :=
        fun r hr => (Table.typed_rename r _).symm.trans (congrArg Table.typed (h r hr))
      rw [Table.prune, Table.prune, merging_bind, merging_bind]
      refine .bind (pruneNodes_mirrors shared hshared) fun pruned hpruned kept otherKept hkept => ?_
      rw [merging_bind, merging_bind]
      refine .bind (mergedNodes_mirrors (hshared.mono hpruned))
        fun added hadded merged otherMerged hmerged => ?_
      rw [merging_bind, merging_bind]
      refine .bind (pruneBuckets_mirrors typed (htyped.mono (hpruned.trans hadded)))
        fun after hafter buckets otherBuckets hbuckets => .pure fun r hr => ?_
      have hfits := hr.of_grows hafter
      simp only [Table.rename_eq, List.map_append, hinfo r (hfits.of_grows (hpruned.trans hadded)),
        hkept r (hfits.of_grows hadded), hmerged r hfits, hbuckets r hr]

theorem Node.prune_mirrors : ∀ (node : Node) {ledger : Ledger} {other : Node},
    ledger.Agrees (fun r => node.rename r) other →
      Mirrors ledger Node.rename (merging node.prune) (merging other.prune)
  | .table table, ledger, other, h => by
      have htable : ledger.Agrees (fun r => table.rename r) (table.rename ledger.toRenaming) :=
        fun r hr => Node.table.inj ((h r hr).trans h.eq)
      obtain rfl := h.eq
      rw [Node.rename, Node.prune, Node.prune, merging_bind, merging_bind]
      exact .bind (table.prune_mirrors htable) fun _ _ _ _ hpruned => .pure (hpruned.map Node.table)
  | .column column, ledger, other, h => by
      obtain rfl := h.eq
      exact .pure h
  | .dependencies columns owner, ledger, other, h => by
      obtain rfl := h.eq
      exact .pure h
  | .composite names fieldName aliasName owner, ledger, other, h => by
      obtain rfl := h.eq
      exact .pure h
  | .expression sql fieldName aliasName args owner, ledger, other, h => by
      obtain rfl := h.eq
      exact .pure h
  | .nothing, ledger, other, h => by
      obtain rfl := h.eq
      exact .pure h

theorem pruneNodes_mirrors : ∀ (nodes : List Node) {ledger : Ledger} {others : List Node},
    ledger.Agrees (fun r => nodes.map (Node.rename r)) others →
      Mirrors ledger (fun r => List.map (Node.rename r)) (merging (pruneNodes nodes))
        (merging (pruneNodes others))
  | [], ledger, others, h => by
      obtain rfl := h.eq
      exact .pure h
  | node :: rest, ledger, others, h => by
      obtain ⟨other, otherRest, rfl, hnode, hrest⟩ := h.cons
      have hkept : ∀ {first second : StateM Namespace (List Node)},
          first = (do
            let node ← node.prune
            let rest ← pruneNodes rest
            pure (node :: rest)) →
          second = (do
            let node ← other.prune
            let rest ← pruneNodes otherRest
            pure (node :: rest)) →
          Mirrors ledger (fun r => List.map (Node.rename r)) (merging first) (merging second) := by
        rintro first second rfl rfl
        rw [merging_bind, merging_bind]
        refine .bind (node.prune_mirrors hnode) fun between hbetween value otherValue hvalue => ?_
        rw [merging_bind, merging_bind]
        refine .bind (pruneNodes_mirrors rest (hrest.mono hbetween))
          fun after hafter values otherValues hvalues => .pure fun r hr => ?_
        simp only [List.map_cons, hvalue r (hr.of_grows hafter), hvalues r hr]
      obtain rfl := hnode.eq
      cases node with
      | dependencies columns owner =>
          rw [Node.rename, pruneNodes, pruneNodes]
          exact pruneNodes_mirrors rest hrest
      | table | column | composite | expression | nothing =>
          apply hkept
          · rw [pruneNodes]
            simp
          · rw [pruneNodes]
            simp [Node.rename]

theorem pruneBuckets_mirrors : ∀ (buckets : List (String × List Node)) {ledger : Ledger}
    {others : List (String × List Node)},
    ledger.Agrees (fun r => Assoc.mapValues (List.map (Node.rename r)) buckets) others →
      Mirrors ledger (fun r => Assoc.mapValues (List.map (Node.rename r)))
        (merging (pruneBuckets buckets)) (merging (pruneBuckets others))
  | [], ledger, others, h => by
      obtain rfl := h.eq
      exact .pure h
  | bucket :: rest, ledger, others, h => by
      obtain ⟨other, otherRest, rfl, hbucket, hrest⟩ := h.cons
      rw [pruneBuckets, pruneBuckets, merging_bind, merging_bind]
      refine .bind (pruneBucket_mirrors bucket hbucket)
        fun between hbetween value otherValue hvalue => ?_
      rw [merging_bind, merging_bind]
      refine .bind (pruneBuckets_mirrors rest (hrest.mono hbetween))
        fun after hafter values otherValues hvalues => .pure fun r hr => ?_
      have hfirst := hvalue r (hr.of_grows hafter)
      have hothers := hvalues r hr
      simp only [Assoc.mapValues, List.map_cons] at hfirst hothers ⊢
      rw [hfirst, hothers]

theorem pruneBucket_mirrors : ∀ (bucket : String × List Node) {ledger : Ledger}
    {other : String × List Node},
    ledger.Agrees (fun r => (bucket.1, bucket.2.map (Node.rename r))) other →
      Mirrors ledger (fun r bucket => (bucket.1, bucket.2.map (Node.rename r)))
        (merging (pruneBucket bucket)) (merging (pruneBucket other))
  | (type, nodes), ledger, (otherType, others), h => by
      obtain ⟨htype, hnodes⟩ := h.pair
      obtain rfl : otherType = type := htype.eq
      rw [pruneBucket, pruneBucket, merging_bind, merging_bind]
      refine .bind (pruneNodes_mirrors nodes hnodes) fun pruned hpruned kept otherKept hkept => ?_
      rw [merging_bind, merging_bind]
      refine .bind (mergedNodes_mirrors (hnodes.mono hpruned))
        fun after hafter merged otherMerged hmerged => .pure fun r hr => ?_
      simp only [List.map_append, hkept r (hr.of_grows hafter), hmerged r hr]

end

end Merge

/-! ### Plans -/

section Compile

variable {ledger : Ledger} {env : Environment}

theorem compileOn_mirrors (halike : env.schema.FetchesAlike) (request : Request)
    (type : TypeDefinition) :
    Mirrors ledger Table.rename (compileOn env request type) (compileOn env request type) := by
  refine .bind (.lift_request _) fun asked hasked field otherField hfield => ?_
  obtain rfl : otherField = field := hfield.eq
  have hscope : asked.Agrees (fun r => Scope.rename r ⟨request.parentType, type, none⟩)
      ⟨request.parentType, type, none⟩ := fun _ _ => rfl
  have hexisting : asked.Agrees (fun r => (none : Option (Table Node)).map (Table.rename r)) none :=
    fun _ _ => rfl
  refine .bind (compileField_mirrors halike request.fragments hscope false none hexisting
    otherField.name otherField.args otherField.selections
    fun place => selectAll_mirrors halike otherField.selections place)
      fun compiled hcompiled node other hnode => ?_
  cases node with
  | table table =>
      have htable : compiled.Agrees (fun r => table.rename r) (table.rename compiled.toRenaming) :=
        fun r hr => Node.table.inj ((hnode r hr).trans hnode.eq)
      obtain rfl := hnode.eq
      exact table.prune_mirrors htable
  | column | dependencies | composite | expression | nothing =>
      obtain rfl := hnode.eq
      exact .fail _

theorem compileWith_mirrors (halike : env.schema.FetchesAlike) (request : Request) :
    Mirrors ledger Table.rename (compileWith env request) (compileWith env request) := by
  unfold compileWith
  cases env.schema.type? request.parentType with
  | none => exact .fail _
  | some type => exact compileOn_mirrors halike request type

theorem compileNodeWith_mirrors (halike : env.schema.FetchesAlike) (dialect : Dialect)
    (typeName : String) (found : NodeCondition) (request : Request) :
    Mirrors ledger Table.rename (compileNodeWith env dialect typeName found request)
      (compileNodeWith env dialect typeName found request) := by
  unfold compileNodeWith
  cases env.schema.type? typeName with
  | none => exact .fail _
  | some type =>
      dsimp only
      cases type.table with
      | none => exact .fail _
      | some table =>
          refine .bind (.lift _) fun after hgrows condition other hsame => ?_
          obtain rfl : other = condition := hsame.eq
          cases request.fields with
          | nil => exact fun _ _ _ => .failed _
          | cons field rest => exact compileOn_mirrors halike request _

end Compile

/-- What compiling gives in a plain and in a minified namespace: the same error, or a plan
and that plan with its aliases renamed, no two of a kind to one. -/
inductive MinifiedAlike : Except PlanError (Table Node) → Except PlanError (Table Node) → Prop
  | failed (error : PlanError) : MinifiedAlike (.error error) (.error error)
  | renamed (root : Table Node) (r : Renaming) (htable : Function.Injective r.table)
      (hcolumn : Function.Injective r.column) : MinifiedAlike (.ok root) (.ok (root.rename r))

theorem Mirrors.minifiedAlike {first second : Compile (Table Node)}
    (h : Mirrors .empty Table.rename first second) :
    MinifiedAlike (first.run' (.fresh false)) (second.run' (.fresh true)) := by
  have hmirrored := h _ _ Ledger.describes_fresh
  change MinifiedAlike (Prod.fst <$> first (.fresh false)) (Prod.fst <$> second (.fresh true))
  generalize first (.fresh false) = one at hmirrored
  generalize second (.fresh true) = two at hmirrored
  cases hmirrored with
  | failed error => exact .failed error
  | @done after root other plain minified hgrows hdescribes hagrees =>
      obtain rfl := hagrees.eq
      exact .renamed root after.toRenaming after.table_injective after.column_injective

/-- Minification only renames.  If no table's alias decides which columns it always
fetches, then a request and a node fetch are compiled with minified aliases to the plan of
the readable ones, renamed, or fail with the same error. -/
theorem compile_minifiedAlike {env : Environment} (halike : env.schema.FetchesAlike)
    (request : Request) :
    MinifiedAlike (compile env false request) (compile env true request) ∧
      ∀ dialect typeName found,
        MinifiedAlike (compileNode env dialect false typeName found request)
          (compileNode env dialect true typeName found request) :=
  ⟨(compileWith_mirrors halike request).minifiedAlike, fun dialect typeName found =>
    (compileNodeWith_mirrors halike dialect typeName found request).minifiedAlike⟩

theorem tagsSchema_fetchesAlike (field : String) (options : FieldOptions) :
    (tagsSchema field options).FetchesAlike := by
  intro name type table htype htable columns hcolumns
  have hmem := Assoc.mem_of_get?_eq_some htype
  simp only [tagsSchema, List.mem_cons, List.not_mem_nil, or_false, Prod.mk.injEq] at hmem
  rcases hmem with ⟨-, rfl⟩ | ⟨-, rfl⟩ | ⟨-, rfl⟩ | ⟨-, rfl⟩ | ⟨-, rfl⟩ <;>
    simp only [tableType, Option.some.injEq, reduceCtorEq] at htable <;>
    simp [← htable] at hcolumns

/-- Posts with a page of tags each, minified. -/
theorem compile_minifiedAlike_postTags :
    (tagsSchema "tags" taggingOptions).FetchesAlike ∧
      compile ⟨tagsSchema "tags" taggingOptions, .null⟩ false (tagsRequest "tags") =
        .ok (postsPlan postTags) ∧
      ∃ r : Renaming, Function.Injective r.table ∧ Function.Injective r.column ∧
        compile ⟨tagsSchema "tags" taggingOptions, .null⟩ true (tagsRequest "tags") =
          .ok ((postsPlan postTags).rename r) := by
  have halike := tagsSchema_fetchesAlike "tags" taggingOptions
  refine ⟨halike, compile_postTags, ?_⟩
  have hminified :
      MinifiedAlike (compile ⟨tagsSchema "tags" taggingOptions, .null⟩ false (tagsRequest "tags"))
        (compile ⟨tagsSchema "tags" taggingOptions, .null⟩ true (tagsRequest "tags")) :=
    (compile_minifiedAlike halike (tagsRequest "tags")).1
  rw [compile_postTags] at hminified
  generalize compile _ true _ = result at hminified ⊢
  cases hminified with
  | renamed root r htable hcolumn => exact ⟨r, htable, hcolumn, rfl⟩

end Plan

end JoinPlan
