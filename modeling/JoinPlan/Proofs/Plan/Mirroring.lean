import JoinPlan.Proofs.Plan.Ledger

/-!
# Compiling side by side

A step of the compiler is run in a plain and in a minified namespace.  Both runs fail
alike, or both hand out more aliases and the minified result is the plain one renamed.
Steps that mirror each other compose, so tables are set up alike on both sides.
-/

namespace JoinPlan.Plan

/-- The results of a plain and of a minified run that started from a ledger. -/
inductive Mirrored {α : Type} (ledger : Ledger) (renamed : Renaming → α → α) :
    Except PlanError (α × Namespace) → Except PlanError (α × Namespace) → Prop
  | failed (error : PlanError) : Mirrored ledger renamed (.error error) (.error error)
  | done {after : Ledger} {value other : α} {plain minified : Namespace}
      (hgrows : ledger.Grows after) (hdescribes : after.Describes plain minified)
      (hagrees : after.Agrees (fun r => renamed r value) other) :
      Mirrored ledger renamed (.ok (value, plain)) (.ok (other, minified))

/-- Actions whose runs in a plain and in a minified namespace mirror each other. -/
def Mirrors {α : Type} (ledger : Ledger) (renamed : Renaming → α → α)
    (first second : Compile α) : Prop :=
  ∀ plain minified, ledger.Describes plain minified →
    Mirrored ledger renamed (first plain) (second minified)

/-! ### Composing steps -/

namespace Mirrors

section Rules

variable {α β : Type} {ledger : Ledger} {renamed : Renaming → α → α}
  {renamedNext : Renaming → β → β} {first second : Compile α}

theorem pure {value other : α} (h : ledger.Agrees (fun r => renamed r value) other) :
    Mirrors ledger renamed (pure value) (pure other) :=
  fun _ _ hdescribes => .done (.refl ledger) hdescribes h

theorem fail (error : ConfigurationError) :
    Mirrors ledger renamed (Compile.fail error) (Compile.fail error) :=
  fun _ _ _ => .failed _

theorem bind {next nextSecond : α → Compile β} (hfirst : Mirrors ledger renamed first second)
    (hnext : ∀ after, ledger.Grows after → ∀ value other,
      after.Agrees (fun r => renamed r value) other →
        Mirrors after renamedNext (next value) (nextSecond other)) :
    Mirrors ledger renamedNext (first >>= next) (second >>= nextSecond) := by
  intro plain minified hdescribes
  have hmirrored := hfirst plain minified hdescribes
  change Mirrored ledger renamedNext (first plain >>= fun found => next found.1 found.2)
    (second minified >>= fun found => nextSecond found.1 found.2)
  generalize first plain = one at hmirrored
  generalize second minified = two at hmirrored
  cases hmirrored with
  | failed error => exact .failed error
  | done hgrows hdescribes hagrees =>
      have hrest := hnext _ hgrows _ _ hagrees _ _ hdescribes
      change Mirrored _ _ (next _ _) (nextSecond _ _)
      generalize next _ _ = one at hrest ⊢
      generalize nextSecond _ _ = two at hrest ⊢
      cases hrest with
      | failed error => exact .failed error
      | done hmore hdescribes hagrees => exact .done (hgrows.trans hmore) hdescribes hagrees

theorem map {f g : α → β} (hfirst : Mirrors ledger renamed first second)
    (hmap : ∀ after, ledger.Grows after → ∀ value other,
      after.Agrees (fun r => renamed r value) other →
        after.Agrees (fun r => renamedNext r (f value)) (g other)) :
    Mirrors ledger renamedNext (f <$> first) (g <$> second) :=
  bind hfirst fun after hgrows value other hagrees =>
    Mirrors.pure (hmap after hgrows value other hagrees)

theorem lift (action : Except ConfigurationError α) :
    Mirrors ledger (fun _ => id) (liftM action) (liftM action) := by
  intro plain minified hdescribes
  cases action with
  | error error => exact .failed _
  | ok value => exact .done (.refl ledger) hdescribes (.const ledger value)

theorem lift_request (action : Except RequestError α) :
    Mirrors ledger (fun _ => id) (liftM action) (liftM action) := by
  intro plain minified hdescribes
  cases action with
  | error error => exact .failed _
  | ok value => exact .done (.refl ledger) hdescribes (.const ledger value)

theorem refuse (refused : Bool) (error : ConfigurationError) :
    Mirrors ledger (fun _ => id) (Compile.refuse refused error) (Compile.refuse refused error) := by
  unfold Compile.refuse
  split
  · exact fail error
  · exact Mirrors.pure (.const ledger ())

theorem table (name : String) :
    Mirrors ledger Renaming.table (Compile.table name) (Compile.table name) := by
  intro plain minified hdescribes
  obtain ⟨after, hgrows, hafter, hmem⟩ := hdescribes.table name
  exact .done hgrows hafter fun r hr => hr.table _ hmem

theorem column (name : String) :
    Mirrors ledger Renaming.column (Compile.column name) (Compile.column name) := by
  intro plain minified hdescribes
  obtain ⟨after, hgrows, hafter, hmem⟩ := hdescribes.column name
  exact .done hgrows hafter fun r hr => hr.column _ hmem

theorem mapM {items : List α} {next nextSecond : α → Compile β}
    (h : ∀ item ∈ items, ∀ after, ledger.Grows after →
      Mirrors after renamedNext (next item) (nextSecond item)) :
    Mirrors ledger (fun r => List.map (renamedNext r)) (items.mapM next)
      (items.mapM nextSecond) := by
  induction items generalizing ledger with
  | nil => exact Mirrors.pure (.const ledger [])
  | cons item rest ih =>
      rw [List.forall_mem_cons] at h
      rw [List.mapM_cons, List.mapM_cons]
      refine bind (h.1 ledger (.refl ledger)) fun between hfirst value other hvalue => ?_
      refine bind (ih fun item hitem after hgrows =>
        h.2 item hitem after (hfirst.trans hgrows)) fun after hgrows values others hvalues => ?_
      refine Mirrors.pure fun r hr => ?_
      simp only [List.map_cons, hvalue r (hr.of_grows hgrows), hvalues r hr]

end Rules

end Mirrors

/-! ### Setting up a table -/

section Table

variable {ledger : Ledger} {owner otherOwner : Option String}

theorem ownColumn_mirrors (name : String)
    (howner : ledger.Agrees (fun r => owner.map r.table) otherOwner) :
    Mirrors ledger Column.rename (ownColumn name owner) (ownColumn name otherOwner) := by
  refine .bind (.column name) fun after hgrows aliasName word halias => .pure fun r hr => ?_
  simp only [Column.rename, halias r hr, howner r (hr.of_grows hgrows)]

theorem columnNode_mirrors (name : String)
    (howner : ledger.Agrees (fun r => owner.map r.table) otherOwner) :
    Mirrors ledger Node.rename (Node.column <$> ownColumn name owner)
      (Node.column <$> ownColumn name otherOwner) :=
  .map (ownColumn_mirrors name howner) fun _ _ _ _ hcolumn => hcolumn.map Node.column

theorem keyNode_mirrors (key : UniqueKey)
    (howner : ledger.Agrees (fun r => owner.map r.table) otherOwner) :
    Mirrors ledger Node.rename (keyNode key owner) (keyNode key otherOwner) := by
  cases key with
  | one name => exact columnNode_mirrors name howner
  | many names =>
      refine .bind (.column _) fun after hgrows aliasName word halias => .pure fun r hr => ?_
      simp only [Node.rename, halias r hr, howner r (hr.of_grows hgrows)]

theorem ownColumns_mirrors (names : List String)
    (howner : ledger.Agrees (fun r => owner.map r.table) otherOwner) :
    Mirrors ledger (fun r => List.map (Node.rename r)) (ownColumns names owner)
      (ownColumns names otherOwner) :=
  .mapM fun name _ _ hgrows => columnNode_mirrors name (howner.mono hgrows)

/-- How junctions are fetched, with the nodes that identify them, renamed. -/
def renameFetch (r : Renaming) (fetched : JunctionFetch × List Node) :
    JunctionFetch × List Node :=
  (fetched.1.rename r, fetched.2.map (Node.rename r))

theorem junctionFetch_mirrors (fieldName : String) {aliasName word : String}
    (halias : ledger.Agrees (fun r => r.table aliasName) word) (junction : JunctionOptions) :
    Mirrors ledger renameFetch (junctionFetch fieldName aliasName junction)
      (junctionFetch fieldName word junction) := by
  have howner : ledger.Agrees (fun r => (some aliasName).map r.table) (some word) :=
    halias.map some
  unfold junctionFetch
  cases junction.sqlJoins with
  | some joins => exact .pure fun _ _ => rfl
  | none =>
      cases junction.sqlBatch with
      | none => exact .fail _
      | some batch =>
          cases junction.uniqueKey with
          | none => exact .fail _
          | some key =>
              refine .bind (keyNode_mirrors key howner)
                fun keyed hkeyed identity otherIdentity hidentity => ?_
              refine .bind (ownColumn_mirrors batch.thisKey (howner.mono hkeyed))
                fun this hthis thisKey otherThis hthisKey => ?_
              refine .bind (ownColumn_mirrors batch.parentKey (.const this none))
                fun after hafter parentKey otherParent hparentKey => ?_
              refine .pure fun r hr => ?_
              have hbetween := hr.of_grows hafter
              simp only [renameFetch, JunctionFetch.rename, List.map_cons, List.map_nil,
                hidentity r (hbetween.of_grows hthis), hthisKey r hbetween, hparentKey r hr]

/-- Junctions with the nodes that identify them, renamed. -/
def renameJunctionNode (r : Renaming) (junction : Junction × List Node) : Junction × List Node :=
  (junction.1.rename r, junction.2.map (Node.rename r))

theorem junctionNode_mirrors (env : Environment) (field : TableField)
    (junction : JunctionOptions) :
    Mirrors ledger renameJunctionNode (junctionNode env field junction)
      (junctionNode env field junction) := by
  refine .bind (.table _) fun opened hopened aliasName word halias => ?_
  refine .bind (.lift _) fun ordered hordered orderBy otherOrder horder => ?_
  refine .bind (.lift _) fun sorted hsorted sortKey otherSort hsort => ?_
  have hword := halias.mono (hordered.trans hsorted)
  refine .bind (junctionFetch_mirrors field.name hword junction)
    fun after hafter fetched otherFetched hfetched => ?_
  obtain rfl : otherOrder = orderBy := horder.eq
  obtain rfl : otherSort = sortKey := hsort.eq
  refine .pure fun r hr => ?_
  have hboth := Prod.mk.inj (hfetched r hr)
  simp only [renameJunctionNode, Junction.rename, hword r (hr.of_grows hafter), hboth]

/-- How tables are reached, with the nodes the relation needs, renamed. -/
def renameReached (r : Renaming) (reached : Option Relation × List Node) :
    Option Relation × List Node :=
  (reached.1.map (Relation.rename r), reached.2.map (Node.rename r))

theorem relation_mirrors (env : Environment) (field : TableField) :
    Mirrors ledger renameReached (relation env field) (relation env field) := by
  unfold relation
  cases field.options.sqlJoin with
  | some condition => exact .pure fun _ _ => rfl
  | none =>
      cases field.options.junction with
      | some junction =>
          refine .bind (junctionNode_mirrors env field junction)
            fun after hafter reached other hreached => .pure fun r hr => ?_
          have hboth := Prod.mk.inj (hreached r hr)
          simp only [renameReached, Option.map_some, Relation.rename, hboth]
      | none =>
          cases field.options.sqlBatch with
          | some batch =>
              refine .bind (ownColumn_mirrors batch.thisKey (.const ledger none))
                fun this hthis thisKey otherThis hthisKey => ?_
              refine .bind (ownColumn_mirrors batch.parentKey (.const this none))
                fun after hafter parentKey otherParent hparentKey => .pure fun r hr => ?_
              simp only [renameReached, Option.map_some, Relation.rename, List.map_nil,
                hthisKey r (hr.of_grows hafter), hparentKey r hr]
          | none => exact .pure fun _ _ => rfl

theorem bind_orderBy_rename (r : Renaming) (junction : Option Junction) :
    (junction.map (Junction.rename r)).bind Junction.orderBy =
      junction.bind Junction.orderBy := by
  cases junction <;> rfl

theorem bind_sortKey_rename (r : Renaming) (junction : Option Junction) :
    (junction.map (Junction.rename r)).bind Junction.sortKey =
      junction.bind Junction.sortKey := by
  cases junction <;> rfl

theorem fieldSortKey_rename (r : Renaming) (env : Environment) (field : TableField)
    (hasOrder : Bool) (junction : Option Junction) :
    fieldSortKey env field hasOrder (junction.map (Junction.rename r)) =
      fieldSortKey env field hasOrder junction := by
  unfold fieldSortKey paginatedSortKey
  rw [bind_sortKey_rename]

theorem pagingColumns_mirrors (paginate : Bool) (sortKey : Option (List SortTerm))
    {junction : Option Junction} {other : Option Junction}
    (hjunction : ledger.Agrees (fun r => junction.map (Junction.rename r)) other) :
    Mirrors ledger (fun r => List.map (Node.rename r)) (pagingColumns paginate sortKey junction)
      (pagingColumns paginate sortKey other) := by
  have howner : ledger.Agrees (fun r => (junction.map Junction.aliasName).map r.table)
      (other.map Junction.aliasName) := by
    intro r hr
    rw [← hjunction r hr]
    cases junction <;> rfl
  have hsame : other.bind Junction.sortKey = junction.bind Junction.sortKey := by
    rw [hjunction.eq, bind_sortKey_rename]
  unfold pagingColumns
  rw [hsame]
  cases paginate with
  | false => exact .pure (.const ledger [])
  | true =>
      cases sortKey with
      | some terms => exact ownColumns_mirrors _ (.const ledger none)
      | none =>
          cases junction.bind Junction.sortKey with
          | some terms => exact ownColumns_mirrors _ howner
          | none => exact ownColumns_mirrors _ howner

/-- The columns that are always fetched do not depend on the alias of the table. -/
def TableOptions.FetchesAlike (table : TableOptions) : Prop :=
  ∀ columns, table.alwaysFetch = some columns → ∀ column ∈ columns.toList,
    ∀ aliasName other args context,
      column.fragment aliasName args context = column.fragment other args context

theorem alwaysFetched_mirrors (env : Environment) {field : TableField}
    (halike : TableOptions.FetchesAlike field.table) (aliasName other : String) :
    Mirrors ledger (fun r => List.map (Node.rename r)) (alwaysFetched env field aliasName)
      (alwaysFetched env field other) := by
  unfold alwaysFetched
  cases hfetch : field.table.alwaysFetch with
  | none => exact .pure (.const ledger [])
  | some columns =>
      have hsame : (columns.toList.map fun column => column.fragment other field.args env.context) =
          columns.toList.map fun column => column.fragment aliasName field.args env.context :=
        List.map_congr_left fun column hcolumn => halike columns hfetch column hcolumn _ _ _ _
      dsimp only
      rw [hsame]
      exact ownColumns_mirrors _ (.const ledger none)

/-- Tables are set up alike on both sides. -/
theorem newTable_mirrors (env : Environment) {field : TableField}
    (halike : TableOptions.FetchesAlike field.table) :
    Mirrors ledger Table.rename (newTable env field) (newTable env field) := by
  refine .bind (.table _) fun opened hopened aliasName word halias => ?_
  refine .bind (.lift _) fun ordered hordered orderBy otherOrder horder => ?_
  refine .bind (relation_mirrors env field) fun related hrelated reached other hreached => ?_
  obtain rfl : otherOrder = orderBy := horder.eq
  have hjunction : related.Agrees
      (fun r => (relationJunction? reached.1).map (Junction.rename r))
      (relationJunction? other.1) := by
    intro r hr
    exact (relationJunction?_rename r reached.1).symm.trans
      (congrArg (fun found => relationJunction? found.1) (hreached r hr))
  have hsameOrder : (relationJunction? other.1).bind Junction.orderBy =
      (relationJunction? reached.1).bind Junction.orderBy := by
    rw [hjunction.eq, bind_orderBy_rename]
  dsimp only
  rw [hsameOrder]
  refine .bind (.refuse _ _) fun once honce _ _ _ => ?_
  refine .bind (.refuse _ _) fun limited hlimited _ _ _ => ?_
  have hkey : fieldSortKey env field
      (otherOrder.isSome || ((relationJunction? reached.1).bind Junction.orderBy).isSome)
      (relationJunction? other.1) = fieldSortKey env field
      (otherOrder.isSome || ((relationJunction? reached.1).bind Junction.orderBy).isSome)
      (relationJunction? reached.1) := by
    rw [hjunction.eq, fieldSortKey_rename]
  rw [hkey]
  refine .bind (.lift _) fun sorted hsorted sortKey otherKey hsort => ?_
  obtain rfl : otherKey = sortKey := hsort.eq
  refine .bind (keyNode_mirrors field.table.uniqueKey (.const sorted none))
    fun keyed hkeyed key otherKeyNode hkeyNode => ?_
  refine .bind (alwaysFetched_mirrors env halike aliasName word)
    fun fetched hfetched always otherAlways halways => ?_
  have hchecked := ((honce.trans hlimited).trans hsorted).trans (hkeyed.trans hfetched)
  refine .bind (pagingColumns_mirrors field.paginate _ (hjunction.mono hchecked))
    fun after hafter paging otherPaging hpaging => .pure fun r hr => ?_
  have hfits := hr.of_grows hafter
  have hword : r.table aliasName = word :=
    halias r ((hfits.of_grows hchecked).of_grows (hordered.trans hrelated))
  have hboth := Prod.mk.inj (hreached r (hfits.of_grows hchecked))
  have hnode : key.rename r = otherKeyNode := hkeyNode r (hfits.of_grows hfetched)
  simp only [Table.rename_eq, TableInfo.rename, Assoc.mapValues, List.map_append, List.map_cons,
    List.map_nil, hword, hboth, hnode, halways r hfits, hpaging r hr]

end Table

end JoinPlan.Plan
