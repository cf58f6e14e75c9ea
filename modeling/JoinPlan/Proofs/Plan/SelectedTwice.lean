import JoinPlan.Proofs.Plan.AlikeTables
import JoinPlan.Proofs.Plan.Doubled
import JoinPlan.Proofs.Plan.OneMeaning
import JoinPlan.Proofs.Plan.Rewriting
import Mathlib.Data.Option.Basic

/-!
# A table selected twice is selected once

A table that is selected again is the one that is there: it is not set up anew, and its
selections are added to what it has.  So selecting it with some selections and then with
others is selecting it with both, but for the key of a table fetched in batches, which stands
where its first selections end.  The two ways of compiling are followed side by side; they
hand out the same aliases, and fill alike children.
-/

namespace JoinPlan.Plan

/-! ### Undefined fragments on wrappers -/

section Undefined

variable {fragments : DoubledFragments} {typeName : String}
  {field another : String → List Selection → Option String}

theorem undefinedAmong_doubled {spread other : String → Option String}
    (hspread : ∀ name, spread name = other name)
    (hfield : ∀ name (inner : Doubled), field name inner.apart = another name inner.merged)
    (happend : ∀ name first second,
      another name (first ++ second) = (another name first <|> another name second))
    (selections : Doubled) :
    undefinedAmong typeName field spread selections.apart =
      undefinedAmong typeName another other selections.merged := by
  induction selections with
  | nil => rfl
  | field name args inner rest _ ih =>
      rw [Doubled.apart, Doubled.merged, undefinedAmong, undefinedAmong, undefinedAt, undefinedAt,
        hfield, ih]
  | inline condition inner rest ihinner ih =>
      rw [Doubled.apart, Doubled.merged, undefinedAmong, undefinedAmong, undefinedAt, undefinedAt,
        ihinner, ih]
  | spread name rest ih =>
      rw [Doubled.apart, Doubled.merged, undefinedAmong, undefinedAmong, undefinedAt, undefinedAt,
        hspread, ih]
  | twice name args first second rest _ _ ih =>
      rw [Doubled.apart, Doubled.merged, undefinedAmong, undefinedAmong, undefinedAmong,
        undefinedAt, undefinedAt, undefinedAt, happend, hfield, hfield, ih]
      cases another name first.merged <;> rfl

theorem named?_read (reading : Doubled → List Selection) (fragments : DoubledFragments)
    (name : String) :
    (fragments.read reading).named? name = (Assoc.get? name fragments).map fun fragment =>
      ⟨fragment.condition, reading fragment.selections⟩ :=
  Assoc.get?_mapValues _ name fragments

theorem depth_read (reading : Doubled → List Selection) (fragments : DoubledFragments) :
    (fragments.read reading).depth = fragments.length * Fragments.repetitionLimit := by
  rw [Fragments.depth, DoubledFragments.read, Assoc.mapValues, List.length_map]

theorem undefinedBelow_doubled
    (hfield : ∀ name (inner : Doubled), field name inner.apart = another name inner.merged)
    (happend : ∀ name first second,
      another name (first ++ second) = (another name first <|> another name second))
    (depth : Nat) (name : String) :
    undefinedBelow fragments.apart typeName field depth name =
      undefinedBelow fragments.merged typeName another depth name := by
  induction depth generalizing name with
  | zero => rfl
  | succ depth ih =>
      rw [undefinedBelow, undefinedBelow, named?_read, named?_read]
      cases Assoc.get? name fragments with
      | none => rfl
      | some fragment => exact undefinedAmong_doubled ih hfield happend fragment.selections

theorem undefinedOn_doubled
    (hfield : ∀ name (inner : Doubled), field name inner.apart = another name inner.merged)
    (happend : ∀ name first second,
      another name (first ++ second) = (another name first <|> another name second))
    (selections : Doubled) :
    undefinedOn fragments.apart typeName field selections.apart =
      undefinedOn fragments.merged typeName another selections.merged := by
  rw [undefinedOn, undefinedOn, depth_read, depth_read]
  exact undefinedAmong_doubled (undefinedBelow_doubled hfield happend _) hfield happend selections

theorem undefinedIn_doubled (selections : Doubled) (place : Place) :
    undefinedIn fragments.apart selections.apart place =
      undefinedIn fragments.merged selections.merged place := by
  have hflat (typeName : String) (selections : Doubled) :
      undefinedOn fragments.apart typeName (fun _ _ => none) selections.apart =
        undefinedOn fragments.merged typeName (fun _ _ => none) selections.merged := by
    apply undefinedOn_doubled
    · intro name inner
      rfl
    · intro name first second
      rfl
  cases place with
  | rows | edges typeName => rfl
  | connection connectionType edgeType =>
      rw [undefinedIn, undefinedIn, undefinedInConnection, undefinedInConnection, hflat]
      congr 1
      funext _
      apply undefinedOn_doubled
      · intro name inner
        rw [hflat]
      · intro name first second
        split
        · exact undefinedAmong_append ..
        · rfl

/-- On wrappers, no fragment is undefined in selections one after the other if none is in
either. -/
theorem undefinedIn_append (fragments : Fragments) (first second : List Selection)
    (place : Place) :
    undefinedIn fragments (first ++ second) place = none ↔
      undefinedIn fragments first place = none ∧ undefinedIn fragments second place = none := by
  cases place with
  | rows | edges typeName => exact ⟨fun _ => ⟨rfl, rfl⟩, fun _ => rfl⟩
  | connection connectionType edgeType =>
      simp only [undefinedIn, undefinedInConnection, undefinedOn, undefinedAmong_append,
        Option.orElse_eq_none]
      tauto

theorem undefined?_doubled (env : Environment) (scope : Scope) (name : String)
    (selections : Doubled) :
    scope.undefined? env fragments.apart name selections.apart =
      scope.undefined? env fragments.merged name selections.merged := by
  simp only [Scope.undefined?, undefinedInField, undefinedIn_doubled]

theorem undefined?_append (env : Environment) (fragments : Fragments) (scope : Scope)
    (name : String) (first second : List Selection) :
    scope.undefined? env fragments name (first ++ second) = none ↔
      scope.undefined? env fragments name first = none ∧
        scope.undefined? env fragments name second = none := by
  unfold Scope.undefined? undefinedInField
  cases scope.field? name with
  | none => exact ⟨fun _ => ⟨rfl, rfl⟩, fun _ => rfl⟩
  | some field =>
      simp only [Option.bind_eq_bind, Option.bind_some]
      cases rowsOf? env.schema field.type with
      | none => exact ⟨fun _ => ⟨rfl, rfl⟩, fun _ => rfl⟩
      | some rows => exact undefinedIn_append fragments first second rows.2

/-- A field with the selections of two is what both of them are. -/
theorem fieldKind_append {env : Environment} {fragments : Fragments} {scope : Scope}
    {nested : Bool} {name : String} {args : Arguments} {first second : List Selection}
    {kind : FieldKind} :
    fieldKind env fragments scope nested name args (first ++ second) = .ok kind ↔
      fieldKind env fragments scope nested name args first = .ok kind ∧
        fieldKind env fragments scope nested name args second = .ok kind := by
  have hiff (selections : List Selection) :
      fieldKind env fragments scope nested name args selections = .ok kind ↔ _ :=
    fieldKind_eq_ok_iff
  rw [hiff (first ++ second), hiff first, hiff second, undefined?_append]
  tauto

/-- A field is one thing, whatever is selected on it. -/
theorem fieldKind_unique {env : Environment} {fragments : Fragments} {scope : Scope}
    {nested : Bool} {name : String} {args : Arguments} {first second : List Selection}
    {kind other : FieldKind}
    (h : fieldKind env fragments scope nested name args first = .ok kind)
    (hother : fieldKind env fragments scope nested name args second = .ok other) :
    kind = other :=
  Except.ok.inj ((fieldKind_eq_ok_iff.mp h).1.symm.trans (fieldKind_eq_ok_iff.mp hother).1)

end Undefined

/-! ### Selecting -/

section Select

variable {env : Environment} {fragments : DoubledFragments} {depth : Nat}

theorem Walk.PairsFit.next {walk later : Walk} (h : walk.PairsFit env fragments)
    (hstep : Walk.Step env fragments walk later) : later.PairsFit env fragments :=
  fun last hlast => h last (.head hstep hlast)

variable (env fragments depth) in
/-- Selections that are compiled alike in the two readings, wherever they stand and whatever
was filled in before. -/
def AlikeFrom (selections : Doubled) : Prop :=
  ∀ place scope bucket children names,
    Walk.PairsFit env fragments ⟨depth, place, scope, bucket, selections, children, names⟩ →
    ∀ key other moved, ChildrenAlike key other children moved →
      RunsAlike (ChildrenAlike key other)
        (select env fragments.apart (selectSpread env fragments.apart depth) place scope bucket
          selections.apart children names)
        (select env fragments.merged (selectSpread env fragments.merged depth) place scope bucket
          selections.merged moved names)

/-- A field that is selected on rows is compiled as what it is, and put where it belongs. -/
theorem selectOne_rows (fragments : Fragments) (spread : SpreadCompiler) (scope : Scope)
    (bucket : Option String) (name : String) (args : Arguments) (selections : List Selection)
    (children : Children) :
    selectOne env fragments spread .rows scope bucket (.field name args selections) children =
      (liftM (fieldKind env fragments scope true name args selections) : Compile FieldKind) >>=
        fun kind =>
          kind.compile env scope bucket (existingTable (children.bucket bucket) name) name args
              (fun place scope => select env fragments spread place scope none selections) >>=
            fun node => pure (putField children bucket name node) := by
  rw [selectOne]
  simp only [compileField_eq, bind_assoc]
  rfl

theorem selectOne_table {fragments : Fragments} (spread : SpreadCompiler) {scope : Scope}
    (bucket : Option String) {name : String} {args : Arguments} {selections : List Selection}
    {field : TableField} {type : TypeDefinition} {place : Place}
    (hkind : fieldKind env fragments scope true name args selections =
      .ok (.table field type place)) (children : Children) :
    selectOne env fragments spread .rows scope bucket (.field name args selections) children =
      tableOf env field (existingTable (children.bucket bucket) name) >>= fun table =>
        select env fragments spread place ⟨field.typeName, type, table.info.junction?⟩ none
            selections ⟨table.shared, table.typed⟩ >>= fun filled =>
          pure (putField children bucket name (.table
            (filledTable field (existingTable (children.bucket bucket) name) table filled))) := by
  rw [selectOne_rows, hkind, Compile.lift_ok_bind, FieldKind.compile, compileTable_eq]
  simp only [bind_assoc, pure_bind]

theorem selectOne_eq_ok {fragments : Fragments} {spread : SpreadCompiler} {scope : Scope}
    (bucket : Option String) {name : String} {args : Arguments} {selections : List Selection}
    {field : TableField} {type : TypeDefinition} {place : Place}
    (hkind : fieldKind env fragments scope true name args selections =
      .ok (.table field type place)) {children filled : Children} {table : Table Node}
    {names between after : Namespace}
    (htable : tableOf env field (existingTable (children.bucket bucket) name) names =
      .ok (table, between))
    (hfilled : select env fragments spread place ⟨field.typeName, type, table.info.junction?⟩ none
      selections ⟨table.shared, table.typed⟩ between = .ok (filled, after)) :
    selectOne env fragments spread .rows scope bucket (.field name args selections) children
        names =
      .ok (putField children bucket name (.table
        (filledTable field (existingTable (children.bucket bucket) name) table filled)),
        after) := by
  rw [selectOne_table spread bucket hkind]
  exact Compile.bind_eq_ok.mpr ⟨table, between, htable,
    Compile.bind_eq_ok.mpr ⟨filled, after, hfilled, rfl⟩⟩

/-- A field selected once is compiled alike if its selections are. -/
theorem selectField_alike {inner : Doubled} (hinner : AlikeFrom env fragments depth inner)
    {place : Place} {scope : Scope} {bucket : Option String} {name : String} {args : Arguments}
    {rest : Doubled} {children : Children} {names : Namespace}
    (hfits : Walk.PairsFit env fragments
      ⟨depth, place, scope, bucket, .field name args inner rest, children, names⟩)
    {key other : Option Column} {moved : Children} (h : ChildrenAlike key other children moved) :
    RunsAlike (ChildrenAlike key other)
      (selectOne env fragments.apart (selectSpread env fragments.apart depth) place scope bucket
        (.field name args inner.apart) children names)
      (selectOne env fragments.merged (selectSpread env fragments.merged depth) place scope bucket
        (.field name args inner.merged) moved names) := by
  by_cases hrows : place = .rows
  · subst hrows
    have hsame : fieldKind env fragments.apart scope true name args inner.apart =
        fieldKind env fragments.merged scope true name args inner.merged :=
      fieldKind_congr (undefined?_doubled env scope name inner)
    cases hkind : fieldKind env fragments.apart scope true name args inner.apart with
    | error error =>
        rw [selectOne_rows, selectOne_rows, ← hsame, hkind]
        exact .error _ _
    | ok kind =>
        cases kind with
        | nothing =>
            rw [selectOne_rows, selectOne_rows, ← hsame, hkind]
            exact .ok names (h.putField bucket name (.same .nothing))
        | leaf field =>
            rw [selectOne_rows, selectOne_rows, ← hsame, hkind, Compile.lift_ok_bind,
              Compile.lift_ok_bind, FieldKind.compile, FieldKind.compile]
            refine RunsAlike.bind (RunsAlike.same NodeAlike.same _) ?_
            intro node another after _ hnode
            exact .ok after (h.putField bucket name hnode)
        | table field type inside =>
            rw [selectOne_table _ bucket hkind, selectOne_table _ bucket (hsame ▸ hkind)]
            obtain ⟨tableKey, htables⟩ := tableOf_alike h bucket name names
            refine htables.bind fun table begun between htable hbegun => ?_
            rw [hbegun.info]
            refine RunsAlike.bind (hinner _ _ _ _ _ (hfits.next (.table rfl rfl hkind htable))
              _ _ _ hbegun.children) ?_
            intro filled moved after _ hfilled
            exact .ok after (h.putField bucket name (hbegun.filled hfilled))
  · rw [selectOne_wrapper env hrows, selectOne_wrapper env hrows]
    cases hinside : place.inside? name with
    | none => exact .ok names h
    | some inside => exact hinner _ _ _ _ _ (hfits.next (.inside rfl hinside)) _ _ _ h

/-- A field of a table that is selected again is compiled into the table that is there. -/
theorem selectOne_again {fragments : Fragments} (spread : SpreadCompiler) {scope : Scope}
    (bucket : Option String) {name : String} {args : Arguments} {selections : List Selection}
    {field : TableField} {type : TypeDefinition} {place : Place}
    (hkind : fieldKind env fragments scope true name args selections =
      .ok (.table field type place)) {table : Table Node} (hname : table.info.fieldName = name)
    (children : Children) :
    selectOne env fragments spread .rows scope bucket (.field name args selections)
        (putField children bucket name (.table table)) =
      select env fragments spread place ⟨field.typeName, type, table.info.junction?⟩ none
          selections ⟨table.shared, table.typed⟩ >>= fun filled =>
        pure (putField children bucket name
          (.table (filledTable field (some table) table filled))) := by
  rw [selectOne_table spread bucket hkind, existingTable_putField hname, tableOf, pure_bind]
  simp only [putField_putField hname]

/-- A table selected twice in a row is compiled as one that is selected once. -/
theorem selectTwice_alike {first second : Doubled}
    (hfirst : AlikeFrom env fragments depth first) (hsecond : AlikeFrom env fragments depth second)
    {scope : Scope} {bucket : Option String} {name : String} {args : Arguments}
    {rest : Doubled} {children : Children} {names : Namespace}
    (hfits : Walk.PairsFit env fragments ⟨depth, .rows, scope, bucket,
      .field name args first (.field name args second rest), children, names⟩)
    {field : TableField} {type : TypeDefinition} {inside : Place}
    (hkind : fieldKind env fragments.apart scope true name args first.apart =
      .ok (.table field type inside))
    (hagain : fieldKind env fragments.apart scope true name args second.apart =
      .ok (.table field type inside))
    {key other : Option Column} {moved : Children} (h : ChildrenAlike key other children moved) :
    RunsAlike (ChildrenAlike key other)
      ((selectOne env fragments.apart (selectSpread env fragments.apart depth) .rows scope bucket
          (.field name args first.apart) children >>=
        selectOne env fragments.apart (selectSpread env fragments.apart depth) .rows scope bucket
          (.field name args second.apart)) names)
      (selectOne env fragments.merged (selectSpread env fragments.merged depth) .rows scope bucket
        (.field name args (first.merged ++ second.merged)) moved names) := by
  have hmerged : fieldKind env fragments.merged scope true name args
      (first.merged ++ second.merged) = .ok (.table field type inside) := by
    rw [fieldKind_append, ← fieldKind_congr (undefined?_doubled env scope name first),
      ← fieldKind_congr (undefined?_doubled env scope name second)]
    exact ⟨hkind, hagain⟩
  obtain ⟨rfl, hbacked, -⟩ := fieldKind_table hkind
  rw [selectOne_table _ bucket hkind, selectOne_table _ bucket hmerged]
  simp only [select_append, bind_assoc, pure_bind]
  obtain ⟨tableKey, htables⟩ := tableOf_alike h bucket field.name names
  refine htables.bind fun table begun between htable hbegun => ?_
  rw [hbegun.info]
  refine RunsAlike.bind (hfirst _ _ _ _ _ (hfits.next (.table rfl rfl hkind htable))
    _ _ _ hbegun.children) ?_
  intro filled movedFilled after hfilled hchildren
  -- the first selection leaves a table that the second one finds
  have hname : table.info.fieldName = field.name := tableOf_fieldName hbacked htable
  have hthere : (filledTable field (existingTable (children.bucket bucket) field.name) table
      filled).info.fieldName = field.name := hname
  have hagainFits := (hfits.next (.rest rfl (selectOne_eq_ok bucket hkind htable hfilled))).next
    (.table rfl rfl hagain (by rw [existingTable_putField hthere]; rfl))
  rw [selectOne_again _ bucket hagain hthere]
  refine RunsAlike.bind (hsecond _ _ _ _ _ hagainFits _ _ _ (hbegun.between hchildren)) ?_
  intro filledAgain movedAgain last _ hmore
  exact .ok last (h.putField bucket field.name (hbegun.filledAgain hmore))

/-- What is selected on rows without failing is known to be something. -/
theorem fieldKind_of_selectOne {fragments : Fragments} {spread : SpreadCompiler} {scope : Scope}
    {bucket : Option String} {name : String} {args : Arguments} {selections : List Selection}
    {children : Children} {names : Namespace} {result : Children × Namespace}
    (h : selectOne env fragments spread .rows scope bucket (.field name args selections) children
      names = .ok result) :
    ∃ kind, fieldKind env fragments scope true name args selections = .ok kind := by
  rw [selectOne_rows] at h
  obtain ⟨kind, between, hkind, -⟩ := Compile.bind_eq_ok.mp h
  exact ⟨kind, (Compile.lift_eq_ok.mp hkind).1⟩

/-- A pair is compiled as one field with the selections of both. -/
theorem selectPair_alike {first second : Doubled}
    (hfirst : AlikeFrom env fragments depth first) (hsecond : AlikeFrom env fragments depth second)
    {place : Place} {scope : Scope} {bucket : Option String} {name : String} {args : Arguments}
    {rest : Doubled} {children : Children} {names : Namespace}
    (hfits : Walk.PairsFit env fragments
      ⟨depth, place, scope, bucket, .twice name args first second rest, children, names⟩)
    {key other : Option Column} {moved : Children} (h : ChildrenAlike key other children moved) :
    RunsAlike (ChildrenAlike key other)
      ((selectOne env fragments.apart (selectSpread env fragments.apart depth) place scope bucket
          (.field name args first.apart) children >>=
        selectOne env fragments.apart (selectSpread env fragments.apart depth) place scope bucket
          (.field name args second.apart)) names)
      (selectOne env fragments.merged (selectSpread env fragments.merged depth) place scope bucket
        (.field name args (first.merged ++ second.merged)) moved names) := by
  have hpair := hfits.next (.twice rfl)
  by_cases hrows : place = .rows
  · subst hrows
    cases hkind : fieldKind env fragments.merged scope true name args
        (first.merged ++ second.merged) with
    | ok kind =>
        obtain ⟨hone, hagain⟩ := fieldKind_append.mp hkind
        rw [← fieldKind_congr (undefined?_doubled env scope name _)] at hone hagain
        obtain ⟨field, type, inside, rfl⟩ := hfits _ .refl _ _ _ _ _ _ rfl rfl hone
        exact selectTwice_alike hfirst hsecond hpair hone hagain h
    | error error =>
        have hfails : ∀ kind, fieldKind env fragments.merged scope true name args
            (first.merged ++ second.merged) ≠ .ok kind := by
          intro kind hok
          rw [hkind] at hok
          cases hok
        refine RunsAlike.of_failures (fun result hrun => ?_) (fun result hrun => ?_)
        · obtain ⟨filled, between, hone, htwo⟩ := Compile.bind_eq_ok.mp hrun
          obtain ⟨kind, hone⟩ := fieldKind_of_selectOne hone
          obtain ⟨other, htwo⟩ := fieldKind_of_selectOne htwo
          rw [fieldKind_congr (undefined?_doubled env scope name _)] at hone htwo
          obtain rfl := fieldKind_unique hone htwo
          exact hfails kind (fieldKind_append.mpr ⟨hone, htwo⟩)
        · obtain ⟨kind, hok⟩ := fieldKind_of_selectOne hrun
          exact hfails kind hok
  · have hwrapper := selectOne_wrapper env hrows scope bucket name args
    cases hinside : place.inside? name with
    | none =>
        rw [hwrapper, hwrapper, hinside, pure_bind, hwrapper, hinside]
        exact .ok names h
    | some inside =>
        simp only [hinside] at hwrapper
        rw [hwrapper, hwrapper, select_append]
        refine RunsAlike.bind (hfirst _ _ _ _ _ (hpair.next (.inside rfl hinside)) _ _ _ h) ?_
        intro filled movedFilled after hrun halike
        rw [← hwrapper] at hrun
        rw [hwrapper]
        exact hsecond _ _ _ _ _ ((hpair.next (.rest rfl hrun)).next (.inside rfl hinside))
          _ _ _ halike

theorem alikeFrom_nil : AlikeFrom env fragments depth .nil :=
  fun _ _ _ _ names _ _ _ _ h => .ok names h

theorem alikeFrom_field {name : String} {args : Arguments} {inner rest : Doubled}
    (hinner : AlikeFrom env fragments depth inner) (hrest : AlikeFrom env fragments depth rest) :
    AlikeFrom env fragments depth (.field name args inner rest) := by
  intro place scope bucket children names hfits key other moved h
  rw [Doubled.apart, Doubled.merged, select, select]
  refine (selectField_alike hinner hfits h).bind fun filled movedFilled after hrun halike => ?_
  exact hrest _ _ _ _ _ (hfits.next (.rest rfl hrun)) _ _ _ halike

theorem alikeFrom_inline {condition : Option String} {inner rest : Doubled}
    (hinner : AlikeFrom env fragments depth inner) (hrest : AlikeFrom env fragments depth rest) :
    AlikeFrom env fragments depth (.inline condition inner rest) := by
  intro place scope bucket children names hfits key other moved h
  rw [Doubled.apart, Doubled.merged, select, select]
  refine RunsAlike.bind ?_ fun filled movedFilled after hrun halike =>
    hrest _ _ _ _ _ (hfits.next (.rest rfl hrun)) _ _ _ halike
  rw [selectOne, selectOne]
  cases htarget : inlineScope env.schema place scope bucket condition with
  | error error => exact .error _ _
  | ok target =>
      rw [Compile.lift_ok_bind, Compile.lift_ok_bind]
      cases target with
      | none => exact .ok names h
      | some target => exact hinner _ _ _ _ _ (hfits.next (.inline rfl htarget)) _ _ _ h

theorem alikeFrom_spread {name : String} {rest : Doubled}
    (hfragment : ∀ shallower fragment, depth = shallower + 1 →
      Assoc.get? name fragments = some fragment →
        AlikeFrom env fragments shallower fragment.selections)
    (hrest : AlikeFrom env fragments depth rest) :
    AlikeFrom env fragments depth (.spread name rest) := by
  intro place scope bucket children names hfits key other moved h
  rw [Doubled.apart, Doubled.merged, select, select]
  refine RunsAlike.bind ?_ fun filled movedFilled after hrun halike =>
    hrest _ _ _ _ _ (hfits.next (.rest rfl hrun)) _ _ _ halike
  rw [selectOne, selectOne]
  cases depth with
  | zero => exact .error _ _
  | succ shallower =>
      rw [selectSpread, selectSpread, named?_read, named?_read]
      cases hfound : Assoc.get? name fragments with
      | none => exact .error _ _
      | some fragment =>
          dsimp only [Option.map_some]
          cases htarget : spreadScope env.schema place scope bucket fragment.condition with
          | error error => exact .error _ _
          | ok target =>
              rw [Compile.lift_ok_bind, Compile.lift_ok_bind]
              cases target with
              | none => exact .ok names h
              | some target =>
                  exact hfragment shallower fragment rfl hfound _ _ _ _ _
                    (hfits.next (.spread rfl rfl hfound htarget)) _ _ _ h

theorem alikeFrom_twice {name : String} {args : Arguments} {first second rest : Doubled}
    (hfirst : AlikeFrom env fragments depth first) (hsecond : AlikeFrom env fragments depth second)
    (hrest : AlikeFrom env fragments depth rest) :
    AlikeFrom env fragments depth (.twice name args first second rest) := by
  intro place scope bucket children names hfits key other moved h
  have hpair := hfits.next (.twice rfl)
  simp only [Doubled.apart, Doubled.merged, select, ← bind_assoc]
  refine (selectPair_alike hfirst hsecond hfits h).bind ?_
  intro filled movedFilled last hrun halike
  obtain ⟨between, after, hone, htwo⟩ := Compile.bind_eq_ok.mp hrun
  exact hrest _ _ _ _ _ ((hpair.next (.rest rfl hone)).next (.rest rfl htwo)) _ _ _ halike

theorem alikeFrom_of_shallower
    (hshallower : ∀ shallower, depth = shallower + 1 →
      ∀ selections, AlikeFrom env fragments shallower selections)
    (selections : Doubled) : AlikeFrom env fragments depth selections := by
  induction selections with
  | nil => exact alikeFrom_nil
  | field name args inner rest ihinner ih => exact alikeFrom_field ihinner ih
  | inline condition inner rest ihinner ih => exact alikeFrom_inline ihinner ih
  | spread name rest ih =>
      exact alikeFrom_spread (fun shallower fragment hdepth _ => hshallower shallower hdepth _) ih
  | twice name args first second rest ihfirst ihsecond ih =>
      exact alikeFrom_twice ihfirst ihsecond ih

/-- Selections are compiled alike in the two readings where their pairs are those of tables. -/
theorem alikeFrom (selections : Doubled) : AlikeFrom env fragments depth selections := by
  induction depth generalizing selections with
  | zero => exact alikeFrom_of_shallower (fun _ hdepth => by cases hdepth) selections
  | succ depth ih =>
      refine alikeFrom_of_shallower (fun shallower hdepth => ?_) selections
      obtain rfl := Nat.succ.inj hdepth
      exact ih

end Select

/-! ### Requests -/

section Request

variable {env : Environment} {minify : Bool} {request : DoubledRequest}

/-- A way of reading selections that reads one part after the other. -/
structure ReadsInRow (reading : Doubled → List Selection) : Prop where
  nil : reading .nil = []
  append (selections others : Doubled) :
    reading (selections.append others) = reading selections ++ reading others

theorem flatMap_read {reading : Doubled → List Selection} (hreading : ReadsInRow reading)
    (fields : List DoubledField) :
    (fields.map fun field => (⟨field.name, field.args, reading field.selections⟩ :
        RequestedField)).flatMap (·.selections) =
      reading (fields.foldr (fun field rest => field.selections.append rest) .nil) := by
  induction fields with
  | nil => exact hreading.nil.symm
  | cons field rest ih =>
      rw [List.map_cons, List.flatMap_cons, List.foldr_cons, hreading.append, ih]

theorem mergedField_read {reading : Doubled → List Selection} (hreading : ReadsInRow reading)
    {requested : DoubledField} {others : List DoubledField}
    (hfields : request.fields = requested :: others) :
    mergedField (request.read reading) =
      .ok ⟨requested.name, requested.args, reading request.selections⟩ := by
  rw [mergedField, DoubledRequest.read, hfields, DoubledRequest.selections, hfields, List.map_cons,
    List.foldr_cons, hreading.append]
  dsimp only
  rw [flatMap_read hreading]

/-- The requested field is compiled alike in the two readings. -/
theorem rootNode_alike {type : TypeDefinition}
    (hfits : ∀ walk, Walk.Start env minify request type walk →
      walk.PairsFit env request.fragments) {requested : DoubledField}
    {others : List DoubledField} (hfields : request.fields = requested :: others) :
    RunsAlike NodeAlike
      (rootNode env request.fragments.apart ⟨request.parentType, type, none⟩
        ⟨requested.name, requested.args, request.selections.apart⟩ (Namespace.fresh minify))
      (rootNode env request.fragments.merged ⟨request.parentType, type, none⟩
        ⟨requested.name, requested.args, request.selections.merged⟩ (Namespace.fresh minify)) := by
  have hsame : fieldKind env request.fragments.apart ⟨request.parentType, type, none⟩ false
      requested.name requested.args request.selections.apart =
        fieldKind env request.fragments.merged ⟨request.parentType, type, none⟩ false
          requested.name requested.args request.selections.merged :=
    fieldKind_congr (undefined?_doubled env _ _ _)
  rw [rootNode, rootNode, compileField_eq, compileField_eq, ← hsame]
  cases hkind : fieldKind env request.fragments.apart ⟨request.parentType, type, none⟩ false
      requested.name requested.args request.selections.apart with
  | error error => exact .error _ _
  | ok kind =>
      rw [Compile.lift_ok_bind, Compile.lift_ok_bind]
      cases kind with
      | nothing | leaf field =>
          rw [FieldKind.compile, FieldKind.compile]
          exact RunsAlike.same NodeAlike.same _
      | table field rowType place =>
          have hbegun (table : Table Node) : BegunAlike none none none table table :=
            ⟨rfl, fun _ => rfl, rfl, by simp [IsKeyOf], .same _⟩
          rw [FieldKind.compile, FieldKind.compile, compileTable_eq, compileTable_eq]
          have htables : RunsAlike (BegunAlike none none none)
              (tableOf env field none (Namespace.fresh minify))
              (tableOf env field none (Namespace.fresh minify)) := RunsAlike.same hbegun _
          refine htables.bind fun table begun between htable hbegun => ?_
          rw [hbegun.info, selectAll, selectAll, depth_read, depth_read]
          have hstart := hfits _ (.start hfields hkind htable)
          rw [depth_read] at hstart
          refine RunsAlike.bind (alikeFrom _ _ _ _ _ _ hstart _ _ _ hbegun.children) ?_
          intro filled moved after _ hfilled
          exact .ok after (hbegun.filled hfilled)

theorem compileOn_alike {type : TypeDefinition}
    (hfits : ∀ walk, Walk.Start env minify request type walk →
      walk.PairsFit env request.fragments) :
    RunsAlike (fun table other => NodeAlike (.table table) (.table other))
      (compileOn env request.apart type (Namespace.fresh minify))
      (compileOn env request.merged type (Namespace.fresh minify)) := by
  rw [compileOn, compileOn]
  cases hfields : request.fields with
  | nil =>
      rw [mergedField, mergedField, DoubledRequest.apart, DoubledRequest.merged,
        DoubledRequest.read, DoubledRequest.read, hfields]
      exact .error _ _
  | cons requested others =>
      rw [DoubledRequest.apart, DoubledRequest.merged,
        mergedField_read ⟨rfl, Doubled.apart_append⟩ hfields,
        mergedField_read ⟨rfl, Doubled.merged_append⟩ hfields, Compile.lift_request_ok_bind,
        Compile.lift_request_ok_bind]
      refine RunsAlike.bind (rootNode_alike hfits hfields) ?_
      intro node other after _ hnode
      cases node with
      | table table =>
          obtain ⟨another, rfl⟩ : ∃ another, other = .table another := by
            cases hnode <;> exact ⟨_, rfl⟩
          exact (Table.prune_alike hnode after).runs
      | column | dependencies | composite | expression | nothing =>
          cases hnode
          exact .error _ _

/-- Selecting a table twice in a row is selecting it once, with the selections of both: either
way the request fails, or its plan is the same but for where the keys of tables fetched in
batches stand. -/
theorem compile_selected_twice (hpairs : PairsFit env minify request) :
    (∃ error other, compile env minify request.apart = .error error ∧
        compile env minify request.merged = .error other) ∨
      ∃ table other, compile env minify request.apart = .ok table ∧
        compile env minify request.merged = .ok other ∧
        NodeAlike (.table table) (.table other) := by
  have hsame : request.merged.parentType = request.apart.parentType := rfl
  unfold compile compileWith
  rw [hsame]
  cases htype : env.schema.type? request.apart.parentType with
  | none => exact .inl ⟨_, _, rfl, rfl⟩
  | some type =>
      have halike := compileOn_alike (fun walk => hpairs type walk htype)
      exact halike.run'

end Request

/-- Users with posts that are fetched in batches. -/
def batchedPosts : Environment where
  schema := { types :=
    [("Q", { tableType "q" [("u", plainField (.named "U"))] with table := none }),
     ("U", tableType "users"
      [("p", ⟨.list (.named "P"), { FieldOptions.empty with sqlBatch := some ⟨"author", "id"⟩ }⟩)]),
     ("P", tableType "posts"
      [("title", plainField (.named "String")), ("text", plainField (.named "String"))])] }
  context := .null

/-- The titles of a user's posts, and then their texts. -/
def postsTwice : DoubledRequest where
  parentType := "Q"
  fields := [⟨"u", [], .twice "p" [] (.field "title" [] .nil .nil) (.field "text" [] .nil .nil)
    .nil⟩]
  fragments := []

/-- A user with posts that have some columns after their keys. -/
def batchedPostsPlan (columns : List String) : Table Node :=
  userPlan [.table {
    info := { plainInfo "p" "p" true
        (some (.batch (ownedColumn "author") (ownedColumn "id"))) with
      typeName := "P", reference := "posts" }
    shared := .column (ownedColumn "id") :: columns.map fun name => .column (ownedColumn name)
    typed := [] }]

theorem compile_postsTwice :
    compile batchedPosts false postsTwice.apart =
      .ok (batchedPostsPlan ["title", "author", "text"]) := by
  cbv

theorem compile_postsTwice_merged :
    compile batchedPosts false postsTwice.merged =
      .ok (batchedPostsPlan ["title", "text", "author"]) := by
  cbv

theorem pairsFit_postsTwice : PairsFit batchedPosts false postsTwice := by
  rintro type walk htype ⟨hfields, hkind, htable⟩
  obtain ⟨rfl, rfl⟩ := List.cons.inj hfields
  obtain rfl := Option.some.inj htype
  -- The request starts on users, and no junction leads to them.
  cases hkind
  cases htable
  intro later hlater
  rcases hlater.cases_head with rfl | ⟨next, hstep, hnext⟩
  · intro name args first second rest kind hselections _ hkind
    cases hselections
    cases hkind
    exact ⟨_, _, _, rfl⟩
  · cases hstep with
    | twice hselections =>
        cases hselections
        refine Walk.pairsFit_of_isSingle ?_ ?_ later hnext
        · intro name fragment hfragment
          cases hfragment
        · exact ⟨⟨trivial, trivial⟩, ⟨trivial, trivial⟩, trivial⟩
    | rest hfirst => cases hfirst
    | table hselections | inside hselections | inline hselections | spread hselections =>
        cases hselections

/-- The posts of a user are the same either way, but for where their key stands. -/
theorem compile_selected_twice_posts :
    PairsFit batchedPosts false postsTwice ∧
      compile batchedPosts false postsTwice.apart =
        .ok (batchedPostsPlan ["title", "author", "text"]) ∧
      compile batchedPosts false postsTwice.merged =
        .ok (batchedPostsPlan ["title", "text", "author"]) ∧
      NodeAlike (.table (batchedPostsPlan ["title", "author", "text"]))
        (.table (batchedPostsPlan ["title", "text", "author"])) := by
  refine ⟨pairsFit_postsTwice, compile_postsTwice, compile_postsTwice_merged, ?_⟩
  rcases compile_selected_twice pairsFit_postsTwice with
    ⟨error, other, happart, -⟩ | ⟨table, other, happart, hmerged, halike⟩
  · rw [compile_postsTwice] at happart
    cases happart
  · rw [compile_postsTwice, Except.ok.injEq] at happart
    rw [compile_postsTwice_merged, Except.ok.injEq] at hmerged
    rw [happart, hmerged]
    exact halike

end JoinPlan.Plan
