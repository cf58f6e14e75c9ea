import JoinPlan.Proofs.Paging.KeysetWalk

/-!
# Pages that are accepted

Page arguments that go one way, with a cursor only beside a size, are either refused or
served: the page is a run of the rows in key order, no longer than asked for and on its
side of the cursor.  A cursor need not be that of a row, so all that is asked of it is that
its values have a place in the order of their columns; then what lies past it is a tail of
the rows.  A cursor beside no size is accepted too, but nothing is made of it, and with both
sizes the rows come backwards and are cut at `first`.
-/

namespace JoinPlan.Paging

open Sql

variable {collation : Collation} {terms : List SortTerm} {rows : List Json}

/-! ### Rows past a cursor -/

/-- The values can be sorted, some of them perhaps alike. -/
structure WeaklyOrders (before : Json → Json → Bool) (values : List Json) : Prop where
  asymm : ∀ first ∈ values, ∀ second ∈ values,
    before first second = true → before second first = false
  between : ∀ first ∈ values, ∀ second ∈ values, ∀ third ∈ values,
    before first third = true → before first second = true ∨ before second third = true

theorem WeaklyOrders.of_strictlyOrders {before : Json → Json → Bool} {values : List Json}
    (h : StrictlyOrders before values) : WeaklyOrders before values where
  asymm _ hfirst _ hsecond := h.asymm hfirst hsecond
  between first hfirst second hsecond third hthird hbefore := by
    by_cases heq : first = second
    · exact Or.inr (heq ▸ hbefore)
    · refine (h.total first hfirst second hsecond heq).imp_right fun hafter => ?_
      exact h.trans second hsecond first hfirst third hthird hafter hbefore

namespace WeaklyOrders

variable {before : Json → Json → Bool} {values : List Json}

theorem direction (h : WeaklyOrders before values) (direction : Direction) :
    WeaklyOrders (direction.before before) values := by
  cases direction with
  | ascending => exact h
  | descending =>
      exact {
        asymm := fun first hfirst second hsecond => h.asymm second hsecond first hfirst
        between := fun first hfirst second hsecond third hthird hbefore =>
          (h.between third hthird second hsecond first hfirst hbefore).symm }

section Alike

variable {first second third : Json}

theorem trans (h : WeaklyOrders before values) (hfirst : first ∈ values) (hsecond : second ∈ values)
    (hthird : third ∈ values) (hless : before first second = true)
    (hless' : before second third = true) : before first third = true := by
  refine (h.between first hfirst third hthird second hsecond hless).resolve_right ?_
  simp [h.asymm second hsecond third hthird hless']

theorem before_of_alike_left (h : WeaklyOrders before values) (hfirst : first ∈ values)
    (hsecond : second ∈ values) (hthird : third ∈ values)
    (halike : Comparison.equal.holds before first second = true)
    (hless : before second third = true) : before first third = true := by
  simp only [Comparison.holds, Bool.and_eq_true, Bool.not_eq_true'] at halike
  refine (h.between second hsecond first hfirst third hthird hless).resolve_left ?_
  simp [halike.2]

theorem before_of_alike_right (h : WeaklyOrders before values) (hfirst : first ∈ values)
    (hsecond : second ∈ values) (hthird : third ∈ values) (hless : before first second = true)
    (halike : Comparison.equal.holds before second third = true) :
    before first third = true := by
  simp only [Comparison.holds, Bool.and_eq_true, Bool.not_eq_true'] at halike
  refine (h.between first hfirst third hthird second hsecond hless).resolve_right ?_
  simp [halike.2]

theorem alike_trans (h : WeaklyOrders before values) (hfirst : first ∈ values)
    (hsecond : second ∈ values) (hthird : third ∈ values)
    (halike : Comparison.equal.holds before first second = true)
    (halike' : Comparison.equal.holds before second third = true) :
    Comparison.equal.holds before first third = true := by
  have hback := before_of_alike_right h hthird hfirst hsecond
  rw [Comparison.holds, Bool.and_eq_true, Bool.not_eq_true', Bool.not_eq_true'] at halike' ⊢
  constructor
  · apply Bool.eq_false_iff.mpr
    intro hless
    rw [equal_holds_comm] at halike
    have hloop := h.before_of_alike_left hsecond hfirst hthird halike hless
    simp [hloop] at halike'
  · apply Bool.eq_false_iff.mpr
    intro hless
    simp [hback hless halike] at halike'

/-- In an order by several columns the rest decides among values that are alike. -/
theorem chain (h : WeaklyOrders before values) (hfirst : first ∈ values)
    (hsecond : second ∈ values) (hthird : third ∈ values) {P Q : Prop}
    (hleft : before first second = true ∨ Comparison.equal.holds before first second = true ∧ P)
    (hright : before second third = true ∨
      Comparison.equal.holds before second third = true ∧ Q) :
    before first third = true ∨
      Comparison.equal.holds before first third = true ∧ P ∧ Q := by
  rcases hleft with hless | ⟨halike, hP⟩
  · rcases hright with hless' | ⟨halike', -⟩
    · exact Or.inl (h.trans hfirst hsecond hthird hless hless')
    · exact Or.inl (h.before_of_alike_right hfirst hsecond hthird hless halike')
  · rcases hright with hless' | ⟨halike', hQ⟩
    · exact Or.inl (h.before_of_alike_left hfirst hsecond hthird halike hless')
    · exact Or.inr ⟨h.alike_trans hfirst hsecond hthird halike halike', hP, hQ⟩

end Alike

end WeaklyOrders

theorem equal_holds_direction (direction : Direction) (before : Json → Json → Bool)
    (left right : Json) :
    Comparison.equal.holds (direction.before before) left right =
      Comparison.equal.holds before left right := by
  cases direction with
  | ascending => rfl
  | descending => exact equal_holds_comm before right left

/-- Whether a row is past a cursor in the order of a sort key.  Nothing is past null. -/
def keyPast (collation : Collation) : List SortTerm → Json → Json → Bool
  | [], _, _ => false
  | term :: rest, cursor, row =>
      !(cursor.getD term.column).isNull &&
        (term.direction.before (collation term.column) (cursor.getD term.column)
            (row.getD term.column) ||
          (Comparison.equal.holds (collation term.column) (cursor.getD term.column)
              (row.getD term.column) &&
            keyPast collation rest cursor row))

/-- Past a cursor without nulls are the rows it comes before. -/
theorem keyPast_eq_keyBefore {cursor row : Json}
    (hcursor : ∀ term ∈ terms, cursor.getD term.column ≠ .null) :
    keyPast collation terms cursor row = keyBefore collation terms cursor row := by
  induction terms with
  | nil => rfl
  | cons term rest ih =>
      rw [keyPast, keyBefore, not_isNull (hcursor term List.mem_cons_self),
        ih fun other hother => hcursor other (List.mem_cons_of_mem _ hother)]
      rfl

/-- Each value of a cursor has a place in the order of its column, unless it is null. -/
def HasPlace (collation : Collation) (terms : List SortTerm) (rows : List Json)
    (cursor : Json) : Prop :=
  ∀ term ∈ terms, cursor.getD term.column ≠ .null →
    WeaklyOrders (collation term.column)
      (cursor.getD term.column :: rows.map fun row => row.getD term.column)

theorem HasPlace.directed {cursor : Json} (h : HasPlace collation terms rows cursor)
    (backwards : Bool) : HasPlace collation (directed backwards terms) rows cursor := by
  intro term hterm
  obtain ⟨original, horiginal, rfl⟩ := List.mem_map.mp hterm
  exact h original horiginal

/-- After a row past a cursor all rows are. -/
theorem keyPast_of_keyBefore {cursor first second : Json}
    (hplace : HasPlace collation terms rows cursor) (hfirst : first ∈ rows)
    (hsecond : second ∈ rows) (hpast : keyPast collation terms cursor first = true)
    (hbefore : keyBefore collation terms first second = true) :
    keyPast collation terms cursor second = true := by
  induction terms with
  | nil => contradiction
  | cons term rest ih =>
      have hrest := ih fun other hother => hplace other (List.mem_cons_of_mem _ hother)
      simp only [keyPast, keyBefore, Bool.and_eq_true, Bool.not_eq_true',
        Bool.or_eq_true] at hpast hbefore ⊢
      rw [← equal_holds_direction term.direction] at hpast hbefore ⊢
      obtain ⟨hpresent, hpast⟩ := hpast
      have hne : cursor.getD term.column ≠ .null := by
        intro heq
        rw [heq] at hpresent
        contradiction
      have horders := (hplace term List.mem_cons_self hne).direction term.direction
      have hchain := horders.chain List.mem_cons_self
        (List.mem_cons_of_mem _ (List.mem_map_of_mem hfirst))
        (List.mem_cons_of_mem _ (List.mem_map_of_mem hsecond)) hpast hbefore
      exact ⟨hpresent, hchain.imp_right fun halike => ⟨halike.1, hrest halike.2.1 halike.2.2⟩⟩

/-- The condition of being past a cursor holds of the rows past it. -/
theorem holds?_seek_object (collation : Collation) (table : String) (values : Object) {row : Json}
    (hne : terms ≠ []) (hrow : ∀ term ∈ terms, row.getD term.column ≠ .null) :
    (seek table values terms).holds? collation row =
      some (keyPast collation terms (.object values) row) := by
  induction terms with
  | nil => contradiction
  | cons term rest ih =>
      have hcompare (comparison : Comparison) :
          (compareColumn table values comparison term.column).holds? collation row =
            some (!((Json.object values).getD term.column).isNull &&
              comparison.holds (collation term.column) (row.getD term.column)
                ((Json.object values).getD term.column)) := by
        rw [compareColumn, Expression.holds?, not_isNull (hrow term List.mem_cons_self)]
        rfl
      cases rest with
      | nil =>
          rw [seek, hcompare, holds_past, keyPast, keyPast, Bool.and_false, Bool.or_false]
      | cons next others =>
          have hrest := ih (by simp) fun other hother => hrow other (List.mem_cons_of_mem _ hother)
          rw [seek, Expression.holds?, Expression.holds?, hcompare, hcompare, keyPast, hrest,
            holds_past, equal_holds_comm]
          · cases ((Json.object values).getD term.column).isNull <;> rfl
          · simp

/-- What holds of the rows after any of which it holds is a tail of the rows. -/
theorem filter_suffix {A : Type} {before : A → A → Prop} {holds : A → Bool} {listed : List A}
    (hlisted : listed.Pairwise before)
    (hholds : ∀ first ∈ listed, ∀ second ∈ listed,
      holds first = true → before first second → holds second = true) :
    listed.filter holds <:+ listed := by
  induction listed with
  | nil => exact List.suffix_refl _
  | cons first rest ih =>
      obtain ⟨hfirst, hrest⟩ := List.pairwise_cons.mp hlisted
      by_cases hheld : holds first = true
      · have hlater : ∀ second ∈ rest, holds second = true := fun second hsecond =>
          hholds first List.mem_cons_self second (List.mem_cons_of_mem _ hsecond) hheld
            (hfirst second hsecond)
        exact ⟨[], List.filter_eq_self.mpr (List.forall_mem_cons.mpr ⟨hheld, hlater⟩)⟩
      · rw [List.filter_cons_of_neg hheld]
        refine (ih hrest fun item hitem other hother => ?_).trans (List.suffix_cons first rest)
        exact hholds item (List.mem_cons_of_mem _ hitem) other (List.mem_cons_of_mem _ hother)

/-! ### Arguments that are accepted -/

/-- The arguments go one way, and a cursor stands beside a size only. -/
structure GoesOneWay (args : PageArguments) : Prop where
  one_size : args.first = none ∨ args.last = none
  no_cursor : args.first = none → args.last = none → args.after = none ∧ args.before = none

theorem oneMore_eq_ok {argument : String} {count limit : Nat}
    (h : oneMore argument count = .ok limit) : limit = count + 1 := by
  rw [oneMore] at h
  split at h
  · exact (Except.ok.inj h).symm
  · contradiction

/-- A page of some size in the order of the terms, refused with a cursor for the other way. -/
def sized (argument : String) (size : Nat) (terms : List SortTerm) (table : String)
    (cursor other : Option String) (refusal : RequestError) :
    Except RequestError PageParameters := do
  let limit ← oneMore argument size
  let seek ← seekPast table terms cursor
  if other.isSome then .error refusal
  else .ok { order := orderTerms table terms, limit := .count limit, offset := none, seek }

theorem sized_eq_ok {argument table : String} {size : Nat} {cursor other : Option String}
    {refusal : RequestError} {parameters : PageParameters}
    (h : sized argument size terms table cursor other refusal = .ok parameters) :
    other = none ∧ ∃ condition, seekPast table terms cursor = .ok condition ∧
      parameters = ⟨orderTerms table terms, .count (size + 1), none, condition⟩ := by
  rw [sized] at h
  cases hlimit : oneMore argument size with
  | error error => simp [hlimit, bind, Except.bind] at h
  | ok limit =>
      cases hseek : seekPast table terms cursor with
      | error error => simp [hlimit, hseek, bind, Except.bind] at h
      | ok condition =>
          obtain rfl := oneMore_eq_ok hlimit
          simp only [hlimit, hseek, bind, Except.bind] at h
          cases other with
          | some other => contradiction
          | none => exact ⟨rfl, condition, rfl, (Except.ok.inj h).symm⟩

/-- What a page over a sort key fetches by, if its arguments are accepted. -/
theorem overSortKey_eq_ok {args : PageArguments} {table : String} {parameters : PageParameters}
    (hway : GoesOneWay args) (h : overSortKey args terms table = .ok parameters) :
    (args = ⟨none, none, none, none⟩ ∧
      parameters = ⟨orderTerms table terms, .unlimited, none, none⟩) ∨
    ∃ turn size cursor condition, args = Turn.pageArguments turn size cursor ∧
      seekPast table (directed turn.isBackward terms) cursor = .ok condition ∧
      parameters = ⟨orderTerms table (directed turn.isBackward terms), .count (size + 1), none,
        condition⟩ := by
  obtain ⟨first, last, after, before⟩ := args
  cases first with
  | some first =>
      obtain rfl : last = none := hway.one_size.resolve_left (by simp)
      have hsized : sized "first" first (directed false terms) table after before
          .beforeWithFirst = .ok parameters := h
      obtain ⟨rfl, condition, hseek, rfl⟩ := sized_eq_ok hsized
      exact Or.inr ⟨.forward, first, after, condition, rfl, hseek, rfl⟩
  | none =>
      cases last with
      | some last =>
          have hsized : sized "last" last (directed true terms) table before after
              .afterWithLast = .ok parameters := h
          obtain ⟨rfl, condition, hseek, rfl⟩ := sized_eq_ok hsized
          exact Or.inr ⟨.backward, last, before, condition, rfl, hseek, rfl⟩
      | none =>
          obtain ⟨rfl, rfl⟩ : after = none ∧ before = none := hway.no_cursor rfl rfl
          have hall : overSortKey ⟨none, none, none, none⟩ terms table =
              .ok ⟨orderTerms table (directed false terms), .unlimited, none, none⟩ := rfl
          rw [directed_false] at hall
          exact Or.inl ⟨rfl, Except.ok.inj (h.symm.trans hall)⟩

/-! ### Cursors that are read -/

/-- Whether a row is past a cursor, if there is one; nothing is past one that cannot be read. -/
def isPast (collation : Collation) (terms : List SortTerm) : Option String → Json → Bool
  | none, _ => true
  | some cursor, row =>
      match Cursor.decodeSortKey cursor (terms.map SortTerm.column) with
      | .ok values => keyPast collation terms (.object values) row
      | .error _ => false

theorem all_holds?_seekPast (hkeyed : Keyed collation terms rows) (hne : terms ≠ [])
    {table : String} {cursor : Option String} {condition : Option Expression}
    (hseek : seekPast table terms cursor = .ok condition) :
    ∀ row ∈ rows, (condition.all fun e => e.holds? collation row == some true) =
      isPast collation terms cursor row := by
  intro row hrow
  cases cursor with
  | none =>
      obtain rfl := Except.ok.inj hseek
      rfl
  | some cursor =>
      simp only [seekPast, isPast, bind, Except.bind] at hseek ⊢
      cases hvalues : Cursor.decodeSortKey cursor (terms.map SortTerm.column) with
      | error error => simp [hvalues] at hseek
      | ok values =>
          rw [hvalues] at hseek
          obtain rfl := Except.ok.inj hseek
          rw [Option.all_some,
            holds?_seek_object collation table values hne (hkeyed.not_null row hrow)]
          simp

/-- The values that a cursor holds have a place in the order of their columns. -/
def CursorHasPlace (collation : Collation) (terms : List SortTerm) (rows : List Json)
    (cursor : Option String) : Prop :=
  ∀ text ∈ cursor, ∀ values,
    Cursor.decodeSortKey text (terms.map SortTerm.column) = .ok values →
      HasPlace collation terms rows (.object values)

theorem CursorHasPlace.directed {cursor : Option String}
    (h : CursorHasPlace collation terms rows cursor) (backwards : Bool) :
    CursorHasPlace collation (directed backwards terms) rows cursor := by
  intro text htext values hvalues
  rw [map_column_directed] at hvalues
  exact (h text htext values hvalues).directed backwards

/-- The rows past a cursor are a tail of the rows in order. -/
theorem filter_isPast_suffix {ordered : List Json} {cursor : Option String}
    (hplace : CursorHasPlace collation terms rows cursor) (hperm : ordered.Perm rows)
    (hordered : ordered.Pairwise
      fun first second => keyBefore collation terms first second = true) :
    ordered.filter (isPast collation terms cursor) <:+ ordered := by
  apply filter_suffix hordered
  intro first hfirst second hsecond hpast hbefore
  cases cursor with
  | none => rfl
  | some cursor =>
      rw [isPast] at hpast ⊢
      cases hvalues : Cursor.decodeSortKey cursor (terms.map SortTerm.column) with
      | error error => simp [hvalues] at hpast
      | ok values =>
          rw [hvalues] at hpast
          exact keyPast_of_keyBefore (hplace cursor rfl values hvalues) (hperm.mem_iff.mp hfirst)
            (hperm.mem_iff.mp hsecond) hpast hbefore

/-! ### Cursors of rows -/

theorem getD_keyValues (row : Json) {term : SortTerm} (hterm : term ∈ terms) :
    (Json.object (Connection.keyValues (terms.map SortTerm.column) row)).getD term.column =
      row.getD term.column := by
  rw [Json.getD, Json.get?, Connection.get?_keyValues row (List.mem_map_of_mem hterm)]
  rfl

theorem keyBefore_congr_left {first other : Json}
    (h : ∀ term ∈ terms, first.getD term.column = other.getD term.column) (second : Json) :
    keyBefore collation terms first second = keyBefore collation terms other second := by
  induction terms with
  | nil => rfl
  | cons term rest ih =>
      rw [keyBefore, keyBefore, h term List.mem_cons_self,
        ih fun later hlater => h later (List.mem_cons_of_mem _ hlater)]

/-- Past the cursor of a row are the rows after it. -/
theorem isPast_keyOf (hkeyed : Keyed collation terms rows) {row : Json} (hrow : row ∈ rows)
    (hreads : Connection.KeyReadsBack (terms.map SortTerm.column) row) (other : Json) :
    isPast collation terms
        (some (Cursor.encode (Connection.keyOf (terms.map SortTerm.column) row))) other =
      keyBefore collation terms row other := by
  have hnotNull : ∀ term ∈ terms,
      (Json.object (Connection.keyValues (terms.map SortTerm.column) row)).getD term.column ≠
        .null := by
    intro term hterm
    rw [getD_keyValues row hterm]
    exact hkeyed.not_null row hrow term hterm
  simp only [isPast, Connection.decodeSortKey_keyOf hreads]
  rw [keyPast_eq_keyBefore hnotNull,
    keyBefore_congr_left (fun term hterm => getD_keyValues row hterm)]

/-- The cursor of a row has its place among the rows. -/
theorem cursorHasPlace_keyOf (hkeyed : Keyed collation terms rows) {row : Json} (hrow : row ∈ rows)
    (hreads : Connection.KeyReadsBack (terms.map SortTerm.column) row) :
    CursorHasPlace collation terms rows
      (some (Cursor.encode (Connection.keyOf (terms.map SortTerm.column) row))) := by
  rintro _ ⟨⟩ values hvalues term hterm -
  rw [Connection.decodeSortKey_keyOf hreads] at hvalues
  obtain rfl := Except.ok.inj hvalues
  rw [getD_keyValues row hterm]
  apply WeaklyOrders.of_strictlyOrders
  apply (hkeyed.ordered term hterm).mono
  intro value hmem
  rcases List.mem_cons.mp hmem with rfl | hmem
  · exact List.mem_map_of_mem hrow
  · exact hmem

/-! ### The rows of a page -/

theorem Turn.shown_infix (turn : Turn) {part listed : List Json}
    (h : part <:+: turn.shown listed) : turn.shown part <:+: listed := by
  cases turn with
  | forward => exact h
  | backward => exact List.reverse_infix.mp (by simpa [Turn.shown] using h)

/-- The page is what it was asked for: a run of the rows in key order, no longer than
either size and strictly between the cursors; and rows between them are left out of a full
page only. -/
structure Serves (collation : Collation) (terms : List SortTerm) (rows : List Json)
    (args : PageArguments) (shown : List Json) : Prop where
  run : ∃ listed : List Json, listed.Perm rows ∧
    listed.Pairwise (fun first second => keyBefore collation terms first second = true) ∧
    shown <:+: listed
  at_most_first : ∀ size ∈ args.first, shown.length ≤ size
  at_most_last : ∀ size ∈ args.last, shown.length ≤ size
  after : ∀ row ∈ shown, isPast collation terms args.after row = true
  before : ∀ row ∈ shown, isPast collation (directed true terms) args.before row = true
  complete : ∀ row ∈ rows, isPast collation terms args.after row = true →
    isPast collation (directed true terms) args.before row = true →
      row ∈ shown ∨ args.first = some shown.length ∨ args.last = some shown.length

section Page

variable {info : Plan.TableInfo} {turn : Turn} {size : Nat} {cursor : Option String}
  {condition : Option Expression} {listed : List Json}

theorem Turn.isPast_pageArguments (turn : Turn) (size : Nat) (cursor : Option String) (row : Json) :
    isPast collation (directed turn.isBackward terms) cursor row =
      (isPast collation terms (turn.pageArguments size cursor).after row &&
        isPast collation (directed true terms) (turn.pageArguments size cursor).before row) := by
  cases turn with
  | forward => simp [Turn.isBackward, Turn.pageArguments, isPast]
  | backward => simp [Turn.isBackward, Turn.pageArguments, isPast]

/-- A page in one direction shows the next rows past its cursor. -/
theorem page_pageArguments
    (hread : PageArguments.read info.paginate info.limit info.args =
      .ok (turn.pageArguments size cursor))
    (hsortKey : info.effectiveSortKey? = some terms) (hne : terms ≠ [])
    (hkeyed : Keyed collation terms rows) (hperm : listed.Perm rows)
    (hlisted : listed.Pairwise fun first second => keyBefore collation terms first second = true)
    (hseek : seekPast (Plan.sortOwner info info.sortKey.isSome) (directed turn.isBackward terms)
      cursor = .ok condition)
    (hparameters : overSortKey (turn.pageArguments size cursor) terms
        (Plan.sortOwner info info.sortKey.isSome) =
      .ok ⟨orderTerms (Plan.sortOwner info info.sortKey.isSome) (directed turn.isBackward terms),
        .count (size + 1), none, condition⟩) :
    ∃ connection, page collation rows info = .ok connection ∧
      nodes connection = turn.shown (((turn.shown listed).filter
        (isPast collation (directed turn.isBackward terms) cursor)).take size) := by
  have hdirected : directed turn.isBackward terms ≠ [] := by simpa [directed] using hne
  have hkeyed' := hkeyed.directed turn.isBackward
  have hfetch := fetch_eq_take hkeyed' ((turn.perm_shown listed).trans hperm)
    (turn.pairwise_shown hlisted) (Plan.sortOwner info info.sortKey.isSome) (size + 1)
    (all_holds?_seekPast hkeyed' hdirected hseek)
  refine ⟨_, page_eq_ok hread hsortKey hparameters, ?_⟩
  rw [hfetch, nodes_page]

/-- The next rows past a cursor are what a page in one direction asks for. -/
theorem serves_pageArguments (hperm : listed.Perm rows)
    (hlisted : listed.Pairwise fun first second => keyBefore collation terms first second = true)
    (hplace : CursorHasPlace collation terms rows cursor) :
    Serves collation terms rows (turn.pageArguments size cursor)
      (turn.shown (((turn.shown listed).filter
        (isPast collation (directed turn.isBackward terms) cursor)).take size)) := by
  have hperm' := (turn.perm_shown listed).trans hperm
  have htail := filter_isPast_suffix (hplace.directed turn.isBackward) hperm'
    (turn.pairwise_shown hlisted)
  have hmem {row : Json} {part : List Json} : row ∈ turn.shown part ↔ row ∈ part :=
    (turn.perm_shown part).mem_iff
  generalize hrest : (turn.shown listed).filter
    (isPast collation (directed turn.isBackward terms) cursor) = rest at htail ⊢
  have hpast {row : Json} (hrow : row ∈ rest.take size) :
      isPast collation (directed turn.isBackward terms) cursor row = true := by
    have hrow' := List.mem_of_mem_take hrow
    rw [← hrest] at hrow'
    exact (List.mem_filter.mp hrow').2
  have hlength : (turn.shown (rest.take size)).length = min size rest.length := by
    rw [(turn.perm_shown _).length_eq, List.length_take]
  refine {
    run := ⟨listed, hperm, hlisted, ?_⟩
    at_most_first := ?_
    at_most_last := ?_
    after := ?_
    before := ?_
    complete := ?_ }
  · apply turn.shown_infix
    exact (List.take_prefix size rest).isInfix.trans htail.isInfix
  · intro asked hasked
    cases turn <;> simp [Turn.pageArguments] at hasked
    omega
  · intro asked hasked
    cases turn <;> simp [Turn.pageArguments] at hasked
    omega
  · intro row hrow
    have hrow' := hpast (hmem.mp hrow)
    rw [turn.isPast_pageArguments size, Bool.and_eq_true] at hrow'
    exact hrow'.1
  · intro row hrow
    have hrow' := hpast (hmem.mp hrow)
    rw [turn.isPast_pageArguments size, Bool.and_eq_true] at hrow'
    exact hrow'.2
  · intro row hrow hafter hbefore
    have hrow' : row ∈ rest := by
      rw [← hrest, List.mem_filter, turn.isPast_pageArguments size, hafter, hbefore]
      exact ⟨hperm'.mem_iff.mpr hrow, rfl⟩
    by_cases hfits : rest.length ≤ size
    · left
      rw [hmem, List.take_of_length_le hfits]
      exact hrow'
    · right
      have hfull : (turn.shown (rest.take size)).length = size := by omega
      rw [hfull]
      cases turn with
      | forward => exact Or.inl rfl
      | backward => exact Or.inr rfl

/-- Without a size the page shows all rows, whatever the cursors. -/
theorem page_unlimited {after before : Option String}
    (hread : PageArguments.read info.paginate info.limit info.args =
      .ok ⟨none, none, after, before⟩)
    (hsortKey : info.effectiveSortKey? = some terms) :
    ∃ connection, page collation rows info = .ok connection ∧
      nodes connection = sortRows (keyBefore collation terms) rows := by
  have hparameters : overSortKey ⟨none, none, after, before⟩ terms
      (Plan.sortOwner info info.sortKey.isSome) =
        .ok ⟨orderTerms (Plan.sortOwner info info.sortKey.isSome) (directed false terms),
          .unlimited, none, none⟩ := rfl
  refine ⟨_, page_eq_ok hread hsortKey hparameters, ?_⟩
  rw [nodes_overSortKey, directed_false]
  simp [Connection.keyedPage, PageParameters.fetch, RowLimit.cut, sortsBefore_orderTerms,
    List.filter_true]

end Page

/-- A page whose arguments go one way and are accepted is what it was asked for. -/
theorem accepted_page_serves {info : Plan.TableInfo} {args : PageArguments}
    {parameters : PageParameters}
    (hread : PageArguments.read info.paginate info.limit info.args = .ok args)
    (hsortKey : info.effectiveSortKey? = some terms) (hne : terms ≠ [])
    (hkeyed : Keyed collation terms rows)
    (haccepted : overSortKey args terms (Plan.sortOwner info info.sortKey.isSome) =
      .ok parameters)
    (hway : GoesOneWay args) (hafter : CursorHasPlace collation terms rows args.after)
    (hbefore : CursorHasPlace collation terms rows args.before) :
    ∃ connection, page collation rows info = .ok connection ∧
      Serves collation terms rows args (nodes connection) := by
  have hperm := perm_sortRows (keyBefore collation terms) rows
  have hlisted := pairwise_sortRows hkeyed.strictlyOrders hkeyed.nodup
  rcases overSortKey_eq_ok hway haccepted with
    ⟨rfl, -⟩ | ⟨turn, size, cursor, condition, rfl, hseek, rfl⟩
  · obtain ⟨connection, hpage, hnodes⟩ : ∃ connection, page collation rows info = .ok connection ∧
        nodes connection = sortRows (keyBefore collation terms) rows :=
      page_unlimited hread hsortKey
    refine ⟨connection, hpage, ?_⟩
    rw [hnodes]
    exact {
      run := ⟨_, hperm, hlisted, List.infix_refl _⟩
      at_most_first := fun _ hsize => by contradiction
      at_most_last := fun _ hsize => by contradiction
      after := fun _ _ => rfl
      before := fun _ _ => rfl
      complete := fun row hrow _ _ => Or.inl (hperm.mem_iff.mpr hrow) }
  · have hplace : CursorHasPlace collation terms rows cursor := by
      cases turn with
      | forward => exact hafter
      | backward => exact hbefore
    obtain ⟨connection, hpage, hnodes⟩ := page_pageArguments hread hsortKey hne hkeyed hperm
      hlisted hseek haccepted
    refine ⟨connection, hpage, ?_⟩
    rw [hnodes]
    exact serves_pageArguments hperm hlisted hplace

/-! ### Pages of posts -/

/-- The cursor of the second post. -/
def secondPost : String := Cursor.encode (Connection.keyOf ["likes", "id"] (post 2 5))

theorem keyReadsBack_secondPost : Connection.KeyReadsBack ["likes", "id"] (post 2 5) := by
  intro column hcolumn
  simp only [List.mem_cons, List.not_mem_nil, or_false] at hcolumn
  rcases hcolumn with rfl | rfl <;> exact Json.readsBack_singleton_int _ (by decide) (by decide)

theorem accepted_page_serves_posts :
    ∃ connection,
      page numerically posts (Turn.forward.request 2 postsField (some secondPost)) =
        .ok connection ∧
      Serves numerically mostLiked posts ⟨some 2, none, some secondPost, none⟩
        (nodes connection) := by
  have hseek : seekPast "posts" (directed false mostLiked) (some secondPost) =
      .ok (some (seek "posts" (Connection.keyValues ["likes", "id"] (post 2 5)) mostLiked)) := by
    have hdecode : Cursor.decodeSortKey secondPost (mostLiked.map SortTerm.column) =
        .ok (Connection.keyValues ["likes", "id"] (post 2 5)) :=
      Connection.decodeSortKey_keyOf keyReadsBack_secondPost
    simp only [directed_false, seekPast, bind, Except.bind, hdecode]
  have haccepted := overSortKey_pageArguments .forward (by decide : 2 + 1 < countLimit)
    (some secondPost) mostLiked "posts" hseek
  have hread := Turn.forward.read_arguments 2 (by decide) (some secondPost) none
  have hway : GoesOneWay (Turn.forward.pageArguments 2 (some secondPost)) :=
    ⟨Or.inr rfl, fun hfirst => by simp [Turn.pageArguments] at hfirst⟩
  have hafter : CursorHasPlace numerically mostLiked posts (some secondPost) :=
    cursorHasPlace_keyOf keyed_posts (by simp [posts]) keyReadsBack_secondPost
  have hbefore : CursorHasPlace numerically mostLiked posts none := by simp [CursorHasPlace]
  exact accepted_page_serves hread rfl (List.cons_ne_nil _ _) keyed_posts haccepted hway hafter
    hbefore

/-- Posts after a cursor, of no number, are all posts; and of the first three and the last
one there are three. -/
theorem exists_page_not_served :
    (∃ connection,
      page numerically posts { postsField with args := [("after", .string secondPost)] } =
        .ok connection ∧
      ¬Serves numerically mostLiked posts ⟨none, none, some secondPost, none⟩
        (nodes connection)) ∧
    ∃ connection,
      page numerically posts
          { postsField with args := [("first", .ofNat 3), ("last", .ofNat 1)] } =
        .ok connection ∧
      ¬Serves numerically mostLiked posts ⟨some 3, some 1, none, none⟩ (nodes connection) := by
  constructor
  · have hread : PageArguments.read true none [("after", .string secondPost)] =
        .ok ⟨none, none, some secondPost, none⟩ := rfl
    obtain ⟨connection, hpage, hnodes⟩ : ∃ connection,
        page numerically posts { postsField with args := [("after", .string secondPost)] } =
          .ok connection ∧
        nodes connection = sortRows (keyBefore numerically mostLiked) posts :=
      page_unlimited hread rfl
    refine ⟨connection, hpage, fun hserves => ?_⟩
    have hshown : post 2 5 ∈ nodes connection := by
      rw [hnodes, (perm_sortRows _ _).mem_iff]
      simp [posts]
    have hpast := hserves.after _ hshown
    have hself : isPast numerically mostLiked (some secondPost) (post 2 5) =
        keyBefore numerically mostLiked (post 2 5) (post 2 5) :=
      isPast_keyOf keyed_posts (by simp [posts]) keyReadsBack_secondPost (post 2 5)
    rw [hself, keyBefore_irrefl keyed_posts.ordered (by simp [posts])] at hpast
    exact Bool.false_ne_true hpast
  · have hread : PageArguments.read true none [("first", .ofNat 3), ("last", .ofNat 1)] =
        .ok ⟨some 3, some 1, none, none⟩ := rfl
    have hparameters : overSortKey ⟨some 3, some 1, none, none⟩ mostLiked "posts" =
        .ok ⟨orderTerms "posts" (directed true mostLiked), .count 4, none, none⟩ := rfl
    have hkeyed := keyed_posts.directed true
    have hperm := perm_sortRows (keyBefore numerically (directed true mostLiked)) posts
    have hfetch := fetch_eq_take hkeyed hperm
      (pairwise_sortRows hkeyed.strictlyOrders hkeyed.nodup) "posts" 4
      (all_holds?_seekPast hkeyed (List.cons_ne_nil _ _)
        (rfl : seekPast "posts" (directed true mostLiked) none = .ok none))
    refine ⟨_, page_eq_ok hread rfl hparameters, fun hserves => ?_⟩
    have hlength := hserves.at_most_last 1 rfl
    have hpast : isPast numerically (directed true mostLiked) none = fun _ => true := rfl
    rw [nodes_overSortKey, hfetch, hpast, List.filter_true] at hlength
    simp only [Connection.keyedPage, List.length_take, hperm.length_eq] at hlength
    contradiction

end JoinPlan.Paging
