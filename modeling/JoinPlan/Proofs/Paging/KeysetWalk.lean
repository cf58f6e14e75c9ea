import JoinPlan.Proofs.Paging.Walk

/-!
# A walk over a sort key shows every row once

The statement this leads to: whatever the page size, walking forward and walking
backward both show all rows of the table in key order.
-/

namespace JoinPlan.Paging

open Sql

variable {collation : Collation} {terms : List SortTerm} {rows ordered rest : List Json}
  {columns : List String} {turn : Turn} {size : Nat} {cursor : Option String}

/-- What remains past a cursor: the rows behind the one it was made of. -/
def Remains (columns : List String) (ordered : List Json) : Option String → List Json → Prop
  | none, rest => rest = ordered
  | some cursor, rest => ∃ front row,
      ordered = front ++ row :: rest ∧ cursor = Cursor.encode (Connection.keyOf columns row)

/-- The condition of being past a cursor leaves what remains. -/
theorem exists_seekPast (hkeyed : Keyed collation terms rows) (hne : terms ≠ [])
    (hreads : ∀ row ∈ rows, Connection.KeyReadsBack (terms.map SortTerm.column) row)
    (hperm : ordered.Perm rows)
    (hordered : ordered.Pairwise fun first second => keyBefore collation terms first second = true)
    (hremains : Remains (terms.map SortTerm.column) ordered cursor rest) (table : String) :
    ∃ condition holds, seekPast table terms cursor = .ok condition ∧
      (∀ row ∈ rows, (condition.all fun e => e.holds? collation row == some true) = holds row) ∧
      ordered.filter holds = rest := by
  cases cursor with
  | none =>
      refine ⟨none, fun _ => true, rfl, fun _ _ => rfl, ?_⟩
      rw [List.filter_true]
      exact hremains.symm
  | some cursor =>
      obtain ⟨front, row, rfl, rfl⟩ := hremains
      have hrow : row ∈ rows := hperm.mem_iff.mp (by simp)
      refine ⟨some (seek table (Connection.keyValues (terms.map SortTerm.column) row) terms),
        keyBefore collation terms row, ?_, ?_, filter_keyBefore hkeyed hperm hordered⟩
      · rw [seekPast, Connection.decodeSortKey_keyOf (hreads row hrow)]
        rfl
      · intro other hother
        have hseek := holds?_seek collation table hne
          (fun term hterm => Connection.get?_keyValues row (List.mem_map_of_mem hterm))
          (hkeyed.not_null row hrow) (hkeyed.not_null other hother)
        rw [Option.all_some, hseek]
        simp

/-- A page shows the next rows of what remains. -/
theorem page_request {info : Plan.TableInfo} (hpaginate : info.paginate = true)
    (hsortKey : info.effectiveSortKey? = some terms) (hne : terms ≠ [])
    (hkeyed : Keyed collation terms rows)
    (hreads : ∀ row ∈ rows, Connection.KeyReadsBack (terms.map SortTerm.column) row)
    (hsize : size + 1 < countLimit) (hperm : ordered.Perm rows)
    (hordered : ordered.Pairwise fun first second =>
      keyBefore collation (directed turn.isBackward terms) first second = true)
    (hremains : Remains (terms.map SortTerm.column) ordered cursor rest) :
    page collation rows (turn.request size info cursor) =
      .ok (Connection.overSortKey (turn.pageArguments size cursor)
        (terms.map SortTerm.column) (rest.take (size + 1))) := by
  have hcolumns := map_column_directed turn.isBackward terms
  have hdirected : directed turn.isBackward terms ≠ [] := by simpa [directed] using hne
  rw [← hcolumns] at hreads hremains
  obtain ⟨condition, holds, hseek, hholds, hrest⟩ := exists_seekPast
    (hkeyed.directed turn.isBackward) hdirected hreads hperm hordered hremains
    (Plan.sortOwner info info.sortKey.isSome)
  have hparameters := overSortKey_pageArguments turn hsize cursor terms _ hseek
  have hfetch := fetch_eq_take (hkeyed.directed turn.isBackward) hperm hordered
    (Plan.sortOwner info info.sortKey.isSome) (size + 1) hholds
  rw [hrest] at hfetch
  have hread := turn.read_request (Nat.lt_of_succ_lt hsize) hpaginate cursor
  rw [page_eq_ok hread hsortKey hparameters, hfetch]

/-- Behind a row of what remains, the rest of it remains. -/
theorem remains_onward (hremains : Remains columns ordered cursor rest) {front back : List Json}
    {row : Json} (hsplit : rest = front ++ row :: back) :
    Remains columns ordered (some (Cursor.encode (Connection.keyOf columns row))) back := by
  cases cursor with
  | none => exact ⟨front, row, hremains.symm.trans hsplit, rfl⟩
  | some cursor =>
      obtain ⟨before, other, hordered, -⟩ := hremains
      refine ⟨before ++ other :: front, row, ?_, rfl⟩
      rw [hordered, hsplit]
      simp

/-- What remains is walked through, page by page. -/
theorem exists_walk {fetch : Option String → Except PlanError Json}
    (hpage : ∀ cursor rest, Remains columns ordered cursor rest →
      fetch cursor = .ok (Connection.overSortKey (turn.pageArguments size cursor) columns
        (rest.take (size + 1))))
    (hsize : 1 ≤ size) (hremains : Remains columns ordered cursor rest) :
    ∃ chunks : List (List Json), Walk turn fetch cursor (chunks.map turn.shown) ∧
      chunks.flatten = rest := by
  induction hlength : rest.length using Nat.strongRecOn generalizing rest cursor with
  | ind length ih =>
      have hfetch := hpage cursor rest hremains
      by_cases hmore : size < rest.length
      · -- the last row shown, behind which the rest of the walk goes on
        obtain ⟨front, row, hlast⟩ : ∃ front row, rest.take size = front ++ [row] := by
          rcases List.eq_nil_or_concat' (rest.take size) with hnil | ⟨front, row, hlast⟩
          · rcases List.take_eq_nil_iff.mp hnil with hzero | hempty
            · omega
            · simp [hempty] at hmore
          · exact ⟨front, row, hlast⟩
        have hsplit : rest = front ++ row :: rest.drop size := by
          rw [← List.singleton_append, ← List.append_assoc, ← hlast, List.take_append_drop]
        have honward : Remains columns ordered
            (some (Cursor.encode (Connection.keyOf columns row))) (rest.drop size) :=
          remains_onward hremains hsplit
        obtain ⟨chunks, hwalk, hflatten⟩ := ih (rest.drop size).length
          (by rw [List.length_drop]; omega) honward rfl
        refine ⟨rest.take size :: chunks, ?_, ?_⟩
        · have hnext := Walk.next hfetch (by rw [more_page, decide_eq_true hmore])
            (edge_page hlast) hwalk
          rwa [nodes_page] at hnext
        · rw [List.flatten_cons, hflatten, List.take_append_drop]
      · refine ⟨[rest], ?_, by simp⟩
        have hend := Walk.last hfetch (by rw [more_page, decide_eq_false hmore])
        rwa [nodes_page, List.take_of_length_le (Nat.le_of_not_lt hmore)] at hend

theorem Turn.shown_shown (turn : Turn) (listed : List Json) :
    turn.shown (turn.shown listed) = listed := by
  cases turn with
  | forward => rfl
  | backward => exact List.reverse_reverse listed

theorem Turn.perm_shown (turn : Turn) (listed : List Json) : (turn.shown listed).Perm listed := by
  cases turn with
  | forward => exact List.Perm.refl listed
  | backward => exact List.reverse_perm listed

/-- In the direction of fetching the rows are in the order of the directed terms. -/
theorem Turn.pairwise_shown (turn : Turn) {listed : List Json}
    (hlisted : listed.Pairwise fun first second => keyBefore collation terms first second = true) :
    (turn.shown listed).Pairwise fun first second =>
      keyBefore collation (directed turn.isBackward terms) first second = true := by
  cases turn with
  | forward =>
      rw [Turn.isBackward, directed_false]
      exact hlisted
  | backward =>
      rw [Turn.isBackward, keyBefore_directed_true]
      exact List.pairwise_reverse.mpr hlisted

theorem exists_walk_assembled (turn : Turn) {info : Plan.TableInfo} {listed : List Json}
    (hpaginate : info.paginate = true) (hsortKey : info.effectiveSortKey? = some terms)
    (hne : terms ≠ []) (hkeyed : Keyed collation terms rows)
    (hreads : ∀ row ∈ rows, Connection.KeyReadsBack (terms.map SortTerm.column) row)
    (hpos : 1 ≤ size) (hsize : size + 1 < countLimit) (hperm : listed.Perm rows)
    (hlisted : listed.Pairwise fun first second => keyBefore collation terms first second = true) :
    ∃ pages, Walk turn (fun cursor => page collation rows (turn.request size info cursor)) none
        pages ∧ turn.assembled pages = listed := by
  have hperm' := (turn.perm_shown listed).trans hperm
  have hordered := turn.pairwise_shown hlisted
  have hstart : Remains (terms.map SortTerm.column) (turn.shown listed) none
      (turn.shown listed) := rfl
  obtain ⟨chunks, hwalk, hflatten⟩ := exists_walk
    (fun cursor rest hremains => page_request hpaginate hsortKey hne hkeyed hreads hsize hperm'
      hordered hremains)
    hpos hstart
  refine ⟨_, hwalk, ?_⟩
  rw [turn.assembled_shown, hflatten, turn.shown_shown]

/-- Walking a table by its sort key shows every row once, in key order: forward page
after page, and backward with each page put before the others. -/
theorem keyset_walks {info : Plan.TableInfo} (hpaginate : info.paginate = true)
    (hsortKey : info.effectiveSortKey? = some terms) (hne : terms ≠ [])
    (hkeyed : Keyed collation terms rows)
    (hreads : ∀ row ∈ rows, Connection.KeyReadsBack (terms.map SortTerm.column) row)
    (hpos : 1 ≤ size) (hsize : size + 1 < countLimit) :
    ∃ listed : List Json, listed.Perm rows ∧
      listed.Pairwise (fun first second => keyBefore collation terms first second = true) ∧
      (∃ pages, Walk .forward
          (fun cursor => page collation rows (Turn.forward.request size info cursor)) none pages ∧
        pages.flatten = listed) ∧
      (∃ pages, Walk .backward
          (fun cursor => page collation rows (Turn.backward.request size info cursor)) none pages ∧
        pages.reverse.flatten = listed) := by
  have hperm := perm_sortRows (keyBefore collation terms) rows
  have hlisted := pairwise_sortRows hkeyed.strictlyOrders hkeyed.nodup
  exact ⟨_, hperm, hlisted,
    exists_walk_assembled .forward hpaginate hsortKey hne hkeyed hreads hpos hsize hperm hlisted,
    exists_walk_assembled .backward hpaginate hsortKey hne hkeyed hreads hpos hsize hperm hlisted⟩

/-! ### A table of posts -/

/-- Integers in their usual order. -/
def numerically : Collation
  | _, .number (.int left), .number (.int right) => decide (left < right)
  | _, _, _ => false

theorem strictlyOrders_numerically (column : String) (values : List Int) :
    StrictlyOrders (numerically column) (values.map fun value => .number (.int value)) where
  irrefl row hrow := by
    obtain ⟨value, -, rfl⟩ := List.mem_map.mp hrow
    simp [numerically]
  trans first hfirst second hsecond third hthird hbefore hafter := by
    obtain ⟨left, -, rfl⟩ := List.mem_map.mp hfirst
    obtain ⟨middle, -, rfl⟩ := List.mem_map.mp hsecond
    obtain ⟨right, -, rfl⟩ := List.mem_map.mp hthird
    simp only [numerically, decide_eq_true_eq] at hbefore hafter ⊢
    exact Int.lt_trans hbefore hafter
  total first hfirst second hsecond hne := by
    obtain ⟨left, -, rfl⟩ := List.mem_map.mp hfirst
    obtain ⟨right, -, rfl⟩ := List.mem_map.mp hsecond
    simp only [numerically, decide_eq_true_eq]
    have hvalues : left ≠ right := fun heq => hne (by rw [heq])
    omega

def post (id likes : Int) : Json :=
  .object [("id", .number (.int id)), ("likes", .number (.int likes))]

def posts : List Json := [post 1 3, post 2 5, post 3 3]

def mostLiked : List SortTerm := [⟨"likes", .descending⟩, ⟨"id", .ascending⟩]

def postsField : Plan.TableInfo where
  fieldName := "posts"
  typeName := "Post"
  isAbstract := false
  reference := "posts"
  aliasName := "posts"
  args := []
  many := true
  paginate := true
  orderBy := none
  sortKey := some mostLiked
  limit := none
  condition := none
  relation := none

theorem keyed_posts : Keyed numerically mostLiked posts where
  not_null row hrow term hterm := by
    simp only [posts, mostLiked, List.mem_cons, List.not_mem_nil, or_false] at hrow hterm
    rcases hrow with rfl | rfl | rfl <;> rcases hterm with rfl | rfl <;>
      simp [post, Json.getD, Json.get?, Assoc.get?]
  ordered term hterm := by
    simp only [mostLiked, List.mem_cons, List.not_mem_nil, or_false] at hterm
    rcases hterm with rfl | rfl
    · exact strictlyOrders_numerically "likes" [3, 5, 3]
    · exact strictlyOrders_numerically "id" [1, 2, 3]
  distinct := by
    simp [posts, mostLiked, post, Json.getD, Json.get?, Assoc.get?]

theorem keyset_walks_posts :
    ∃ listed : List Json, listed.Perm posts ∧
      listed.Pairwise (fun first second => keyBefore numerically mostLiked first second = true) ∧
      (∃ pages, Walk .forward
          (fun cursor => page numerically posts (Turn.forward.request 2 postsField cursor)) none
          pages ∧ pages.flatten = listed) ∧
      (∃ pages, Walk .backward
          (fun cursor => page numerically posts (Turn.backward.request 2 postsField cursor)) none
          pages ∧ pages.reverse.flatten = listed) := by
  apply keyset_walks rfl rfl (List.cons_ne_nil _ _) keyed_posts _ (by decide) (by decide)
  intro row hrow column hcolumn
  simp only [posts, List.mem_cons, List.not_mem_nil, or_false] at hrow
  simp only [List.map_cons, List.map_nil, List.mem_cons, List.not_mem_nil, or_false] at hcolumn
  rcases hrow with rfl | rfl | rfl <;> rcases hcolumn with rfl | rfl <;>
    exact Json.readsBack_singleton_int _ (by decide) (by decide)

end JoinPlan.Paging
