import JoinPlan.Proofs.Assoc
import Mathlib.Data.List.Induction

/-!
# Items by their keys

Of items with one key `distinctBy` keeps the first, so it loses no key; `group` puts
them together.  A list that comes in blocks of items with one key each is grouped into
these blocks.
-/

namespace JoinPlan.Assoc

variable {K W : Type}

section DistinctBy

variable [DecidableEq K] {key : W → K}

theorem mem_of_mem_distinctByFrom {items : List W} {seen : List K} {item : W}
    (h : item ∈ distinctByFrom key seen items) : item ∈ items := by
  induction items generalizing seen with
  | nil => exact h
  | cons first rest ih =>
      by_cases hseen : key first ∈ seen
      · simp only [distinctByFrom, hseen, if_true] at h
        exact List.mem_cons_of_mem _ (ih h)
      · simp only [distinctByFrom, hseen, if_false, List.mem_cons] at h
        exact List.mem_cons.mpr (h.imp_right ih)

/-- A key that was not seen before is that of an item that stays. -/
theorem exists_mem_distinctByFrom (key : W → K) {items : List W} {seen : List K} {item : W}
    (hitem : item ∈ items) (hseen : key item ∉ seen) :
    ∃ kept ∈ distinctByFrom key seen items, key kept = key item := by
  induction items generalizing seen with
  | nil => simp at hitem
  | cons first rest ih =>
      by_cases hfirst : key first ∈ seen
      · simp only [distinctByFrom, hfirst, if_true]
        rcases List.mem_cons.mp hitem with rfl | hrest
        · exact absurd hfirst hseen
        · exact ih hrest hseen
      · simp only [distinctByFrom, hfirst, if_false]
        by_cases hkey : key item = key first
        · exact ⟨first, List.mem_cons_self, hkey.symm⟩
        · have hrest : item ∈ rest := by
            rcases List.mem_cons.mp hitem with rfl | hrest
            · exact absurd rfl hkey
            · exact hrest
          have hfresh : key item ∉ key first :: seen := by simp [hkey, hseen]
          obtain ⟨kept, hkept, heq⟩ := ih hrest hfresh
          exact ⟨kept, List.mem_cons_of_mem _ hkept, heq⟩

theorem mem_of_mem_distinctBy {items : List W} {item : W}
    (h : item ∈ distinctBy key items) : item ∈ items :=
  mem_of_mem_distinctByFrom h

theorem exists_mem_distinctBy (key : W → K) {items : List W} {item : W} (h : item ∈ items) :
    ∃ kept ∈ distinctBy key items, key kept = key item :=
  exists_mem_distinctByFrom key h (by simp)

theorem not_mem_of_mem_distinctByFrom {items : List W} {seen : List K} {item : W}
    (h : item ∈ distinctByFrom key seen items) : key item ∉ seen := by
  induction items generalizing seen with
  | nil => simp [distinctByFrom] at h
  | cons first rest ih =>
      by_cases hfirst : key first ∈ seen
      · simp only [distinctByFrom, hfirst, if_true] at h
        exact ih h
      · simp only [distinctByFrom, hfirst, if_false, List.mem_cons] at h
        rcases h with rfl | h
        · exact hfirst
        · exact fun hseen => ih h (List.mem_cons_of_mem _ hseen)

theorem eq_of_mem_distinctByFrom {items : List W} {seen : List K} {first second : W}
    (hfirst : first ∈ distinctByFrom key seen items)
    (hsecond : second ∈ distinctByFrom key seen items) (heq : key first = key second) :
    first = second := by
  induction items generalizing seen with
  | nil => simp [distinctByFrom] at hfirst
  | cons item rest ih =>
      by_cases hitem : key item ∈ seen
      · simp only [distinctByFrom, hitem, if_true] at hfirst hsecond
        exact ih hfirst hsecond
      · simp only [distinctByFrom, hitem, if_false, List.mem_cons] at hfirst hsecond
        rcases hfirst with rfl | hfirst
        · rcases hsecond with rfl | hsecond
          · rfl
          · exact absurd (by simp [heq]) (not_mem_of_mem_distinctByFrom hsecond)
        · rcases hsecond with rfl | hsecond
          · exact absurd (by simp [heq]) (not_mem_of_mem_distinctByFrom hfirst)
          · exact ih hfirst hsecond

theorem eq_of_mem_distinctBy {items : List W} {first second : W}
    (hfirst : first ∈ distinctBy key items) (hsecond : second ∈ distinctBy key items)
    (heq : key first = key second) : first = second :=
  eq_of_mem_distinctByFrom hfirst hsecond heq

theorem mem_distinctBy_id {keys : List K} {key : K} :
    key ∈ distinctBy id keys ↔ key ∈ keys := by
  constructor
  · exact mem_of_mem_distinctBy
  · intro h
    obtain ⟨kept, hkept, rfl⟩ := exists_mem_distinctBy id h
    exact hkept

theorem map_distinctByFrom (key : W → K) (seen : List K) (items : List W) :
    (distinctByFrom key seen items).map key =
      ((items.map key).filter fun found => found ∉ seen).eraseDups := by
  induction items generalizing seen with
  | nil => rfl
  | cons item rest ih =>
      rw [distinctByFrom, List.map_cons, List.filter_cons]
      by_cases hseen : key item ∈ seen
      · simp [hseen, ih]
      · have hothers : ((rest.map key).filter fun found => found ∉ key item :: seen) =
            ((rest.map key).filter fun found => found ∉ seen).filter
              fun found => !found == key item := by
          rw [List.filter_filter]
          congr 1
          funext found
          simp [not_or, beq_eq_decide]
        have hkept : decide (key item ∉ seen) = true := decide_eq_true hseen
        rw [if_neg hseen, if_pos hkept, List.map_cons, ih, hothers, List.eraseDups_cons]

theorem find?_of_mem_distinctByFrom {items : List W} {seen : List K} {item : W}
    (h : item ∈ distinctByFrom key seen items) :
    items.find? (fun other => key other = key item) = some item := by
  induction items generalizing seen with
  | nil => simp [distinctByFrom] at h
  | cons first rest ih =>
      rw [distinctByFrom] at h
      by_cases hkey : key first = key item
      · split at h
        · rename_i hseen
          exact absurd (hkey ▸ hseen) (not_mem_of_mem_distinctByFrom h)
        · rcases List.mem_cons.mp h with rfl | hrest
          · simp
          · have hfresh := not_mem_of_mem_distinctByFrom hrest
            exact absurd (hkey ▸ List.mem_cons_self) hfresh
      · rw [List.find?_cons_of_neg (by simpa using hkey)]
        split at h
        · exact ih h
        · rcases List.mem_cons.mp h with rfl | hrest
          · exact absurd rfl hkey
          · exact ih hrest

theorem nodup_distinctByFrom (key : W → K) (items : List W) (seen : List K) :
    (distinctByFrom key seen items).Nodup := by
  induction items generalizing seen with
  | nil => exact List.nodup_nil
  | cons first rest ih =>
      by_cases hfirst : key first ∈ seen
      · simp only [distinctByFrom, hfirst, if_true]
        exact ih seen
      · simp only [distinctByFrom, hfirst, if_false]
        apply List.nodup_cons.mpr
        exact ⟨fun h => not_mem_of_mem_distinctByFrom h List.mem_cons_self, ih _⟩

theorem distinctByFrom_append_singleton (key : W → K) (items : List W) (last : W)
    (seen : List K) :
    distinctByFrom key seen (items ++ [last]) =
      if key last ∈ seen ∨ key last ∈ items.map key then distinctByFrom key seen items
      else distinctByFrom key seen items ++ [last] := by
  induction items generalizing seen with
  | nil => by_cases h : key last ∈ seen <;> simp [distinctByFrom, h]
  | cons first rest ih =>
      by_cases hfirst : key first ∈ seen
      · have hsame : (key last ∈ seen ∨ key last ∈ (first :: rest).map key) ↔
            (key last ∈ seen ∨ key last ∈ rest.map key) := by
          rw [List.map_cons, List.mem_cons]
          grind
        simp only [List.cons_append, distinctByFrom, hfirst, if_true, ih, hsame]
      · have hsame : (key last ∈ seen ∨ key last ∈ (first :: rest).map key) ↔
            (key last ∈ key first :: seen ∨ key last ∈ rest.map key) := by
          rw [List.map_cons, List.mem_cons, List.mem_cons]
          grind
        simp only [List.cons_append, distinctByFrom, hfirst, if_false, ih, hsame]
        split <;> rfl

theorem distinctBy_id_append_singleton (keys : List K) (last : K) :
    distinctBy id (keys ++ [last]) =
      if last ∈ keys then distinctBy id keys else distinctBy id keys ++ [last] := by
  have happend := distinctByFrom_append_singleton id keys last []
  simpa [distinctBy] using happend

end DistinctBy

section Group

variable [DecidableEq K]

theorem group_append_singleton (key? : W → Option K) (items : List W) (last : W) :
    group key? (items ++ [last]) =
      match key? last with
      | none => group key? items
      | some key => alter key (fun members => members.getD [] ++ [last]) (group key? items) := by
  rw [group, List.foldl_append]
  rfl

/-- The groups are those of the keys in order of first appearance, each with all the
items that have its key. -/
theorem group_eq (key? : W → Option K) (items : List W) :
    group key? items =
      (distinctBy id (items.filterMap key?)).map fun key =>
        (key, items.filter fun item => key? item = some key) := by
  induction items using List.reverseRecOn with
  | nil => rfl
  | append_singleton items last ih =>
      rw [group_append_singleton, ih]
      cases hkey : key? last with
      | none =>
          simp [List.filterMap_append, List.filter_append, hkey]
      | some key =>
          have hnodup : (distinctBy id (items.filterMap key?)).Nodup :=
            nodup_distinctByFrom id _ []
          have hkeys : (items ++ [last]).filterMap key? = items.filterMap key? ++ [key] := by
            simp [List.filterMap_append, hkey]
          have hsame : ((items ++ [last]).filter fun item => key? item = some key) =
              (items.filter fun item => key? item = some key) ++ [last] := by
            simp [List.filter_append, hkey]
          have hother : ∀ other, other ≠ key →
              ((items ++ [last]).filter fun item => key? item = some other) =
                items.filter fun item => key? item = some other := by
            intro other hne
            simp [List.filter_append, hkey, Ne.symm hne]
          simp only [alter_map_pair _ _ hnodup, mem_distinctBy_id, hkeys,
            distinctBy_id_append_singleton]
          split
          · apply List.map_congr_left
            intro other _
            by_cases heq : other = key
            · rw [if_pos heq, heq, hsame]
              rfl
            · rw [if_neg heq, hother other heq]
          · rename_i hfresh
            have hnone : (items.filter fun item => key? item = some key) = [] := by
              apply List.filter_eq_nil_iff.mpr
              intro item hitem heq
              exact hfresh (List.mem_filterMap.mpr ⟨item, hitem, of_decide_eq_true heq⟩)
            rw [List.map_append, List.map_singleton, hsame, hnone]
            congr 1
            apply List.map_congr_left
            intro other hmem
            have hne : other ≠ key := fun heq =>
              hfresh (heq ▸ mem_distinctBy_id.mp hmem)
            rw [hother other hne]

theorem key?_of_mem_group {key? : W → Option K} {items : List W} {entry : K × List W}
    (hentry : entry ∈ group key? items) {item : W} (hitem : item ∈ entry.2) :
    key? item = some entry.1 := by
  rw [group_eq] at hentry
  obtain ⟨key, -, rfl⟩ := List.mem_map.mp hentry
  exact of_decide_eq_true (List.mem_filter.mp hitem).2

/-! ### Blocks of items with one key each -/

section Blocks

variable {B : Type} {key? : W → Option K} {key : B → K} {items : B → List W} {blocks : List B}

theorem distinctByFrom_append_of_mem {seen keys others : List K} (h : ∀ key ∈ keys, key ∈ seen) :
    distinctByFrom id seen (keys ++ others) = distinctByFrom id seen others := by
  induction keys with
  | nil => rfl
  | cons first rest ih =>
      have hfirst : first ∈ seen := h first List.mem_cons_self
      simp only [List.cons_append, distinctByFrom, id_eq, hfirst, if_true]
      exact ih fun key hkey => h key (List.mem_cons_of_mem _ hkey)

omit [DecidableEq K] in
theorem mem_filterMap_block {block : B}
    (hkey : ∀ item ∈ items block, key? item = some (key block)) {found : K}
    (hfound : found ∈ (items block).filterMap key?) : found = key block := by
  obtain ⟨item, hitem, hsome⟩ := List.mem_filterMap.mp hfound
  rw [hkey item hitem] at hsome
  exact (Option.some.inj hsome).symm

theorem distinctByFrom_blocks (hkey : ∀ block ∈ blocks, ∀ item ∈ items block,
      key? item = some (key block))
    (hne : ∀ block ∈ blocks, items block ≠ []) (hnodup : (blocks.map key).Nodup)
    (seen : List K) (hfresh : ∀ block ∈ blocks, key block ∉ seen) :
    distinctByFrom id seen ((blocks.flatMap items).filterMap key?) = blocks.map key := by
  induction blocks generalizing seen with
  | nil => rfl
  | cons block rest ih =>
      rw [List.map_cons, List.nodup_cons] at hnodup
      have hblock := hkey block List.mem_cons_self
      have hnew := hfresh block List.mem_cons_self
      obtain ⟨item, others, hitems⟩ := List.exists_cons_of_ne_nil (hne block List.mem_cons_self)
      have hitem : key? item = some (key block) := hblock item (hitems ▸ List.mem_cons_self)
      have hothers : ∀ found ∈ others.filterMap key?, found ∈ key block :: seen := by
        intro found hfound
        have hmem : found ∈ (items block).filterMap key? := by
          rw [hitems, List.filterMap_cons_some hitem]
          exact List.mem_cons_of_mem _ hfound
        exact mem_filterMap_block hblock hmem ▸ List.mem_cons_self
      rw [List.flatMap_cons, hitems, List.cons_append, List.filterMap_cons_some hitem,
        List.filterMap_append]
      simp only [distinctByFrom, id_eq, hnew, if_false]
      rw [distinctByFrom_append_of_mem hothers, List.map_cons]
      congr 1
      apply ih (fun later hlater => hkey later (List.mem_cons_of_mem _ hlater))
        (fun later hlater => hne later (List.mem_cons_of_mem _ hlater)) hnodup.2
      intro later hlater hmem
      rcases List.mem_cons.mp hmem with heq | hseen
      · exact hnodup.1 (heq ▸ List.mem_map_of_mem hlater)
      · exact hfresh later (List.mem_cons_of_mem _ hlater) hseen

theorem filter_blocks (hkey : ∀ block ∈ blocks, ∀ item ∈ items block,
      key? item = some (key block))
    (hnodup : (blocks.map key).Nodup) {block : B} (hblock : block ∈ blocks) :
    ((blocks.flatMap items).filter fun item => key? item = some (key block)) = items block := by
  induction blocks with
  | nil => simp at hblock
  | cons first rest ih =>
      rw [List.map_cons, List.nodup_cons] at hnodup
      have hfirst := hkey first List.mem_cons_self
      have hrest := fun later hlater => hkey later (List.mem_cons_of_mem first hlater)
      rw [List.flatMap_cons, List.filter_append]
      by_cases heq : key block = key first
      · have hsame : block = first := by
          rcases List.mem_cons.mp hblock with rfl | hmem
          · rfl
          · exact absurd (heq ▸ List.mem_map_of_mem hmem) hnodup.1
        have hall : ((items first).filter fun item => key? item = some (key first)) =
            items first :=
          List.filter_eq_self.mpr fun item hitem => decide_eq_true (hfirst item hitem)
        have hnone : ((rest.flatMap items).filter fun item => key? item = some (key first)) =
            [] := by
          apply List.filter_eq_nil_iff.mpr
          intro item hitem hsome
          obtain ⟨later, hlater, hitem⟩ := List.mem_flatMap.mp hitem
          have hkeys := (hrest later hlater item hitem).symm.trans (of_decide_eq_true hsome)
          exact hnodup.1 (Option.some.inj hkeys ▸ List.mem_map_of_mem hlater)
        rw [hsame, hall, hnone, List.append_nil]
      · have hmem : block ∈ rest :=
          (List.mem_cons.mp hblock).resolve_left fun hsame => heq (congrArg key hsame)
        have hnone : ((items first).filter fun item => key? item = some (key block)) = [] := by
          apply List.filter_eq_nil_iff.mpr
          intro item hitem hsome
          have hkeys := (hfirst item hitem).symm.trans (of_decide_eq_true hsome)
          exact heq (Option.some.inj hkeys).symm
        rw [hnone, List.nil_append, ih hrest hnodup.2 hmem]

/-- Items that come in blocks of one key are grouped into these blocks. -/
theorem group_blocks (hkey : ∀ block ∈ blocks, ∀ item ∈ items block,
      key? item = some (key block))
    (hne : ∀ block ∈ blocks, items block ≠ []) (hnodup : (blocks.map key).Nodup) :
    group key? (blocks.flatMap items) = blocks.map fun block => (key block, items block) := by
  have hkeys := distinctByFrom_blocks hkey hne hnodup [] (by simp)
  rw [group_eq, distinctBy, hkeys, List.map_map]
  apply List.map_congr_left
  intro block hblock
  rw [Function.comp_apply, filter_blocks hkey hnodup hblock]

end Blocks

end Group

end JoinPlan.Assoc
