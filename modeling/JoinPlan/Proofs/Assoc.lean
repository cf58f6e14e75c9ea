import JoinPlan.Assoc
import Mathlib.Data.List.Nodup

/-!
# Facts about association lists

What the operations keep and lose.  Putting an entry keeps the keys and appends
an unknown one, so a list whose keys are distinct is its own `distinct`; sorting
keeps the last value of every key and changes nothing that is sorted.
-/

namespace JoinPlan.Assoc

variable {K V : Type}

theorem mem_of_get?_eq_some [DecidableEq K] {key : K} {value : V} {entries : List (K × V)}
    (h : get? key entries = some value) : (key, value) ∈ entries := by
  induction entries with
  | nil => simp at h
  | cons first rest ih =>
      by_cases hkey : first.1 = key
      · rw [get?, if_pos hkey, Option.some.injEq] at h
        rw [← hkey, ← h]
        exact List.mem_cons_self
      · rw [get?, if_neg hkey] at h
        exact List.mem_cons_of_mem _ (ih h)

theorem get?_eq_some_of_mem [DecidableEq K] {entries : List (K × V)}
    (hkeys : (keys entries).Nodup) {entry : K × V} (h : entry ∈ entries) :
    get? entry.1 entries = some entry.2 := by
  induction entries with
  | nil => cases h
  | cons first rest ih =>
      rw [keys, List.map_cons, List.nodup_cons] at hkeys
      rcases List.mem_cons.mp h with rfl | hrest
      · exact if_pos rfl
      · have hne : first.1 ≠ entry.1 := by
          intro heq
          exact hkeys.1 (heq ▸ List.mem_map_of_mem hrest)
        rw [get?, if_neg hne, ih hkeys.2 hrest]

theorem isSome_get?_iff [DecidableEq K] {key : K} {entries : List (K × V)} :
    (get? key entries).isSome = true ↔ key ∈ keys entries := by
  induction entries with
  | nil => simp [keys]
  | cons first rest ih =>
      by_cases hkey : first.1 = key
      · simp [get?, keys, hkey]
      · simpa [get?, keys, hkey, Ne.symm hkey] using ih

theorem get?_append_of_mem [DecidableEq K] {key : K} {entries : List (K × V)}
    (others : List (K × V)) (h : key ∈ keys entries) :
    get? key (entries ++ others) = get? key entries := by
  induction entries with
  | nil => simp [keys] at h
  | cons first rest ih =>
      rw [List.cons_append, get?, get?]
      by_cases hkey : first.1 = key
      · rw [if_pos hkey, if_pos hkey]
      · rw [if_neg hkey, if_neg hkey,
          ih ((List.mem_cons.mp h).resolve_left (Ne.symm hkey))]

theorem get?_append_of_not_mem [DecidableEq K] {key : K} {entries : List (K × V)}
    (others : List (K × V)) (h : key ∉ keys entries) :
    get? key (entries ++ others) = get? key others := by
  induction entries with
  | nil => rfl
  | cons first rest ih =>
      rw [keys, List.map_cons, List.mem_cons, not_or] at h
      rw [List.cons_append, get?, if_neg (Ne.symm h.1), ih h.2]

section Put

variable [DecidableEq K]

theorem mem_of_mem_put {key : K} {value : V} {entries : List (K × V)} {entry : K × V}
    (h : entry ∈ put key value entries) : entry = (key, value) ∨ entry ∈ entries := by
  induction entries with
  | nil => simpa [put] using h
  | cons first rest ih =>
      by_cases hkey : first.1 = key
      · simp only [put, hkey, if_true, List.mem_cons] at h
        rcases h with h | h
        · exact Or.inl h
        · exact Or.inr (List.mem_cons_of_mem _ h)
      · simp only [put, hkey, if_false, List.mem_cons] at h
        rcases h with h | h
        · exact Or.inr (h ▸ List.mem_cons_self)
        · exact (ih h).imp_right (List.mem_cons_of_mem _)

theorem put_of_not_mem {key : K} (value : V) {entries : List (K × V)}
    (h : key ∉ keys entries) : put key value entries = entries ++ [(key, value)] := by
  induction entries with
  | nil => rfl
  | cons first rest ih =>
      simp only [keys, List.map_cons, List.mem_cons, not_or] at h
      simp [put, Ne.symm h.1, ih h.2]

theorem put_put (key : K) (value other : V) (entries : List (K × V)) :
    put key other (put key value entries) = put key other entries := by
  induction entries with
  | nil => simp [put]
  | cons entry rest ih =>
      by_cases hkey : entry.1 = key
      · simp [put, hkey]
      · simp [put, hkey, ih]

/-- Known keys are put in either order. -/
theorem put_comm {key other : K} (hne : key ≠ other) (value another : V)
    {entries : List (K × V)} (hkey : (get? key entries).isSome)
    (hother : (get? other entries).isSome) :
    put key value (put other another entries) = put other another (put key value entries) := by
  induction entries with
  | nil => simp at hkey
  | cons entry rest ih =>
      by_cases hfirst : entry.1 = key
      · have hsecond : entry.1 ≠ other := fun heq => hne (hfirst.symm.trans heq)
        simp [put, hfirst, hne]
      · by_cases hsecond : entry.1 = other
        · simp [put, hsecond, Ne.symm hne]
        · simp only [get?, hfirst, hsecond, if_false] at hkey hother
          simp [put, hfirst, hsecond, ih hkey hother]

private theorem mem_of_mem_foldl_put {entries sofar : List (K × V)} {entry : K × V}
    (h : entry ∈ entries.foldl (fun sofar entry => put entry.1 entry.2 sofar) sofar) :
    entry ∈ sofar ∨ entry ∈ entries := by
  induction entries generalizing sofar with
  | nil => exact Or.inl h
  | cons first rest ih =>
      rcases ih h with hput | hrest
      · rcases mem_of_mem_put hput with rfl | hsofar
        · exact Or.inr List.mem_cons_self
        · exact Or.inl hsofar
      · exact Or.inr (List.mem_cons_of_mem _ hrest)

theorem mem_of_mem_distinct {entries : List (K × V)} {entry : K × V}
    (h : entry ∈ distinct entries) : entry ∈ entries := by
  simpa using mem_of_mem_foldl_put h

private theorem foldl_put_of_nodup {entries sofar : List (K × V)}
    (h : (keys (sofar ++ entries)).Nodup) :
    entries.foldl (fun sofar entry => put entry.1 entry.2 sofar) sofar = sofar ++ entries := by
  induction entries generalizing sofar with
  | nil => simp
  | cons first rest ih =>
      have hfresh : first.1 ∉ keys sofar := by
        intro hmem
        rw [keys, List.map_append, List.nodup_append] at h
        exact h.2.2 _ hmem _ (by simp) rfl
      rw [List.foldl_cons, put_of_not_mem _ hfresh, ih (by simpa using h)]
      simp

theorem distinct_of_nodup {entries : List (K × V)} (h : (keys entries).Nodup) :
    distinct entries = entries := by
  have hdistinct := @foldl_put_of_nodup K V _ entries [] h
  exact hdistinct

end Put

/-! ### Values tabled over keys -/

section Table

variable [DecidableEq K]

theorem get?_mapValues {W : Type} (f : V → W) (key : K) (entries : List (K × V)) :
    get? key (mapValues f entries) = (get? key entries).map f := by
  induction entries with
  | nil => rfl
  | cons entry rest ih =>
      change (if entry.1 = key then some (f entry.2) else get? key (mapValues f rest)) = _
      rw [ih, get?]
      split <;> rfl

theorem get?_map_pair (value : K → V) {keys : List K} {key : K} :
    get? key (keys.map fun key => (key, value key)) =
      if key ∈ keys then some (value key) else none := by
  induction keys with
  | nil => rfl
  | cons first rest ih =>
      rw [List.map_cons, get?, ih]
      by_cases hfirst : first = key
      · rw [if_pos hfirst, hfirst, if_pos List.mem_cons_self]
      · rw [if_neg hfirst]
        simp [Ne.symm hfirst]

omit [DecidableEq K] in
theorem keys_map_pair (value : K → V) (names : List K) :
    keys (names.map fun key => (key, value key)) = names := by
  simp [keys, Function.comp_def]

theorem put_map_pair (value : K → V) (changed : V) {keys : List K} {key : K}
    (hkeys : keys.Nodup) (hkey : key ∈ keys) :
    put key changed (keys.map fun key => (key, value key)) =
      keys.map fun other => (other, if other = key then changed else value other) := by
  induction keys with
  | nil => simp at hkey
  | cons first rest ih =>
      rw [List.nodup_cons] at hkeys
      rw [List.map_cons, put, List.map_cons]
      by_cases hfirst : first = key
      · rw [if_pos hfirst, if_pos hfirst, hfirst]
        congr 1
        apply List.map_congr_left
        intro other hother
        have hne : other ≠ key := fun heq => hkeys.1 (hfirst ▸ heq ▸ hother)
        rw [if_neg hne]
      · rw [if_neg hfirst, if_neg hfirst,
          ih hkeys.2 ((List.mem_cons.mp hkey).resolve_left (Ne.symm hfirst))]

theorem alter_map_pair (value : K → V) (change : Option V → V) {keys : List K}
    (hkeys : keys.Nodup) (key : K) :
    alter key change (keys.map fun key => (key, value key)) =
      if key ∈ keys then
        keys.map fun other =>
          (other, if other = key then change (some (value key)) else value other)
      else keys.map (fun key => (key, value key)) ++ [(key, change none)] := by
  rw [alter, get?_map_pair]
  by_cases hkey : key ∈ keys
  · rw [if_pos hkey, if_pos hkey, put_map_pair value _ hkeys hkey]
  · rw [if_neg hkey, if_neg hkey, put_of_not_mem]
    rwa [keys_map_pair]

end Table

section Sorted

/-- The keys strictly increase. -/
def Increasing (entries : List (String × V)) : Prop :=
  entries.Pairwise fun first second => first.1 < second.1

theorem key_lt_of_not_lt {key other : String} (hne : key ≠ other) (hlt : ¬other < key) :
    key < other := by
  apply Classical.byContradiction
  intro hother
  exact hne (String.le_antisymm hlt hother)

theorem mem_of_mem_insert {key : String} {value : V} {entries : List (String × V)}
    {entry : String × V} (h : entry ∈ insert key value entries) :
    entry = (key, value) ∨ entry ∈ entries := by
  induction entries with
  | nil => simpa [insert] using h
  | cons first rest ih => grind [insert]

theorem increasing_insert (key : String) (value : V) {entries : List (String × V)}
    (h : Increasing entries) : Increasing (insert key value entries) := by
  induction entries with
  | nil => exact List.pairwise_singleton _ _
  | cons first rest ih =>
      rw [Increasing, List.pairwise_cons] at h
      rw [insert]
      split
      · rename_i hkey
        subst hkey
        exact List.pairwise_cons.mpr ⟨h.1, h.2⟩
      split
      · rename_i hlt
        apply List.pairwise_cons.mpr
        constructor
        · intro entry hentry
          rcases List.mem_cons.mp hentry with rfl | hrest
          · exact hlt
          · exact String.lt_trans hlt (h.1 entry hrest)
        · exact List.pairwise_cons.mpr h
      · rename_i hne hlt
        apply List.pairwise_cons.mpr
        constructor
        · intro entry hentry
          rcases mem_of_mem_insert hentry with rfl | hrest
          · exact key_lt_of_not_lt hne hlt
          · exact h.1 entry hrest
        · exact ih h.2

/-- A known key is put before or after another one is inserted. -/
theorem put_insert_comm {key other : String} (hne : key ≠ other) (value another : V)
    {entries : List (String × V)} (hkey : (get? key entries).isSome) :
    put key value (insert other another entries) =
      insert other another (put key value entries) := by
  induction entries with
  | nil => simp at hkey
  | cons entry rest ih => grind [put, insert, get?]

/-- Entries under different keys are inserted in either order. -/
theorem insert_comm {key other : String} (hne : key ≠ other) (value another : V)
    (entries : List (String × V)) :
    insert key value (insert other another entries) =
      insert other another (insert key value entries) := by
  induction entries with
  | nil => grind [insert, key_lt_of_not_lt, String.lt_trans, String.lt_irrefl]
  | cons entry rest ih =>
      grind [insert, key_lt_of_not_lt, String.lt_trans, String.lt_irrefl]

theorem erase_insert (key : String) (value : V) (entries : List (String × V)) :
    erase key (insert key value entries) = erase key entries := by
  induction entries with
  | nil => simp [erase, insert]
  | cons entry rest ih => grind [erase, insert]

theorem insert_of_forall_lt {key : String} (value : V) {entries : List (String × V)}
    (h : ∀ entry ∈ entries, entry.1 < key) :
    insert key value entries = entries ++ [(key, value)] := by
  induction entries with
  | nil => rfl
  | cons first rest ih =>
      have hfirst : first.1 < key := h first List.mem_cons_self
      have hne : first.1 ≠ key := fun heq => String.lt_irrefl key (heq ▸ hfirst)
      have hlt : ¬key < first.1 := fun hlt =>
        String.lt_irrefl key (String.lt_trans hlt hfirst)
      rw [insert, if_neg hne, if_neg hlt,
        ih fun entry hentry => h entry (List.mem_cons_of_mem _ hentry), List.cons_append]

private theorem increasing_foldl_insert (entries : List (String × V))
    {sofar : List (String × V)} (h : Increasing sofar) :
    Increasing (entries.foldl (fun sofar entry => insert entry.1 entry.2 sofar) sofar) := by
  induction entries generalizing sofar with
  | nil => exact h
  | cons first rest ih => exact ih (increasing_insert first.1 first.2 h)

theorem increasing_sorted (entries : List (String × V)) : Increasing (sorted entries) :=
  increasing_foldl_insert entries List.Pairwise.nil

private theorem foldl_insert_of_increasing {entries : List (String × V)}
    (sofar : List (String × V)) (h : Increasing (sofar ++ entries)) :
    entries.foldl (fun sofar entry => insert entry.1 entry.2 sofar) sofar =
      sofar ++ entries := by
  induction entries generalizing sofar with
  | nil => simp
  | cons first rest ih =>
      have hbefore : ∀ entry ∈ sofar, entry.1 < first.1 := fun entry hentry =>
        (List.pairwise_append.mp h).2.2 entry hentry first List.mem_cons_self
      rw [List.foldl_cons, insert_of_forall_lt _ hbefore, ih _ (by simpa using h)]
      simp

/-- Sorted entries stay as they are. -/
theorem sorted_of_increasing {entries : List (String × V)} (h : Increasing entries) :
    sorted entries = entries :=
  foldl_insert_of_increasing [] h

theorem sorted_sorted (entries : List (String × V)) : sorted (sorted entries) = sorted entries :=
  sorted_of_increasing (increasing_sorted entries)

private theorem mem_of_mem_foldl_insert {entries sofar : List (String × V)} {entry : String × V}
    (h : entry ∈ entries.foldl (fun sofar entry => insert entry.1 entry.2 sofar) sofar) :
    entry ∈ sofar ∨ entry ∈ entries := by
  induction entries generalizing sofar with
  | nil => exact Or.inl h
  | cons first rest ih =>
      rcases ih h with hinsert | hrest
      · rcases mem_of_mem_insert hinsert with rfl | hsofar
        · exact Or.inr List.mem_cons_self
        · exact Or.inl hsofar
      · exact Or.inr (List.mem_cons_of_mem _ hrest)

theorem mem_of_mem_sorted {entries : List (String × V)} {entry : String × V}
    (h : entry ∈ sorted entries) : entry ∈ entries := by
  simpa using mem_of_mem_foldl_insert h

private theorem get?_foldl_insert_map (value : String → V) {keys : List String} {key : String}
    {sofar : List (String × V)}
    (h : get? key sofar = some (value key) ∨ key ∈ keys) :
    get? key ((keys.map fun key => (key, value key)).foldl
      (fun sofar entry => insert entry.1 entry.2 sofar) sofar) = some (value key) := by
  induction keys generalizing sofar with
  | nil => simpa using h
  | cons first rest ih =>
      apply ih
      rw [get?_insert]
      by_cases hfirst : first = key
      · exact Or.inl (by rw [if_pos hfirst, hfirst])
      · rw [if_neg hfirst]
        exact h.imp_right fun hmem =>
          (List.mem_cons.mp hmem).resolve_left (Ne.symm hfirst)

/-- A function tabled over some keys gives each of them its value. -/
theorem get?_sorted_map (value : String → V) {keys : List String} {key : String}
    (hkey : key ∈ keys) :
    get? key (sorted (keys.map fun key => (key, value key))) = some (value key) :=
  get?_foldl_insert_map value (Or.inr hkey)

theorem increasing_erase (key : String) {entries : List (String × V)} (h : Increasing entries) :
    Increasing (erase key entries) :=
  h.filter _

theorem Increasing.get?_eq_some {entries : List (String × V)} (h : Increasing entries)
    {key : String} {value : V} : get? key entries = some value ↔ (key, value) ∈ entries := by
  constructor
  · exact mem_of_get?_eq_some
  · intro hmem
    induction entries with
    | nil => simp at hmem
    | cons entry rest ih =>
        rw [Increasing, List.pairwise_cons] at h
        rcases List.mem_cons.mp hmem with rfl | hrest
        · simp [get?]
        · have hlt : entry.1 < key := h.1 _ hrest
          have hne : entry.1 ≠ key := fun heq => String.lt_irrefl key (heq ▸ hlt)
          rw [get?, if_neg hne]
          exact ih h.2 hrest

/-- Sorted entries are known by what is found under the keys. -/
theorem Increasing.ext {entries others : List (String × V)} (h : Increasing entries)
    (hothers : Increasing others) (hsame : ∀ key, get? key entries = get? key others) :
    entries = others := by
  have hnodup {entries : List (String × V)} (h : Increasing entries) : entries.Nodup := by
    apply List.Pairwise.imp _ h
    rintro first second hlt rfl
    exact String.lt_irrefl _ hlt
  have hperm : entries.Perm others := by
    apply (List.perm_ext_iff_of_nodup (hnodup h) (hnodup hothers)).mpr
    intro entry
    rw [← h.get?_eq_some, ← hothers.get?_eq_some, hsame]
  apply List.Perm.eq_of_pairwise _ h hothers hperm
  intro first second _ _ hlt hgt
  exact absurd (String.lt_trans hlt hgt) (String.lt_irrefl _)

theorem insert_sorted (key : String) (value : V) (entries : List (String × V)) :
    insert key value (sorted entries) = sorted (entries ++ [(key, value)]) := by
  rw [sorted, sorted, List.foldl_append, List.foldl_cons, List.foldl_nil]

end Sorted

end JoinPlan.Assoc
