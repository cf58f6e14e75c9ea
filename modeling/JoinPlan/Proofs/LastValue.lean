import JoinPlan.Proofs.Grouping

/-!
# The last value of a key

Of entries with one key the last stands, in sorted entries as in distinct ones: what is found
under the key is the value of the last entry that has it.  Taking out items that occur again
leaves it in place when the items come in two layers and each layer has one value for a key.
-/

namespace JoinPlan.Assoc

variable {K V W R : Type}

section Last

variable [DecidableEq K] {key : K} {value : V} {entries others : List (K × V)}

/-- The value of the last entry with this key. -/
def last? (key : K) (entries : List (K × V)) : Option V := get? key entries.reverse

@[simp]
theorem last?_nil (key : K) : last? key ([] : List (K × V)) = none := rfl

theorem get?_append (key : K) (entries others : List (K × V)) :
    get? key (entries ++ others) = (get? key entries).or (get? key others) := by
  induction entries with
  | nil => rfl
  | cons entry rest ih =>
      rw [List.cons_append, get?, get?, ih]
      split <;> rfl

theorem last?_append (key : K) (entries others : List (K × V)) :
    last? key (entries ++ others) = (last? key others).or (last? key entries) := by
  rw [last?, List.reverse_append, get?_append]
  rfl

theorem last?_concat (key : K) (entries : List (K × V)) (entry : K × V) :
    last? key (entries ++ [entry]) = if entry.1 = key then some entry.2 else last? key entries := by
  rw [last?_append]
  change (if _ then _ else _ : Option V).or _ = _
  split <;> rfl

theorem last?_cons (key : K) (entry : K × V) (rest : List (K × V)) :
    last? key (entry :: rest) =
      (last? key rest).or (if entry.1 = key then some entry.2 else none) :=
  last?_append key [entry] rest

theorem last?_of_forall_ne (h : ∀ entry ∈ entries, entry.1 ≠ key) : last? key entries = none := by
  cases hfound : last? key entries with
  | none => rfl
  | some value =>
      have hmem : (key, value) ∈ entries := List.mem_reverse.mp (mem_of_get?_eq_some hfound)
      exact absurd rfl (h _ hmem)

theorem exists_last?_eq (hmem : (key, value) ∈ entries) :
    ∃ other, last? key entries = some other := by
  induction entries with
  | nil => cases hmem
  | cons entry rest ih =>
      rw [last?_cons]
      rcases List.mem_cons.mp hmem with rfl | hrest
      · cases last? key rest with
        | none => exact ⟨value, if_pos rfl⟩
        | some other => exact ⟨other, rfl⟩
      · obtain ⟨other, hother⟩ := ih hrest
        exact ⟨other, by rw [hother, Option.some_or]⟩

/-- A key with one value has it last. -/
theorem last?_of_forall_eq (hmem : (key, value) ∈ entries)
    (hall : ∀ entry ∈ entries, entry.1 = key → entry.2 = value) :
    last? key entries = some value := by
  obtain ⟨other, hother⟩ := exists_last?_eq hmem
  have hfound : (key, other) ∈ entries := List.mem_reverse.mp (mem_of_get?_eq_some hother)
  rw [hother]
  exact congrArg some (hall _ hfound rfl)

theorem last?_map (change : V → W) (key : K) (entries : List (K × V)) :
    last? key (entries.map fun entry => (entry.1, change entry.2)) =
      (last? key entries).map change := by
  induction entries with
  | nil => rfl
  | cons entry rest ih =>
      rw [List.map_cons, last?_cons, last?_cons, ih, Option.map_or]
      split <;> rfl

/-- Keys can be changed as long as the same items have the key asked for. -/
theorem last?_map_key {L : Type} [DecidableEq L] (first : W → K) (second : W → L) (value : W → V)
    {items : List W} {key : K} {other : L}
    (h : ∀ item ∈ items, first item = key ↔ second item = other) :
    last? key (items.map fun item => (first item, value item)) =
      last? other (items.map fun item => (second item, value item)) := by
  induction items with
  | nil => rfl
  | cons item rest ih =>
      rw [List.forall_mem_cons] at h
      rw [List.map_cons, List.map_cons, last?_cons, last?_cons, ih h.2]
      simp only [h.1]

theorem last?_filter (key : K) (entries : List (K × V)) :
    last? key (entries.filter fun entry => entry.1 = key) = last? key entries := by
  induction entries with
  | nil => rfl
  | cons entry rest ih =>
      rw [List.filter_cons, last?_cons]
      split <;> simp_all [last?_cons]

end Last

/-! ### Distinct and sorted entries -/

section Distinct

variable [DecidableEq K] {key : K} {entries : List (K × V)}

theorem nodup_keys_put (key : K) (value : V) (h : (keys entries).Nodup) :
    (keys (put key value entries)).Nodup := by
  by_cases hmem : key ∈ keys entries
  · have hkeys : keys (put key value entries) = keys entries := by
      induction entries with
      | nil => simp [keys] at hmem
      | cons entry rest ih =>
          rw [put]
          split
          · rename_i heq
            simp [keys, heq]
          · rename_i hne
            have hrest : key ∈ keys rest := (List.mem_cons.mp hmem).resolve_left (Ne.symm hne)
            have hkept := ih (List.nodup_cons.mp h).2 hrest
            simp only [keys, List.map_cons] at hkept ⊢
            rw [hkept]
    rw [hkeys]
    exact h
  · rw [put_of_not_mem value hmem, keys, List.map_append, List.nodup_append]
    refine ⟨h, List.nodup_singleton _, ?_⟩
    rintro first hfirst second hsecond rfl
    obtain rfl := List.mem_singleton.mp hsecond
    exact hmem hfirst

theorem distinct_concat (entries : List (K × V)) (entry : K × V) :
    distinct (entries ++ [entry]) = put entry.1 entry.2 (distinct entries) := by
  rw [distinct, List.foldl_append]
  rfl

theorem nodup_keys_distinct (entries : List (K × V)) : (keys (distinct entries)).Nodup := by
  induction entries using List.reverseRecOn with
  | nil => exact List.nodup_nil
  | append_singleton entries entry ih =>
      rw [distinct_concat]
      exact nodup_keys_put entry.1 entry.2 ih

theorem get?_distinct (key : K) (entries : List (K × V)) :
    get? key (distinct entries) = last? key entries := by
  induction entries using List.reverseRecOn with
  | nil => rfl
  | append_singleton entries entry ih => rw [distinct_concat, get?_put, ih, last?_concat]

theorem last?_of_nodup (h : (keys entries).Nodup) (key : K) :
    last? key entries = get? key entries := by
  induction entries with
  | nil => rfl
  | cons entry rest ih =>
      rw [keys, List.map_cons, List.nodup_cons] at h
      rw [last?_cons, get?, ih h.2]
      split
      · rename_i heq
        have hnone : get? key rest = none := by
          rw [← ih h.2]
          apply last?_of_forall_ne
          rintro other hother hsame
          exact h.1 (heq ▸ hsame ▸ List.mem_map_of_mem hother)
        rw [hnone, Option.none_or]
      · rw [Option.or_none]

theorem last?_distinct (key : K) (entries : List (K × V)) :
    last? key (distinct entries) = last? key entries := by
  rw [last?_of_nodup (nodup_keys_distinct entries), get?_distinct]

/-- An entry whose key has no other value stays first. -/
theorem exists_distinct_cons (entry : K × V) {rest : List (K × V)}
    (h : ∀ other ∈ rest, other.1 = entry.1 → other.2 = entry.2) :
    ∃ others, distinct (entry :: rest) = entry :: others := by
  induction rest using List.reverseRecOn with
  | nil => exact ⟨[], rfl⟩
  | append_singleton rest last ih =>
      rw [List.forall_mem_append] at h
      obtain ⟨others, hdistinct⟩ := ih h.1
      rw [← List.cons_append, distinct_concat, hdistinct, put]
      split
      · rename_i heq
        have hvalue : last.2 = entry.2 := h.2 last List.mem_cons_self heq.symm
        exact ⟨others, by rw [hvalue, ← heq]⟩
      · exact ⟨_, rfl⟩

end Distinct

section Sorted

variable {entries others : List (String × V)}

theorem get?_sorted (key : String) (entries : List (String × V)) :
    get? key (sorted entries) = last? key entries := by
  induction entries using List.reverseRecOn with
  | nil => rfl
  | append_singleton entries entry ih => rw [← insert_sorted, get?_insert, ih, last?_concat]

theorem sorted_congr (h : ∀ key, last? key entries = last? key others) :
    sorted entries = sorted others := by
  apply (increasing_sorted entries).ext (increasing_sorted others)
  intro key
  rw [get?_sorted, get?_sorted, h]

theorem sorted_distinct_map (change : V → W) (entries : List (String × V)) :
    sorted ((distinct entries).map fun entry => (entry.1, change entry.2)) =
      sorted (entries.map fun entry => (entry.1, change entry.2)) :=
  sorted_congr fun key => by rw [last?_map, last?_map, last?_distinct]

end Sorted

/-! ### Items without repeats -/

section DistinctBy

variable [DecidableEq R] {render : W → R}

theorem filter_distinctByFrom {keep : W → Bool}
    (hkeep : ∀ first second, render first = render second → keep first = keep second)
    (items : List W) {seen others : List R}
    (hseen : ∀ item, keep item = true → (render item ∈ seen ↔ render item ∈ others)) :
    (distinctByFrom render seen items).filter keep =
      distinctByFrom render others (items.filter keep) := by
  induction items generalizing seen others with
  | nil => rfl
  | cons item rest ih =>
      cases hitem : keep item with
      | true =>
          have hmem := hseen item hitem
          rw [List.filter_cons_of_pos hitem, distinctByFrom, distinctByFrom]
          by_cases hold : render item ∈ seen
          · rw [if_pos hold, if_pos (hmem.mp hold), ih hseen]
          · have hnext : ∀ other, keep other = true →
                (render other ∈ render item :: seen ↔ render other ∈ render item :: others) := by
              intro other hother
              rw [List.mem_cons, List.mem_cons, hseen other hother]
            rw [if_neg hold, if_neg fun h => hold (hmem.mpr h), List.filter_cons_of_pos hitem,
              ih hnext]
      | false =>
          have hskip : ∀ other, keep other = true → render other ≠ render item := by
            intro other hother heq
            rw [hkeep other item heq, hitem] at hother
            cases hother
          rw [List.filter_cons_of_neg (by simp [hitem]), distinctByFrom]
          split
          · exact ih hseen
          · rw [List.filter_cons_of_neg (by simp [hitem])]
            apply ih
            intro other hother
            rw [List.mem_cons, ← hseen other hother, or_iff_right (hskip other hother)]

theorem filter_distinctBy {keep : W → Bool}
    (hkeep : ∀ first second, render first = render second → keep first = keep second)
    (items : List W) :
    (distinctBy render items).filter keep = distinctBy render (items.filter keep) :=
  filter_distinctByFrom hkeep items fun _ _ => Iff.rfl

end DistinctBy

section Layers

variable [DecidableEq K] [DecidableEq R] {render : K × V → R} {own chosen : List (K × V)}

/-- Every key has one value. -/
def Functional (entries : List (K × V)) : Prop :=
  ∀ first ∈ entries, ∀ second ∈ entries, first.1 = second.1 → first.2 = second.2

theorem Functional.last?_eq {entries : List (K × V)} (h : Functional entries) {entry : K × V}
    (hmem : entry ∈ entries) : last? entry.1 entries = some entry.2 :=
  last?_of_forall_eq hmem fun other hother heq => h other hother entry hmem heq

omit [DecidableEq K] in
theorem Functional.mono {entries others : List (K × V)} (h : Functional entries)
    (hsub : ∀ entry ∈ others, entry ∈ entries) : Functional others :=
  fun first hfirst second hsecond => h first (hsub first hfirst) second (hsub second hsecond)

/-- When every key has one value, the order of the entries and their repeats do not matter. -/
theorem Functional.last?_congr {entries others : List (K × V)} (h : Functional entries)
    (hmem : ∀ entry, entry ∈ others ↔ entry ∈ entries) (key : K) :
    last? key others = last? key entries := by
  have hothers : Functional others := h.mono fun entry => (hmem entry).mp
  by_cases hkey : ∃ entry ∈ entries, entry.1 = key
  · obtain ⟨entry, hentry, rfl⟩ := hkey
    rw [h.last?_eq hentry, hothers.last?_eq ((hmem entry).mpr hentry)]
  · push Not at hkey
    rw [last?_of_forall_ne hkey, last?_of_forall_ne fun entry hentry =>
      hkey entry ((hmem entry).mp hentry)]

/-- What a second layer repeats of the first is taken out, but then the first layer has its
key's value already. -/
theorem last?_distinctBy_layers
    (hrender : ∀ first ∈ own ++ chosen, ∀ second ∈ own ++ chosen,
      render first = render second → first = second)
    (hown : Functional own) (hchosen : Functional chosen) (key : K) :
    last? key (distinctBy render (own ++ chosen)) = last? key (own ++ chosen) := by
  induction chosen using List.reverseRecOn with
  | nil =>
      rw [List.append_nil] at hrender ⊢
      apply hown.last?_congr
      refine fun entry => ⟨mem_of_mem_distinctBy, fun hentry => ?_⟩
      obtain ⟨kept, hkept, hsame⟩ := exists_mem_distinctBy render hentry
      exact hrender kept (mem_of_mem_distinctBy hkept) entry hentry hsame ▸ hkept
  | append_singleton chosen last ih =>
      rw [← List.append_assoc] at hrender ⊢
      have hearlier := ih (fun first hfirst second hsecond =>
        hrender first (List.mem_append_left _ hfirst) second (List.mem_append_left _ hsecond))
        (hchosen.mono fun entry => List.mem_append_left _)
      rw [last?_concat, distinctBy, distinctByFrom_append_singleton]
      split
      · rename_i hrepeat
        have hmem : last ∈ own ++ chosen := by
          obtain ⟨other, hother, hsame⟩ := List.mem_map.mp (hrepeat.resolve_left List.not_mem_nil)
          exact hrender other (List.mem_append_left _ hother) last (by simp) hsame ▸ hother
        rw [← distinctBy, hearlier]
        split
        · rename_i hkey
          subst hkey
          rw [last?_append]
          by_cases hagain : ∃ entry ∈ chosen, entry.1 = last.1
          · obtain ⟨entry, hentry, hsame⟩ := hagain
            have hvalue : entry.2 = last.2 :=
              hchosen entry (by simp [hentry]) last (by simp) hsame
            have hlast : last ∈ chosen := (Prod.ext hsame hvalue : entry = last) ▸ hentry
            rw [(hchosen.mono fun entry => List.mem_append_left _).last?_eq hlast]
            rfl
          · push Not at hagain
            have hlast : last ∈ own :=
              (List.mem_append.mp hmem).resolve_right fun h => hagain last h rfl
            rw [last?_of_forall_ne hagain, hown.last?_eq hlast]
            rfl
        · rfl
      · rw [last?_concat, ← distinctBy, hearlier]

end Layers

end JoinPlan.Assoc
