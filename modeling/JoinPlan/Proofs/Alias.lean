import JoinPlan.Alias
import Mathlib.Data.List.GetD
import Mathlib.Data.List.Nodup
import Mathlib.Data.List.Perm.Subperm
import Mathlib.Order.Nat

/-!
# Aliases are handed out once

A minified alias is the number of a word, written down; the number can be read
back, so no word has two.  A plain alias of a table is the first of its name, the
name with one dollar sign, with two, and so on that is unused, and one of them is.
Either way a table gets an alias that was not handed out before.
-/

namespace JoinPlan.Namespace

/-! ### Words -/

/-- A word over the alphabet as a number, read on from the digits before it. -/
def wordNumber (before : Nat) (word : List Char) : Nat :=
  word.foldl (fun number c => number * alphabet.length + (alphabet.idxOf c + 1)) before

theorem alphabet_length_pos : 0 < alphabet.length := by decide

theorem alphabet_nodup : alphabet.Nodup := by decide

theorem underscore_notMem_alphabet : '_' ∉ alphabet := by decide

theorem getD_mem_alphabet (n : Nat) : alphabet.getD (n % alphabet.length) 'a' ∈ alphabet := by
  have hlt : n % alphabet.length < alphabet.length := Nat.mod_lt n alphabet_length_pos
  rw [List.getD_eq_getElem _ _ hlt]
  exact List.getElem_mem hlt

theorem idxOf_getD_alphabet (n : Nat) :
    alphabet.idxOf (alphabet.getD (n % alphabet.length) 'a') = n % alphabet.length := by
  have hlt : n % alphabet.length < alphabet.length := Nat.mod_lt n alphabet_length_pos
  rw [List.getD_eq_getElem _ _ hlt]
  exact alphabet_nodup.idxOf_getElem _ hlt

theorem wordNumber_spellBefore {fuel n : Nat} (hfuel : n ≤ fuel) (after : List Char) :
    wordNumber 0 (spellBefore after fuel n) = wordNumber n after := by
  induction fuel generalizing n after with
  | zero =>
      obtain rfl : n = 0 := Nat.le_zero.mp hfuel
      rfl
  | succ fuel ih =>
      cases n with
      | zero => rfl
      | succ n =>
          have hrest : n / alphabet.length ≤ fuel :=
            (Nat.div_le_self n _).trans (Nat.le_of_succ_le_succ hfuel)
          have hdigit :
              n / alphabet.length * alphabet.length + (n % alphabet.length + 1) = n + 1 := by
            rw [← Nat.add_assoc, Nat.div_add_mod']
          rw [spellBefore, ih hrest, wordNumber, List.foldl_cons, idxOf_getD_alphabet, hdigit,
            wordNumber]

theorem spell_injective : Function.Injective spell := by
  intro first second heq
  have hword := congrArg (fun text : String => wordNumber 0 text.toList) heq
  simp only [spell, String.toList_ofList] at hword
  rw [wordNumber_spellBefore le_rfl, wordNumber_spellBefore le_rfl] at hword
  exact hword

theorem mem_alphabet_of_mem_spellBefore {after : List Char} (hafter : ∀ c ∈ after, c ∈ alphabet)
    (fuel n : Nat) : ∀ c ∈ spellBefore after fuel n, c ∈ alphabet := by
  induction fuel generalizing n after with
  | zero => simpa [spellBefore] using hafter
  | succ fuel ih =>
      cases n with
      | zero => simpa [spellBefore] using hafter
      | succ n =>
          apply ih
          intro c hc
          rcases List.mem_cons.mp hc with rfl | hc
          · exact getD_mem_alphabet n
          · exact hafter c hc

theorem underscore_notMem_spell (n : Nat) : '_' ∉ (spell n).toList := by
  intro h
  rw [spell, String.toList_ofList] at h
  exact underscore_notMem_alphabet (mem_alphabet_of_mem_spellBefore (by simp) n n _ h)

/-! ### Unused names -/

/-- A name followed by some dollar signs. -/
def dollared (name : String) : Nat → String
  | 0 => name
  | count + 1 => dollared (name ++ "$") count

theorem toList_dollared (name : String) (count : Nat) :
    (dollared name count).toList = name.toList ++ List.replicate count '$' := by
  induction count generalizing name with
  | zero => simp [dollared]
  | succ count ih =>
      have hdollar : "$".toList = ['$'] := by decide
      rw [dollared, ih, String.toList_append, hdollar, List.append_assoc, List.replicate_succ]
      rfl

theorem dollared_injective (name : String) : Function.Injective (dollared name) := by
  intro first second heq
  have hlength := congrArg (fun text : String => text.toList.length) heq
  simpa [toList_dollared] using hlength

/-- The search ends at the first unused name, or where its fuel does. -/
theorem exists_unused_eq (used : List String) (fuel : Nat) (name : String) :
    ∃ count ≤ fuel, unused used fuel name = dollared name count ∧
      (∀ fewer < count, dollared name fewer ∈ used) ∧
      (count < fuel → dollared name count ∉ used) := by
  induction fuel generalizing name with
  | zero => exact ⟨0, le_rfl, rfl, by simp, by simp⟩
  | succ fuel ih =>
      by_cases hname : name ∈ used
      · obtain ⟨count, hcount, heq, hfewer, hfresh⟩ := ih (name ++ "$")
        refine ⟨count + 1, Nat.succ_le_succ hcount, ?_, ?_, ?_⟩
        · rw [unused, if_pos hname, heq, dollared]
        · intro fewer hlt
          cases fewer with
          | zero => exact hname
          | succ fewer => exact hfewer fewer (Nat.lt_of_succ_lt_succ hlt)
        · exact fun hlt => hfresh (Nat.lt_of_succ_lt_succ hlt)
      · refine ⟨0, Nat.zero_le _, ?_, by simp, fun _ => hname⟩
        rw [unused, if_neg hname, dollared]

/-- There are more names than used ones, so the fuel suffices: the name found is
unused, and the names with fewer dollar signs are not. -/
theorem unused_eq_dollared (used : List String) (name : String) :
    ∃ count, unused used used.length name = dollared name count ∧
      dollared name count ∉ used ∧ ∀ fewer < count, dollared name fewer ∈ used := by
  obtain ⟨count, hcount, heq, hfewer, hfresh⟩ := exists_unused_eq used used.length name
  refine ⟨count, heq, ?_, hfewer⟩
  intro hmem
  have hfull : count = used.length := by
    by_contra hne
    exact hfresh (lt_of_le_of_ne hcount hne) hmem
  have hnodup : ((List.range (used.length + 1)).map (dollared name)).Nodup :=
    List.Nodup.map (dollared_injective name) List.nodup_range
  have hsubset : (List.range (used.length + 1)).map (dollared name) ⊆ used := by
    intro text htext
    obtain ⟨fewer, hrange, rfl⟩ := List.mem_map.mp htext
    rcases Nat.lt_succ_iff_lt_or_eq.mp (List.mem_range.mp hrange) with hlt | rfl
    · exact hfewer fewer (hfull ▸ hlt)
    · exact hfull ▸ hmem
  have hlength := (List.subperm_of_subset hnodup hsubset).length_le
  rw [List.length_map, List.length_range] at hlength
  exact Nat.not_succ_le_self _ hlength

theorem unused_notMem (used : List String) (name : String) :
    unused used used.length name ∉ used := by
  obtain ⟨count, heq, hfresh, -⟩ := unused_eq_dollared used name
  exact heq ▸ hfresh

/-! ### Aliases of tables -/

/-- What a table may have been given as its alias so far. -/
def Issued (names : Namespace) (aliasName : String) : Prop :=
  if names.minify then ∃ n ≤ names.issued, spell n = aliasName else aliasName ∈ names.usedTables

theorem not_issued_table (names : Namespace) (name : String) :
    ¬ names.Issued (names.table name).1 := by
  by_cases hminify : names.minify
  · simp only [Issued, hminify, if_true, table]
    rintro ⟨n, hle, heq⟩
    have hn : n = names.issued + 1 := spell_injective heq
    omega
  · simp only [Issued, hminify, Bool.false_eq_true, if_false, table]
    exact unused_notMem names.usedTables (sanitize name)

theorem issued_table (names : Namespace) (name : String) :
    (names.table name).2.Issued (names.table name).1 := by
  by_cases hminify : names.minify
  · simp only [Issued, table, hminify, if_true]
    exact ⟨names.issued + 1, le_rfl, rfl⟩
  · simp [Issued, table, hminify]

theorem Issued.table {names : Namespace} {aliasName : String} (h : names.Issued aliasName)
    (name : String) : (names.table name).2.Issued aliasName := by
  by_cases hminify : names.minify
  · simp only [Issued, hminify, if_true] at h
    obtain ⟨n, hle, heq⟩ := h
    simp only [Issued, Namespace.table, hminify, if_true]
    exact ⟨n, Nat.le_succ_of_le hle, heq⟩
  · simp only [Issued, hminify, Bool.false_eq_true, if_false] at h
    simp [Issued, Namespace.table, hminify, h]

@[simp]
theorem minify_table (names : Namespace) (name : String) :
    (names.table name).2.minify = names.minify := by
  unfold Namespace.table
  split <;> simp_all

@[simp]
theorem columns_table (names : Namespace) (name : String) :
    (names.table name).2.columns = names.columns := by
  unfold Namespace.table
  split <;> rfl

/-! ### Aliases of columns -/

theorem Issued.column {names : Namespace} {aliasName : String} (h : names.Issued aliasName)
    (name : String) : (names.column name).2.Issued aliasName := by
  unfold Namespace.column
  split
  · rename_i hminify
    split
    · exact h
    · simp only [Issued, hminify, if_true] at h ⊢
      obtain ⟨n, hle, heq⟩ := h
      exact ⟨n, Nat.le_succ_of_le hle, heq⟩
  · exact h

end JoinPlan.Namespace
