import JoinPlan.Proofs.Alias
import JoinPlan.Proofs.Assoc

/-!
# Columns keep their aliases

A column that has an alias keeps it, whatever is named after it.  Different columns have
different aliases: plain ones are the names of the columns, and minified ones are words, each
handed out once.
-/

namespace JoinPlan.Namespace

/-- A column has its alias when asking for it again changes nothing. -/
def Knows (names : Namespace) (name : String) : Prop := (names.column name).2 = names

/-- The minified aliases of columns are words handed out, none of them for two columns. -/
structure Tidy (names : Namespace) : Prop where
  issued : ∀ entry ∈ names.columns, ∃ n ≤ names.issued, spell n = entry.2
  apart : ∀ first ∈ names.columns, ∀ second ∈ names.columns,
    first.2 = second.2 → first.1 = second.1

/-- What a namespace becomes when more aliases are handed out. -/
structure Grows (names after : Namespace) : Prop where
  minify : after.minify = names.minify
  known : ∀ name, names.Knows name →
    after.Knows name ∧ (after.column name).1 = (names.column name).1
  tidy : names.Tidy → after.Tidy
  issued : ∀ aliasName, names.Issued aliasName → after.Issued aliasName

theorem Grows.refl (names : Namespace) : names.Grows names :=
  ⟨rfl, fun _ h => ⟨h, rfl⟩, id, fun _ => id⟩

theorem Grows.trans {names between after : Namespace} (hfirst : names.Grows between)
    (hsecond : between.Grows after) : names.Grows after where
  minify := hsecond.minify.trans hfirst.minify
  known name hname := by
    obtain ⟨hbetween, hsame⟩ := hfirst.known name hname
    obtain ⟨hafter, hagain⟩ := hsecond.known name hbetween
    exact ⟨hafter, hagain.trans hsame⟩
  tidy h := hsecond.tidy (hfirst.tidy h)
  issued aliasName h := hsecond.issued aliasName (hfirst.issued aliasName h)

section Column

variable {names : Namespace} {name : String}

theorem column_of_plain (hminify : names.minify = false) (name : String) :
    names.column name = (name, names) := by
  simp [column, hminify]

theorem column_of_known {aliasName : String} (hminify : names.minify = true)
    (h : Assoc.get? name names.columns = some aliasName) :
    names.column name = (aliasName, names) := by
  simp [column, hminify, h]

/-- A namespace with the next word noted for a column. -/
def note (names : Namespace) (name : String) : Namespace :=
  { names with
    issued := names.issued + 1
    columns := (name, spell (names.issued + 1)) :: names.columns }

theorem column_of_new (hminify : names.minify = true)
    (h : Assoc.get? name names.columns = none) :
    names.column name = (spell (names.issued + 1), names.note name) := by
  simp [column, hminify, h, note]

/-- In a minified namespace the columns with an alias are those noted. -/
theorem exists_of_knows (hminify : names.minify = true) (h : names.Knows name) :
    ∃ aliasName, Assoc.get? name names.columns = some aliasName := by
  cases hnoted : Assoc.get? name names.columns with
  | some aliasName => exact ⟨aliasName, rfl⟩
  | none =>
      rw [Knows, column_of_new hminify hnoted] at h
      have hissued := congrArg Namespace.issued h
      simp [note] at hissued

/-- Asking again gives the same alias. -/
theorem column_column (names : Namespace) (name : String) :
    (names.column name).2.column name = names.column name := by
  cases hminify : names.minify with
  | false => rw [column_of_plain hminify, column_of_plain hminify]
  | true =>
      cases hnoted : Assoc.get? name names.columns with
      | some aliasName => rw [column_of_known hminify hnoted, column_of_known hminify hnoted]
      | none =>
          have hafter : (names.note name).minify = true := hminify
          have hkept : Assoc.get? name (names.note name).columns =
              some (spell (names.issued + 1)) := by
            simp [note, Assoc.get?]
          rw [column_of_new hminify hnoted]
          exact column_of_known hafter hkept

theorem knows_column (names : Namespace) (name : String) : (names.column name).2.Knows name :=
  congrArg Prod.snd (names.column_column name)

theorem grows_note (hminify : names.minify = true)
    (hnew : Assoc.get? name names.columns = none) : names.Grows (names.note name) where
  minify := rfl
  known other hother := by
    obtain ⟨aliasName, halias⟩ := exists_of_knows hminify hother
    have hne : name ≠ other := by
      rintro rfl
      rw [hnew] at halias
      cases halias
    have hafter : (names.note name).minify = true := hminify
    have hkept : Assoc.get? other (names.note name).columns = some aliasName := by
      rw [note, Assoc.get?, if_neg hne, halias]
    rw [Knows, column_of_known hafter hkept, column_of_known hminify halias]
    exact ⟨rfl, rfl⟩
  tidy h := by
    constructor
    · intro entry hentry
      rcases List.mem_cons.mp hentry with rfl | hold
      · exact ⟨_, le_rfl, rfl⟩
      · obtain ⟨n, hle, heq⟩ := h.issued entry hold
        exact ⟨n, Nat.le_succ_of_le hle, heq⟩
    · have hword : ∀ entry ∈ names.columns, entry.2 ≠ spell (names.issued + 1) := by
        intro entry hentry heq
        obtain ⟨n, hle, hn⟩ := h.issued entry hentry
        have hsame : n = names.issued + 1 := spell_injective (hn.trans heq)
        omega
      intro first hfirst second hsecond heq
      rcases List.mem_cons.mp hfirst with rfl | hfirst
      · rcases List.mem_cons.mp hsecond with rfl | hsecond
        · rfl
        · exact absurd heq.symm (hword second hsecond)
      · rcases List.mem_cons.mp hsecond with rfl | hsecond
        · exact absurd heq (hword first hfirst)
        · exact h.apart first hfirst second hsecond heq
  issued aliasName h := by
    have hkept := h.column name
    rwa [column_of_new hminify hnew] at hkept

theorem grows_column (names : Namespace) (name : String) :
    names.Grows (names.column name).2 := by
  cases hminify : names.minify with
  | false =>
      rw [column_of_plain hminify]
      exact .refl names
  | true =>
      cases hnoted : Assoc.get? name names.columns with
      | some aliasName =>
          rw [column_of_known hminify hnoted]
          exact .refl names
      | none =>
          rw [column_of_new hminify hnoted]
          exact grows_note hminify hnoted

end Column

theorem fresh_tidy (minify : Bool) : (fresh minify).Tidy :=
  ⟨by simp [fresh], by simp [fresh]⟩

theorem grows_table (names : Namespace) (name : String) : names.Grows (names.table name).2 where
  minify := minify_table names name
  known other hother := by
    cases hminify : names.minify with
    | false =>
        have hafter : (names.table name).2.minify = false := by rw [minify_table, hminify]
        rw [Knows, column_of_plain hafter, column_of_plain hminify]
        exact ⟨rfl, rfl⟩
    | true =>
        have hafter : (names.table name).2.minify = true := by rw [minify_table, hminify]
        obtain ⟨aliasName, halias⟩ := exists_of_knows hminify hother
        have hkept : Assoc.get? other (names.table name).2.columns = some aliasName := by
          rw [columns_table, halias]
        rw [Knows, column_of_known hafter hkept, column_of_known hminify halias]
        exact ⟨rfl, rfl⟩
  tidy h := by
    constructor
    · intro entry hentry
      rw [columns_table] at hentry
      obtain ⟨n, hle, heq⟩ := h.issued entry hentry
      refine ⟨n, hle.trans ?_, heq⟩
      unfold Namespace.table
      split <;> simp
    · rw [columns_table]
      exact h.apart
  issued aliasName h := h.table name

/-- Different columns have different aliases. -/
theorem Tidy.column_injective {names : Namespace} (h : names.Tidy) {first second : String}
    (hfirst : names.Knows first) (hsecond : names.Knows second)
    (heq : (names.column first).1 = (names.column second).1) : first = second := by
  cases hminify : names.minify with
  | false =>
      rw [column_of_plain hminify, column_of_plain hminify] at heq
      exact heq
  | true =>
      obtain ⟨one, hone⟩ := exists_of_knows hminify hfirst
      obtain ⟨other, hother⟩ := exists_of_knows hminify hsecond
      rw [column_of_known hminify hone, column_of_known hminify hother] at heq
      exact h.apart _ (Assoc.mem_of_get?_eq_some hone) _ (Assoc.mem_of_get?_eq_some hother) heq

/-- A minified alias of a column has no underscore. -/
theorem Tidy.underscore_notMem_column {names : Namespace} (h : names.Tidy)
    (hminify : names.minify = true) {name : String} (hname : names.Knows name) :
    '_' ∉ (names.column name).1.toList := by
  obtain ⟨aliasName, halias⟩ := exists_of_knows hminify hname
  obtain ⟨n, -, heq⟩ := h.issued _ (Assoc.mem_of_get?_eq_some halias)
  have hspelled : spell n = aliasName := heq
  rw [column_of_known hminify halias, ← hspelled]
  exact underscore_notMem_spell n

end JoinPlan.Namespace
