import JoinPlan.Proofs.ColumnAliases
import Mathlib.Data.List.Forall2
import Mathlib.Data.List.Induction

/-!
# Every history of calls

A namespace answers calls for tables and for columns in any order.  What it has kept after some
calls, the aliases of the tables in plain mode and the number of words handed out with those of
the columns in minified mode, tells all that was answered before; each call is answered from
that alone.  So a property of one more answer, given the answers before it, is a property of
every history from a fresh namespace on.
-/

namespace JoinPlan.Namespace

/-- A call for an alias with what came back. -/
structure Answer where
  kind : AliasKind
  name : String
  aliasName : String
deriving DecidableEq

def Answer.call (answer : Answer) : AliasKind × String := (answer.kind, answer.name)

/-- The answers to some calls in turn. -/
def answers : Namespace → List (AliasKind × String) → List Answer
  | _, [] => []
  | names, (kind, name) :: calls =>
      let (aliasName, names) := names.generate kind name
      ⟨kind, name, aliasName⟩ :: names.answers calls

/-- The aliases that tables were given, in turn. -/
def tablesAmong (answers : List Answer) : List String :=
  (answers.filter fun answer => answer.kind = .table).map Answer.aliasName

theorem answers_calls (names : Namespace) (calls : List (AliasKind × String)) :
    (names.answers calls).map Answer.call = calls := by
  induction calls generalizing names with
  | nil => rfl
  | cons call calls ih => rw [answers, List.map_cons, ih, Answer.call]

theorem tablesAmong_append (first second : List Answer) :
    tablesAmong (first ++ second) = tablesAmong first ++ tablesAmong second := by
  simp [tablesAmong]

theorem mem_tablesAmong {answers : List Answer} {aliasName : String} :
    aliasName ∈ tablesAmong answers ↔
      ∃ answer ∈ answers, answer.kind = .table ∧ answer.aliasName = aliasName := by
  simp [tablesAmong, and_assoc]

/-- What is preserved by one more answer holds after all of them. -/
theorem answers_induction {Kept : Namespace → List Answer → Prop}
    (hstep : ∀ names past kind name, Kept names past →
      Kept (names.generate kind name).2 (past ++ [⟨kind, name, (names.generate kind name).1⟩]))
    (calls : List (AliasKind × String)) {names : Namespace} {past : List Answer}
    (h : Kept names past) : ∃ after, Kept after (past ++ names.answers calls) := by
  induction calls generalizing names past with
  | nil => exact ⟨names, by rwa [answers, List.append_nil]⟩
  | cons call calls ih =>
      obtain ⟨after, hafter⟩ := ih (hstep names past call.1 call.2 h)
      refine ⟨after, ?_⟩
      rwa [List.append_assoc] at hafter

/-! ### Sanitized names -/

theorem length_sanitize_le (name : String) : (sanitize name).length ≤ 10 := by
  rw [sanitize, String.length_ofList]
  exact List.length_take_le _ _

/-- The first ten characters of a name that are not white space, with an underscore for each
that is neither a letter nor a digit. -/
def CutDown (name text : String) : Prop :=
  List.Forall₂ (fun c kept => if c.isAlphanum then kept = c else kept = '_')
    ((name.toList.filter fun c => !Text.isBlank c).take 10) text.toList

theorem cutDown_sanitize (name : String) : CutDown name (sanitize name) := by
  rw [CutDown, sanitize, Text.squeeze, String.toList_ofList, String.toList_ofList, ← List.map_take,
    List.forall₂_map_right_iff, List.forall₂_same]
  intro c _
  split <;> rfl

theorem sanitize_spelling (name : String) :
    ∀ c ∈ (sanitize name).toList, c.isAlphanum ∨ c = '_' := by
  intro c hc
  rw [sanitize, String.toList_ofList] at hc
  obtain ⟨kept, -, rfl⟩ := List.mem_map.mp (List.mem_of_mem_take hc)
  by_cases hkept : kept.isAlphanum
  · exact Or.inl (by simp [hkept])
  · exact Or.inr (by simp [hkept])

/-! ### Plain aliases -/

/-- A name with the fewest dollar signs that tell it from the aliases in use. -/
structure FewestDollars (used : List String) (name aliasName : String) : Prop where
  exists_count : ∃ count ≤ used.length, aliasName = dollared name count ∧
    ∀ fewer < count, dollared name fewer ∈ used
  unused : aliasName ∉ used

/-- However long the search may go on, it ends at the same alias. -/
theorem FewestDollars.unused_eq {used : List String} {name aliasName : String}
    (h : FewestDollars used name aliasName) {fuel : Nat} (hfuel : used.length ≤ fuel) :
    Namespace.unused used fuel name = aliasName := by
  obtain ⟨count, hcount, rfl, hfewer⟩ := h.exists_count
  obtain ⟨found, -, heq, hbelow, hend⟩ := exists_unused_eq used fuel name
  have hfound : found = count := by
    rcases Nat.lt_trichotomy found count with hlt | hsame | hlt
    · exact absurd (hfewer found hlt) (hend (by omega))
    · exact hsame
    · exact absurd (hbelow count hlt) h.unused
  rw [heq, hfound]

theorem fewestDollars_unused {used kept : List String} (hmem : ∀ text, text ∈ kept ↔ text ∈ used)
    (hlength : kept.length = used.length) (name : String) :
    FewestDollars used name (Namespace.unused kept kept.length name) := by
  obtain ⟨count, hcount, heq, hfewer, -⟩ := exists_unused_eq kept kept.length name
  constructor
  · refine ⟨count, hlength ▸ hcount, heq, fun fewer hlt => ?_⟩
    exact (hmem _).mp (hfewer fewer hlt)
  · exact fun hused => unused_notMem kept name ((hmem _).mpr hused)

/-- What plain mode answers after some answers. -/
def PlainAnswer (before : List Answer) (answer : Answer) : Prop :=
  match answer.kind with
  | .table => FewestDollars (tablesAmong before) (sanitize answer.name) answer.aliasName
  | .column => answer.aliasName = answer.name

/-- A history in plain mode: each answer is the one due after those before it. -/
def PlainHistory (answers : List Answer) : Prop :=
  ∀ before answer after, answers = before ++ answer :: after → PlainAnswer before answer

theorem PlainHistory.snoc {past : List Answer} (h : PlainHistory past) {last : Answer}
    (hlast : PlainAnswer past last) : PlainHistory (past ++ [last]) := by
  intro before answer after heq
  rcases List.eq_nil_or_concat after with rfl | ⟨middle, final, rfl⟩
  · obtain ⟨rfl, hsame⟩ := List.append_inj' heq rfl
    obtain rfl := List.head_eq_of_cons_eq hsame
    exact hlast
  · rw [List.concat_eq_append, ← List.cons_append, ← List.append_assoc] at heq
    exact h before answer middle (List.append_inj' heq rfl).1

theorem PlainHistory.nodup {answers : List Answer} (h : PlainHistory answers) :
    (tablesAmong answers).Nodup := by
  induction answers using List.reverseRecOn with
  | nil => exact List.nodup_nil
  | append_singleton past last ih =>
      have hpast : PlainHistory past := by
        intro before answer after heq
        exact h before answer (after ++ [last]) (by simp [heq])
      have hlast := h past last [] rfl
      rw [tablesAmong_append, List.nodup_append]
      refine ⟨ih hpast, ?_, ?_⟩
      · cases hkind : last.kind <;> simp [tablesAmong, hkind]
      · rintro used hused given hgiven rfl
        obtain ⟨answer, hanswer, hkind, rfl⟩ := mem_tablesAmong.mp hgiven
        obtain rfl := List.mem_singleton.mp hanswer
        rw [PlainAnswer, hkind] at hlast
        exact hlast.unused hused

/-- A plain namespace has kept the aliases of the tables. -/
structure KeptPlain (names : Namespace) (past : List Answer) : Prop where
  plain : names.minify = false
  used : names.usedTables = (tablesAmong past).reverse
  history : PlainHistory past

theorem KeptPlain.generate {names : Namespace} {past : List Answer} (h : KeptPlain names past)
    (kind : AliasKind) (name : String) :
    KeptPlain (names.generate kind name).2
      (past ++ [⟨kind, name, (names.generate kind name).1⟩]) := by
  cases kind with
  | column =>
      rw [Namespace.generate, column_of_plain h.plain]
      exact ⟨h.plain, by simpa [tablesAmong] using h.used, h.history.snoc rfl⟩
  | table =>
      have hdue : FewestDollars (tablesAmong past) (sanitize name) (names.table name).1 := by
        simp only [table, h.plain, Bool.false_eq_true, if_false]
        exact fewestDollars_unused (by simp [h.used]) (by simp [h.used]) _
      refine ⟨(minify_table names name).trans h.plain, ?_, h.history.snoc hdue⟩
      simp [Namespace.generate, table, h.plain, h.used, tablesAmong]

theorem plainHistory_answers (calls : List (AliasKind × String)) :
    PlainHistory ((fresh false).answers calls) := by
  have hfresh : KeptPlain (fresh false) [] :=
    ⟨rfl, rfl, fun before answer after heq => by simp at heq⟩
  obtain ⟨after, hafter⟩ :=
    answers_induction (fun _ _ kind name h => h.generate kind name) calls hfresh
  exact hafter.history

/-! ### Minified aliases -/

/-- Enough fuel spells the same word as more of it. -/
theorem spellBefore_eq_of_le {fuel more n : Nat} (hfuel : n ≤ fuel) (hmore : n ≤ more)
    (after : List Char) : spellBefore after fuel n = spellBefore after more n := by
  induction fuel generalizing more n after with
  | zero =>
      obtain rfl : n = 0 := Nat.le_zero.mp hfuel
      cases more <;> rfl
  | succ fuel ih =>
      cases n with
      | zero => cases more <;> rfl
      | succ n =>
          have hrest : n / alphabet.length ≤ n := Nat.div_le_self n _
          cases more with
          | zero => omega
          | succ more => exact ih (by omega) (by omega) _

/-- A history in minified mode. -/
structure MinifiedHistory (answers : List Answer) : Prop where
  /-- Each alias is a word, and its letters end however long the count may go on. -/
  words : ∀ answer ∈ answers, ∃ number, 0 < number ∧ number ≤ answers.length ∧
    ∀ fuel ≥ number, answer.aliasName = String.ofList (spellBefore [] fuel number)
  tables : (tablesAmong answers).Nodup
  columns : ∀ first ∈ answers, ∀ second ∈ answers, first.kind = .column →
    second.kind = .column → (first.aliasName = second.aliasName ↔ first.name = second.name)
  apart : ∀ column ∈ answers, ∀ table ∈ answers, column.kind = .column →
    table.kind = .table → column.aliasName ≠ table.aliasName

theorem MinifiedHistory.exists_eq_spell {answers : List Answer} (h : MinifiedHistory answers)
    {answer : Answer} (hanswer : answer ∈ answers) :
    ∃ number, answer.aliasName = spell number := by
  obtain ⟨number, -, -, hword⟩ := h.words answer hanswer
  exact ⟨number, hword number le_rfl⟩

theorem MinifiedHistory.underscore_notMem {answers : List Answer} (h : MinifiedHistory answers)
    {answer : Answer} (hanswer : answer ∈ answers) : '_' ∉ answer.aliasName.toList := by
  obtain ⟨number, hspelled⟩ := h.exists_eq_spell hanswer
  rw [hspelled]
  exact underscore_notMem_spell number

/-- A minified namespace has counted the words and noted those of the columns. -/
structure KeptMinified (names : Namespace) (past : List Answer) : Prop where
  minified : names.minify = true
  tidy : names.Tidy
  issued : names.issued ≤ past.length
  words : ∀ answer ∈ past, ∃ number, 0 < number ∧ number ≤ names.issued ∧
    answer.aliasName = spell number
  noted : ∀ answer ∈ past, answer.kind = .column →
    Assoc.get? answer.name names.columns = some answer.aliasName
  given : ∀ entry ∈ names.columns, ∃ answer ∈ past, answer.aliasName = entry.2
  tables : (tablesAmong past).Nodup
  apart : ∀ aliasName ∈ tablesAmong past, ∀ entry ∈ names.columns, entry.2 ≠ aliasName

namespace KeptMinified

variable {names : Namespace} {past : List Answer}

theorem history (h : KeptMinified names past) : MinifiedHistory past where
  words answer hanswer := by
    obtain ⟨number, hpos, hle, heq⟩ := h.words answer hanswer
    refine ⟨number, hpos, hle.trans h.issued, fun fuel hfuel => ?_⟩
    rw [heq, spell, spellBefore_eq_of_le le_rfl hfuel]
  tables := h.tables
  columns first hfirst second hsecond hone hother := by
    have hfirst := h.noted first hfirst hone
    have hsecond := h.noted second hsecond hother
    constructor
    · exact h.tidy.apart _ (Assoc.mem_of_get?_eq_some hfirst) _
        (Assoc.mem_of_get?_eq_some hsecond)
    · intro hname
      rw [hname, hsecond] at hfirst
      exact (Option.some.inj hfirst).symm
  apart column hcolumn table htable hone hother := by
    have hentry := Assoc.mem_of_get?_eq_some (h.noted column hcolumn hone)
    exact h.apart _ (mem_tablesAmong.mpr ⟨table, htable, hother, rfl⟩) _ hentry

/-- The next word was not given before. -/
theorem ne_next (h : KeptMinified names past) :
    ∀ answer ∈ past, answer.aliasName ≠ spell (names.issued + 1) := by
  intro answer hanswer heq
  obtain ⟨number, -, hle, hword⟩ := h.words answer hanswer
  have hsame : number = names.issued + 1 := spell_injective (hword.symm.trans heq)
  omega

theorem words_next (h : KeptMinified names past) (kind : AliasKind) (name : String) :
    ∀ answer ∈ past ++ [⟨kind, name, spell (names.issued + 1)⟩],
      ∃ number, 0 < number ∧ number ≤ names.issued + 1 ∧ answer.aliasName = spell number := by
  intro answer hanswer
  rcases List.mem_append.mp hanswer with hold | hnew
  · obtain ⟨number, hpos, hle, heq⟩ := h.words answer hold
    exact ⟨number, hpos, Nat.le_succ_of_le hle, heq⟩
  · obtain rfl := List.mem_singleton.mp hnew
    exact ⟨names.issued + 1, Nat.succ_pos _, le_rfl, rfl⟩

/-- A column keeps the word noted for it, also when another answer follows. -/
theorem noted_snoc (h : KeptMinified names past) {last : Answer} {after : Namespace}
    (hkept : ∀ other aliasName, Assoc.get? other names.columns = some aliasName →
      Assoc.get? other after.columns = some aliasName)
    (hlast : last.kind = .column →
      Assoc.get? last.name after.columns = some last.aliasName) :
    ∀ answer ∈ past ++ [last], answer.kind = .column →
      Assoc.get? answer.name after.columns = some answer.aliasName := by
  intro answer hanswer hkind
  rcases List.mem_append.mp hanswer with hold | hnew
  · exact hkept _ _ (h.noted answer hold hkind)
  · obtain rfl := List.mem_singleton.mp hnew
    exact hlast hkind

theorem given_snoc (h : KeptMinified names past) (last : Answer) :
    ∀ entry ∈ names.columns, ∃ answer ∈ past ++ [last], answer.aliasName = entry.2 := by
  intro entry hentry
  obtain ⟨answer, hanswer, heq⟩ := h.given entry hentry
  exact ⟨answer, List.mem_append_left _ hanswer, heq⟩

theorem table (h : KeptMinified names past) (name : String) :
    KeptMinified (names.table name).2 (past ++ [⟨.table, name, (names.table name).1⟩]) := by
  have htidy := (grows_table names name).tidy h.tidy
  simp only [Namespace.table, h.minified, if_true] at htidy ⊢
  have halias : tablesAmong [⟨.table, name, spell (names.issued + 1)⟩] =
      [spell (names.issued + 1)] := rfl
  refine ⟨rfl, htidy, by simpa using h.issued, h.words_next .table name,
    h.noted_snoc (fun _ _ => id) (by simp), h.given_snoc _, ?_, ?_⟩
  · rw [tablesAmong_append, halias, List.nodup_append]
    refine ⟨h.tables, List.nodup_singleton _, ?_⟩
    rintro given hgiven used hused rfl
    obtain ⟨answer, hanswer, -, heq⟩ := mem_tablesAmong.mp hgiven
    exact h.ne_next answer hanswer (heq.trans (List.mem_singleton.mp hused))
  · intro aliasName haliasName entry hentry
    rw [tablesAmong_append, halias] at haliasName
    rcases List.mem_append.mp haliasName with hgiven | hnew
    · exact h.apart aliasName hgiven entry hentry
    · obtain ⟨answer, hanswer, heq⟩ := h.given entry hentry
      rw [List.mem_singleton.mp hnew, ← heq]
      exact h.ne_next answer hanswer

theorem newColumn (h : KeptMinified names past) {name : String}
    (hnew : Assoc.get? name names.columns = none) :
    KeptMinified (names.note name)
      (past ++ [⟨.column, name, spell (names.issued + 1)⟩]) := by
  have htables : tablesAmong (past ++ [⟨.column, name, spell (names.issued + 1)⟩]) =
      tablesAmong past := by
    simp [tablesAmong]
  refine ⟨h.minified, (grows_note h.minified hnew).tidy h.tidy, by simpa [note] using h.issued,
    h.words_next .column name, h.noted_snoc ?_ ?_, ?_, htables ▸ h.tables, ?_⟩
  · intro other aliasName hother
    have hne : name ≠ other := by
      rintro rfl
      rw [hnew] at hother
      cases hother
    rw [note, Assoc.get?, if_neg hne, hother]
  · intro _
    simp [note, Assoc.get?]
  · intro entry hentry
    rcases List.mem_cons.mp hentry with rfl | hold
    · exact ⟨_, List.mem_append_right _ List.mem_cons_self, rfl⟩
    · exact h.given_snoc _ entry hold
  · intro aliasName hgiven entry hentry
    rw [htables] at hgiven
    rcases List.mem_cons.mp hentry with rfl | hold
    · obtain ⟨answer, hanswer, -, rfl⟩ := mem_tablesAmong.mp hgiven
      exact (h.ne_next answer hanswer).symm
    · exact h.apart aliasName hgiven entry hold

theorem knownColumn (h : KeptMinified names past) {name aliasName : String}
    (hnoted : Assoc.get? name names.columns = some aliasName) :
    KeptMinified names (past ++ [⟨.column, name, aliasName⟩]) := by
  have htables : tablesAmong (past ++ [⟨.column, name, aliasName⟩]) = tablesAmong past := by
    simp [tablesAmong]
  refine ⟨h.minified, h.tidy, ?_, ?_, h.noted_snoc (fun _ _ => id) fun _ => hnoted,
    h.given_snoc _, htables ▸ h.tables, htables ▸ h.apart⟩
  · rw [List.length_append]
    exact Nat.le_add_right_of_le h.issued
  · intro answer hanswer
    rcases List.mem_append.mp hanswer with hold | hnew
    · exact h.words answer hold
    · obtain ⟨earlier, hearlier, heq⟩ := h.given _ (Assoc.mem_of_get?_eq_some hnoted)
      obtain ⟨number, hpos, hle, hword⟩ := h.words earlier hearlier
      rw [List.mem_singleton.mp hnew]
      exact ⟨number, hpos, hle, heq.symm.trans hword⟩

theorem generate (h : KeptMinified names past) (kind : AliasKind) (name : String) :
    KeptMinified (names.generate kind name).2
      (past ++ [⟨kind, name, (names.generate kind name).1⟩]) := by
  cases kind with
  | table => exact h.table name
  | column =>
      cases hnoted : Assoc.get? name names.columns with
      | none =>
          rw [Namespace.generate, column_of_new h.minified hnoted]
          exact h.newColumn hnoted
      | some aliasName =>
          rw [Namespace.generate, column_of_known h.minified hnoted]
          exact h.knownColumn hnoted

end KeptMinified

theorem minifiedHistory_answers (calls : List (AliasKind × String)) :
    MinifiedHistory ((fresh true).answers calls) := by
  have hfresh : KeptMinified (fresh true) [] := by
    refine ⟨rfl, fresh_tidy true, le_rfl, ?_, ?_, ?_, List.nodup_nil, ?_⟩ <;>
      simp [fresh, tablesAmong]
  obtain ⟨after, hafter⟩ :=
    answers_induction (fun _ _ kind name h => h.generate kind name) calls hfresh
  exact hafter.history

/-! ### Both modes -/

/-- A table's alias, plain or minified, is spelled with letters, digits and three other
characters. -/
theorem spelling_of_mem_tablesAmong {minify : Bool} {calls : List (AliasKind × String)}
    {aliasName : String} (h : aliasName ∈ tablesAmong ((fresh minify).answers calls)) :
    ∀ c ∈ aliasName.toList, c.isAlphanum ∨ c ∈ ['_', '$', '#'] := by
  obtain ⟨answer, hanswer, hkind, rfl⟩ := mem_tablesAmong.mp h
  intro c hc
  cases minify with
  | true =>
      obtain ⟨number, hspelled⟩ := (minifiedHistory_answers calls).exists_eq_spell hanswer
      rw [hspelled, spell, String.toList_ofList] at hc
      have halphabet : alphabet.all (fun c => c.isAlphanum || c ∈ ['_', '$', '#']) := by decide
      have hletter := mem_alphabet_of_mem_spellBefore (by simp) number number c hc
      simpa using List.all_eq_true.mp halphabet c hletter
  | false =>
      obtain ⟨before, after, hsplit⟩ := List.append_of_mem hanswer
      have hdue := plainHistory_answers calls before answer after hsplit
      rw [PlainAnswer, hkind] at hdue
      obtain ⟨count, -, halias, -⟩ := hdue.exists_count
      rw [halias, toList_dollared, List.mem_append] at hc
      rcases hc with hname | hdollar
      · exact (sanitize_spelling _ c hname).imp_right (by simp +contextual)
      · simp [List.eq_of_mem_replicate hdollar]

/-- Whatever is asked of a fresh namespace, every call is answered and no two tables get one
alias.  In plain mode a column has its own name, and a table its own cut down, ten letters,
digits and underscores at most, with the fewest dollar signs that make it unused, a search that
ends where it does with any more fuel.  In minified mode every alias is a word; those of two
columns are one exactly for one name, and none of them is that of a table. -/
theorem answers_of_fresh (calls : List (AliasKind × String)) :
    (∀ minify, ((fresh minify).answers calls).map Answer.call = calls ∧
      (tablesAmong ((fresh minify).answers calls)).Nodup) ∧
    (∀ before answer after, (fresh false).answers calls = before ++ answer :: after →
      match answer.kind with
      | .column => answer.aliasName = answer.name
      | .table =>
          (CutDown answer.name (sanitize answer.name) ∧ (sanitize answer.name).length ≤ 10 ∧
            ∀ c ∈ (sanitize answer.name).toList, c.isAlphanum ∨ c = '_') ∧
          FewestDollars (tablesAmong before) (sanitize answer.name) answer.aliasName ∧
          ∀ fuel ≥ (tablesAmong before).length,
            unused (tablesAmong before) fuel (sanitize answer.name) = answer.aliasName) ∧
    MinifiedHistory ((fresh true).answers calls) := by
  have hplain := plainHistory_answers calls
  have hminified := minifiedHistory_answers calls
  refine ⟨fun minify => ⟨answers_calls _ calls, ?_⟩, ?_, hminified⟩
  · cases minify with
    | false => exact hplain.nodup
    | true => exact hminified.tables
  · intro before answer after heq
    have hanswer := hplain before answer after heq
    cases hkind : answer.kind with
    | column =>
        rw [PlainAnswer, hkind] at hanswer
        exact hanswer
    | table =>
        rw [PlainAnswer, hkind] at hanswer
        exact ⟨⟨cutDown_sanitize _, length_sanitize_le _, sanitize_spelling _⟩, hanswer,
          fun fuel hfuel => hanswer.unused_eq hfuel⟩

/-- Names that differ can be one when they are cut down. -/
example : tablesAmong ((fresh false).answers
    [(.table, "Users Table!!"), (.column, "id"), (.table, "UsersTable"),
      (.table, "Users Tables")]) =
      ["UsersTable", "UsersTable$", "UsersTable$$"] := by
  decide

/-! ### One name asked for again and again -/

/-- Asking several times in a row gives what the last of the calls is answered. -/
theorem generateTimes_eq (kind : AliasKind) (name : String) (times : Nat) (names : Namespace) :
    (generateTimes kind name times names).1 =
      ((names.answers (List.replicate times (kind, name))).getLast?).map Answer.aliasName := by
  induction times generalizing names with
  | zero => rfl
  | succ times ih =>
      cases times with
      | zero => rfl
      | succ times => exact ih (names.generate kind name).2

/-- A minified namespace counts on from what it has handed out. -/
theorem generateTimes_of_minified {names : Namespace} (h : names.minify = true) (name : String)
    (n : Nat) :
    (generateTimes .table name (n + 1) names).1 = some (spell (names.issued + n + 1)) := by
  induction n generalizing names with
  | zero => simp [generateTimes, generate, table, h]
  | succ n ih =>
      change (generateTimes .table name (n + 1) (names.table name).2).1 = _
      have hissued : (names.table name).2.issued = names.issued + 1 := by simp [table, h]
      rw [ih ((minify_table names name).trans h), hissued, Nat.add_right_comm names.issued 1 n]
      rfl

/-- The first aliases of a name, the last of them in front. -/
def counted (name : String) (count : Nat) : List String :=
  ((List.range count).map (dollared name)).reverse

theorem fewestDollars_counted (name : String) (count : Nat) :
    FewestDollars (counted name count) name (dollared name count) where
  exists_count := ⟨count, by simp [counted], rfl, fun fewer hfewer =>
    List.mem_reverse.mpr (List.mem_map_of_mem (List.mem_range.mpr hfewer))⟩
  unused := by simp [counted, (dollared_injective name).eq_iff]

/-- A plain namespace with the first aliases of a name in use gives the next one. -/
theorem table_of_counted {names : Namespace} (h : names.minify = false) {name : String}
    {count : Nat} (hused : names.usedTables = counted (sanitize name) count) :
    names.table name = (dollared (sanitize name) count,
      { names with usedTables := counted (sanitize name) (count + 1) }) := by
  have hnext : counted (sanitize name) (count + 1) =
      dollared (sanitize name) count :: counted (sanitize name) count := by
    simp [counted, List.range_succ]
  simp only [table, h, hused, (fewestDollars_counted _ count).unused_eq le_rfl, hnext,
    Bool.false_eq_true, if_false]

theorem generateTimes_of_counted {names : Namespace} (h : names.minify = false) {name : String}
    {count : Nat} (hused : names.usedTables = counted (sanitize name) count) (n : Nat) :
    (generateTimes .table name (n + 1) names).1 =
      some (dollared (sanitize name) (count + n)) := by
  induction n generalizing names count with
  | zero =>
      change some (names.table name).1 = _
      rw [table_of_counted h hused]
      rfl
  | succ n ih =>
      have hnext : (names.table name).2.usedTables = counted (sanitize name) (count + 1) := by
        rw [table_of_counted h hused]
      change (generateTimes .table name (n + 1) (names.table name).2).1 = _
      rw [ih ((minify_table names name).trans h) hnext, Nat.add_right_comm]
      rfl

/-- The aliases of tables that are all called by one name are that name with no dollar sign,
one, two and so on, or the words in their order. -/
theorem generateTimes_fresh (name : String) (n : Nat) :
    (generateTimes .table name (n + 1) (fresh false)).1 = some (dollared (sanitize name) n) ∧
      (generateTimes .table name (n + 1) (fresh true)).1 = some (spell (n + 1)) := by
  constructor
  · rw [generateTimes_of_counted rfl (rfl : _ = counted _ 0), Nat.zero_add]
  · rw [generateTimes_of_minified rfl, fresh, Nat.zero_add]

/-- The 55th word is the first with two letters. -/
example : (generateTimes .table "ignored" 55 (fresh true)).1 = some "aa" :=
  (generateTimes_fresh "ignored" 54).2

end JoinPlan.Namespace
