import JoinPlan.Proofs.AliasHistory
import JoinPlan.Schema.Builder
import JoinPlan.Sql.Dialect
import Mathlib.Logic.Function.Basic

/-!
# Placeholders of a join's template

The template of a join has two placeholders, and they are replaced one after the other: the second
is looked for in what the first replacement left.  A placeholder starts with a brace and holds no
other, so none starts inside another and a template falls apart into placeholders and single
characters in one way.  An alias holds no brace, and the quote around it is part of no placeholder;
so what is put for one placeholder neither is another nor completes one, and the template ends up
as if both had been replaced side by side.
-/

namespace JoinPlan

namespace Builder

/-- What a template has in place of an alias. -/
inductive Placeholder
  | parent
  | child
deriving DecidableEq

/-- A placeholder as it is written in a template. -/
def Placeholder.word : Placeholder → List Char
  | .parent => parentPlaceholder.toList
  | .child => childPlaceholder.toList

inductive Piece
  | letter (c : Char)
  | placeholder (which : Placeholder)
deriving DecidableEq

/-- A piece with something put for the placeholders. -/
def Piece.filled (values : Placeholder → List Char) : Piece → List Char
  | .letter c => [c]
  | .placeholder which => values which

/-- The placeholder that a text starts with. -/
def Placeholder.at? (text : List Char) : Option Placeholder :=
  [parent, child].find? fun which => which.word.isPrefixOf text

/-- The pieces of a template after the next `skip` characters. -/
def piecesFrom : Nat → List Char → List Piece
  | _, [] => []
  | skip + 1, _ :: rest => piecesFrom skip rest
  | 0, c :: rest =>
      match Placeholder.at? (c :: rest) with
      | some which => .placeholder which :: piecesFrom (which.word.length - 1) rest
      | none => .letter c :: piecesFrom 0 rest

/-- The placeholders of a template and the characters around them. -/
def pieces (template : List Char) : List Piece := piecesFrom 0 template

namespace Placeholder

/-- The brace that starts a placeholder is found nowhere else in it. -/
theorem exists_word_eq (which : Placeholder) :
    ∃ tail, which.word = '\x7b' :: tail ∧ '\x7b' ∉ tail := by
  cases which <;> exact ⟨_, rfl, by decide⟩

theorem word_ne_nil (which : Placeholder) : which.word ≠ [] := by
  obtain ⟨tail, hword, -⟩ := which.exists_word_eq
  simp [hword]

/-- No placeholder starts as the other does. -/
theorem eq_of_starts {which other : Placeholder} {rest : List Char}
    (h : which.word <+: other.word ++ rest) : which = other := by
  cases which with
  | parent =>
      cases other with
      | parent => rfl
      | child => simp [word, parentPlaceholder, childPlaceholder] at h
  | child =>
      cases other with
      | parent => simp [word, parentPlaceholder, childPlaceholder] at h
      | child => rfl

theorem at?_eq_none_iff {text : List Char} :
    at? text = none ↔ ∀ which : Placeholder, ¬ which.word <+: text := by
  simp only [at?, List.find?_eq_none, List.isPrefixOf_iff_prefix]
  constructor
  · exact fun h which => h which (by cases which <;> simp)
  · exact fun h which _ => h which

theorem prefix_of_at? {text : List Char} {which : Placeholder} (h : at? text = some which) :
    which.word <+: text := by
  have hfound := List.find?_some (p := fun which : Placeholder => which.word.isPrefixOf text) h
  exact List.isPrefixOf_iff_prefix.mp hfound

theorem at?_word (which : Placeholder) (rest : List Char) :
    at? (which.word ++ rest) = some which := by
  cases hfound : at? (which.word ++ rest) with
  | none => exact absurd (List.prefix_append _ _) (at?_eq_none_iff.mp hfound which)
  | some other => rw [eq_of_starts (prefix_of_at? hfound)]

theorem at?_of_ne {c : Char} (hc : c ≠ '\x7b') (rest : List Char) : at? (c :: rest) = none := by
  rw [at?_eq_none_iff]
  intro which hstarts
  obtain ⟨tail, hword, -⟩ := which.exists_word_eq
  rw [hword, List.cons_prefix_cons] at hstarts
  exact hc hstarts.1.symm

end Placeholder

/-! ### Pieces -/

theorem piecesFrom_eq_drop (skip : Nat) (text : List Char) :
    piecesFrom skip text = pieces (text.drop skip) := by
  induction skip generalizing text with
  | zero => rfl
  | succ skip ih =>
      cases text with
      | nil => rfl
      | cons c rest => rw [piecesFrom, ih, List.drop_succ_cons]

theorem pieces_word_append (which : Placeholder) (rest : List Char) :
    pieces (which.word ++ rest) = .placeholder which :: pieces rest := by
  have hat := Placeholder.at?_word which rest
  obtain ⟨tail, hword, -⟩ := which.exists_word_eq
  rw [hword, List.cons_append] at hat ⊢
  rw [pieces, piecesFrom, hat]
  simp [piecesFrom_eq_drop, hword]

theorem pieces_cons {c : Char} {rest : List Char} (h : Placeholder.at? (c :: rest) = none) :
    pieces (c :: rest) = .letter c :: pieces rest := by
  rw [pieces, piecesFrom, h]
  rfl

/-- Characters that start no placeholder are pieces of their own. -/
theorem pieces_append_of_notMem {text : List Char} (h : '\x7b' ∉ text) (rest : List Char) :
    pieces (text ++ rest) = text.map .letter ++ pieces rest := by
  induction text with
  | nil => rfl
  | cons c text ih =>
      rw [List.mem_cons, not_or] at h
      rw [List.cons_append, pieces_cons (Placeholder.at?_of_ne (Ne.symm h.1) _), ih h.2]
      rfl

/-- A template ends, or goes on with a placeholder, or with a character that starts none. -/
theorem template_induction {motive : List Char → Prop} (nil : motive [])
    (word : ∀ which rest, motive rest → motive (Placeholder.word which ++ rest))
    (letter : ∀ c rest, Placeholder.at? (c :: rest) = none → motive rest → motive (c :: rest))
    (template : List Char) : motive template := by
  induction hlength : template.length using Nat.strong_induction_on generalizing template with
  | _ length ih =>
      cases template with
      | nil => exact nil
      | cons c rest =>
          cases hat : Placeholder.at? (c :: rest) with
          | none => exact letter c rest hat (ih _ (by simp [← hlength]) rest rfl)
          | some which =>
              obtain ⟨after, hafter⟩ := Placeholder.prefix_of_at? hat
              obtain ⟨tail, hword, -⟩ := which.exists_word_eq
              rw [← hafter]
              refine word which after (ih _ ?_ after rfl)
              rw [← hlength, ← hafter, hword, List.length_append, List.length_cons]
              omega

/-- Put together, the pieces are the template. -/
theorem written_pieces (template : List Char) :
    (pieces template).flatMap (Piece.filled Placeholder.word) = template := by
  induction template using template_induction with
  | nil => rfl
  | word which rest ih => rw [pieces_word_append, List.flatMap_cons, ih, Piece.filled]
  | letter c rest hat ih =>
      rw [pieces_cons hat, List.flatMap_cons, ih]
      rfl

/-- A word ends before a character that it does not hold. -/
theorem prefix_of_prefix_append {word before after : List Char} {c : Char} (hc : c ∉ word)
    (h : word <+: before ++ c :: after) : word <+: before := by
  induction before generalizing word with
  | nil =>
      cases word with
      | nil => exact List.prefix_rfl
      | cons first rest =>
          rw [List.nil_append, List.cons_prefix_cons] at h
          simp [h.1] at hc
  | cons first before ih =>
      cases word with
      | nil => exact List.nil_prefix
      | cons second rest =>
          rw [List.cons_append, List.cons_prefix_cons] at h
          rw [List.cons_prefix_cons]
          exact ⟨h.1, ih (List.not_mem_of_not_mem_cons hc) h.2⟩

/-- Where a placeholder occurs, the pieces before it end: no placeholder starts inside another. -/
theorem pieces_occurrence (before : List Char) (which : Placeholder) (after : List Char) :
    pieces (before ++ which.word ++ after) =
      pieces before ++ .placeholder which :: pieces after := by
  induction before using template_induction with
  | nil => exact pieces_word_append which after
  | word other rest ih =>
      rw [List.append_assoc, List.append_assoc, pieces_word_append, ← List.append_assoc, ih,
        pieces_word_append, List.cons_append]
  | letter c rest hat ih =>
      have hnone : Placeholder.at? (c :: (rest ++ which.word ++ after)) = none := by
        rw [Placeholder.at?_eq_none_iff] at hat ⊢
        intro other hstarts
        obtain ⟨tail, hword, hbrace⟩ := other.exists_word_eq
        obtain ⟨start, hwhich, -⟩ := which.exists_word_eq
        apply hat other
        rw [hword, List.cons_prefix_cons] at hstarts ⊢
        rw [hwhich, List.append_assoc, List.cons_append] at hstarts
        exact ⟨hstarts.1, prefix_of_prefix_append hbrace hstarts.2⟩
      rw [List.cons_append, List.cons_append, pieces_cons hnone, ih, pieces_cons hat,
        List.cons_append]

/-- A template cut into pieces: put together they are the template, and wherever a placeholder
occurs in it one of them is that placeholder. -/
structure IsCut (template : List Char) (pieces : List Piece) : Prop where
  written : pieces.flatMap (Piece.filled Placeholder.word) = template
  occurrence : ∀ before which after, template = before ++ Placeholder.word which ++ after →
    ∃ left right, pieces = left ++ .placeholder which :: right ∧
      left.flatMap (Piece.filled Placeholder.word) = before ∧
      right.flatMap (Piece.filled Placeholder.word) = after

theorem isCut_pieces (template : List Char) : IsCut template (pieces template) where
  written := written_pieces template
  occurrence before which after h :=
    ⟨pieces before, pieces after, h ▸ pieces_occurrence before which after, written_pieces before,
      written_pieces after⟩

/-! ### One replacement -/

/-- A value for one placeholder, the other left as it is written. -/
def putting (which : Placeholder) (value : List Char) : Placeholder → List Char :=
  Function.update Placeholder.word which value

/-- One replacement fills in the pieces that are its placeholder. -/
theorem replaceFrom_word (which : Placeholder) (value template : List Char) :
    Text.replaceFrom which.word value 0 template =
      (pieces template).flatMap (Piece.filled (putting which value)) := by
  induction template using template_induction with
  | nil => exact Text.replaceFrom_nil _ _ _
  | word other rest ih =>
      rw [pieces_word_append, List.flatMap_cons, ← ih, Piece.filled, putting]
      by_cases hother : other = which
      · subst hother
        rw [Function.update_self, Text.replaceFrom_append_self other.word_ne_nil]
      · rw [Function.update_of_ne hother]
        obtain ⟨tail, hword, hbrace⟩ := other.exists_word_eq
        obtain ⟨start, hwhich, -⟩ := which.exists_word_eq
        have habsent : which.word.isPrefixOf (other.word ++ rest) = false := by
          rw [← Bool.not_eq_true, List.isPrefixOf_iff_prefix]
          exact fun hstarts => hother (Placeholder.eq_of_starts hstarts).symm
        rw [hword, List.cons_append] at habsent ⊢
        rw [Text.replaceFrom_cons_of_absent _ _ _ _ habsent, hwhich,
          Text.replaceFrom_append_of_notMem hbrace, List.cons_append]
  | letter c rest hat ih =>
      have habsent : which.word.isPrefixOf (c :: rest) = false := by
        rw [← Bool.not_eq_true, List.isPrefixOf_iff_prefix]
        exact Placeholder.at?_eq_none_iff.mp hat which
      rw [Text.replaceFrom_cons_of_absent _ _ _ _ habsent, ih, pieces_cons hat,
        List.flatMap_cons]
      rfl

/-- A value without braces that starts with a character of no placeholder. -/
structure Inert (value : List Char) : Prop where
  unbraced : '\x7b' ∉ value
  opens : ∃ first, value.head? = some first ∧ ∀ which : Placeholder, first ∉ which.word

/-- What becomes of a piece when a value is put for a placeholder. -/
def Piece.replaced (which : Placeholder) (value : List Char) : Piece → List Piece
  | .letter c => [.letter c]
  | .placeholder other => if other = which then value.map .letter else [.placeholder other]

/-- What a template filled in with a value starts with was there before, or reaches into a
placeholder or the value. -/
theorem prefix_of_prefix_filled {which : Placeholder} {value : List Char} {first : Char}
    (hfirst : value.head? = some first) {template word : List Char} (hbrace : '\x7b' ∉ word)
    (hword : first ∉ word)
    (h : word <+: (pieces template).flatMap (Piece.filled (putting which value))) :
    word <+: template := by
  induction template using template_induction generalizing word with
  | nil => exact h
  | word other rest ih =>
      cases word with
      | nil => exact List.nil_prefix
      | cons c word =>
          rw [List.mem_cons, not_or] at hbrace hword
          obtain ⟨after, hafter⟩ := h
          have hhead := congrArg List.head? hafter
          rw [pieces_word_append, List.flatMap_cons, List.cons_append, List.head?_cons,
            List.head?_append, Piece.filled, putting] at hhead
          exfalso
          by_cases hother : other = which
          · subst hother
            rw [Function.update_self, hfirst] at hhead
            exact hword.1 (Option.some.inj hhead).symm
          · obtain ⟨tail, hstart, -⟩ := other.exists_word_eq
            rw [Function.update_of_ne hother, hstart] at hhead
            exact hbrace.1 (Option.some.inj hhead).symm
  | letter c rest hat ih =>
      cases word with
      | nil => exact List.nil_prefix
      | cons d word =>
          rw [pieces_cons hat, List.flatMap_cons, Piece.filled, List.singleton_append,
            List.cons_prefix_cons] at h
          rw [List.cons_prefix_cons]
          exact ⟨h.1, ih (List.not_mem_of_not_mem_cons hbrace)
            (List.not_mem_of_not_mem_cons hword) h.2⟩

/-- Putting an inert value for a placeholder leaves every other piece as it is, and what is put
there is no placeholder. -/
theorem Inert.pieces_replaced {value : List Char} (hvalue : Inert value) (which : Placeholder)
    (template : List Char) :
    pieces (Text.replaceFrom which.word value 0 template) =
      (pieces template).flatMap (Piece.replaced which value) := by
  rw [replaceFrom_word]
  induction template using template_induction with
  | nil => rfl
  | word other rest ih =>
      rw [pieces_word_append, List.flatMap_cons, List.flatMap_cons, Piece.filled, Piece.replaced,
        putting, ← ih]
      by_cases hother : other = which
      · subst hother
        rw [if_pos rfl, Function.update_self, pieces_append_of_notMem hvalue.unbraced]
        rfl
      · rw [if_neg hother, Function.update_of_ne hother, pieces_word_append]
        rfl
  | letter c rest hat ih =>
      rw [pieces_cons hat, List.flatMap_cons, List.flatMap_cons, Piece.filled, Piece.replaced,
        ← ih, List.singleton_append, List.singleton_append]
      apply pieces_cons
      rw [Placeholder.at?_eq_none_iff] at hat ⊢
      intro other hstarts
      obtain ⟨tail, hword, hbrace⟩ := other.exists_word_eq
      obtain ⟨first, hfirst, hforeign⟩ := hvalue.opens
      apply hat other
      have htail : first ∉ tail := List.not_mem_of_not_mem_cons (hword ▸ hforeign other)
      rw [hword, List.cons_prefix_cons] at hstarts ⊢
      exact ⟨hstarts.1, prefix_of_prefix_filled hfirst hbrace htail hstarts.2⟩

/-! ### Both placeholders -/

/-- A template with both placeholders replaced side by side: its pieces are told before anything
is put for them. -/
def filledAtOnce (values : Placeholder → String) (template : String) : String :=
  String.ofList ((pieces template.toList).flatMap (Piece.filled fun which => (values which).toList))

/-- The quoted aliases of the tables that a condition joins. -/
def quotedAliases (dialect : Dialect) (parent child : String) : Placeholder → String
  | .parent => dialect.quote parent
  | .child => dialect.quote child

theorem joinText_eq_filledAtOnce {parent : String} (hparent : Inert parent.toList)
    (child template : String) :
    joinText template parent child =
      filledAtOnce (fun | .parent => parent | .child => child) template := by
  have hwords : parentPlaceholder.toList = Placeholder.parent.word ∧
      childPlaceholder.toList = Placeholder.child.word := ⟨rfl, rfl⟩
  rw [joinText, Text.replace, Text.replace, String.toList_ofList, hwords.1, hwords.2,
    replaceFrom_word .child, hparent.pieces_replaced, List.flatMap_assoc, filledAtOnce]
  congr 2
  funext piece
  cases piece with
  | letter c => rfl
  | placeholder which =>
      cases which with
      | parent => simp [Piece.replaced, Piece.filled, List.flatMap_map]
      | child => simp [Piece.replaced, Piece.filled, putting]

theorem inert_quote (dialect : Dialect) {name : String} (h : '\x7b' ∉ name.toList) :
    Inert (dialect.quote name).toList := by
  rw [Dialect.quote, String.toList_ofList]
  constructor
  · have hmark : '\x7b' ≠ dialect.nameQuote := by cases dialect <;> decide
    simp only [Dialect.doubled, List.mem_cons, List.mem_append, List.mem_flatMap,
      List.not_mem_nil, or_false, not_or, not_exists, not_and]
    refine ⟨hmark, fun c hc => ?_, hmark⟩
    split
    · simp [hmark]
    · rintro hsame
      exact h (List.mem_singleton.mp hsame ▸ hc)
  · refine ⟨dialect.nameQuote, rfl, fun which => ?_⟩
    cases dialect <;> cases which <;> decide

open Namespace in
/-- A join's template is filled in with the quoted aliases of two tables as if its placeholders
were replaced side by side, whatever braces and parts of placeholders it has.  Every occurrence of
a placeholder is one of the pieces it is cut into, and replacing either of them in any text leaves
the pieces of that text but those replaced, for which no placeholder stands any more. -/
theorem join_fills_at_once {minify : Bool} {calls : List (AliasKind × String)}
    {parent child : String} (hparent : parent ∈ tablesAmong ((fresh minify).answers calls))
    (hchild : child ∈ tablesAmong ((fresh minify).answers calls)) (dialect : Dialect)
    (template : String) (args : Arguments) (context : Context) :
    Builder.join (.template template) (dialect.quote parent) (dialect.quote child) args context =
        filledAtOnce (quotedAliases dialect parent child) template ∧
      IsCut template.toList (pieces template.toList) ∧
      ∀ which text, pieces (Text.replaceFrom which.word
          (quotedAliases dialect parent child which).toList 0 text) =
        (pieces text).flatMap
          (Piece.replaced which (quotedAliases dialect parent child which).toList) := by
  have hinert : ∀ which, Inert (quotedAliases dialect parent child which).toList := by
    intro which
    have hspelling : '\x7b' ∉ parent.toList ∧ '\x7b' ∉ child.toList := by
      have hbrace : ¬ ('\x7b'.isAlphanum ∨ '\x7b' ∈ ['_', '$', '#']) := by decide
      exact ⟨fun hmem => hbrace (spelling_of_mem_tablesAmong hparent _ hmem),
        fun hmem => hbrace (spelling_of_mem_tablesAmong hchild _ hmem)⟩
    cases which with
    | parent => exact inert_quote dialect hspelling.1
    | child => exact inert_quote dialect hspelling.2
  refine ⟨?_, isCut_pieces _, fun which text => (hinert which).pieces_replaced which text⟩
  have hvalues : quotedAliases dialect parent child =
      fun | .parent => dialect.quote parent | .child => dialect.quote child := by
    funext which
    cases which <;> rfl
  rw [hvalues]
  exact joinText_eq_filledAtOnce (hinert .parent) _ _

/-- A template with a placeholder inside parts of others, and one between braces. -/
def nestedTemplate : String :=
  "\x7bchi\x7bparent\x7dld\x7d = \x7b\x7bchild\x7d\x7bpar"

theorem join_fills_at_once_nestedTemplate :
    "a" ∈ Namespace.tablesAmong
        ((Namespace.fresh true).answers [(.table, "users"), (.table, "posts")]) ∧
      "b" ∈ Namespace.tablesAmong
        ((Namespace.fresh true).answers [(.table, "users"), (.table, "posts")]) ∧
      Builder.join (.template nestedTemplate) (Dialect.quote .postgres "a")
          (Dialect.quote .postgres "b") [] .null =
        "\x7bchi\"a\"ld\x7d = \x7b\"b\"\x7bpar" ∧
      filledAtOnce (quotedAliases .postgres "a" "b") nestedTemplate =
        "\x7bchi\"a\"ld\x7d = \x7b\"b\"\x7bpar" := by
  have hparent : "a" ∈ Namespace.tablesAmong
      ((Namespace.fresh true).answers [(.table, "users"), (.table, "posts")]) := by decide
  have hchild : "b" ∈ Namespace.tablesAmong
      ((Namespace.fresh true).answers [(.table, "users"), (.table, "posts")]) := by decide
  have hjoined : Builder.join (.template nestedTemplate) (Dialect.quote .postgres "a")
      (Dialect.quote .postgres "b") [] .null = "\x7bchi\"a\"ld\x7d = \x7b\"b\"\x7bpar" := by
    decide
  refine ⟨hparent, hchild, hjoined, ?_⟩
  rw [← hjoined]
  exact (join_fills_at_once hparent hchild .postgres nestedTemplate [] .null).1.symm

end Builder

end JoinPlan
