import JoinPlan.Proofs.Sql.Tokens

/-!
# Connectives and brackets

A connective inside parentheses, inside CASE … END, or after BETWEEN is not one of the
condition's own.  A condition is split at its own connectives: first at OR, which binds
the least, and the parts at AND.  What AND joins to a condition goes with its last part;
what stands in parentheses is never split.
-/

namespace JoinPlan.Sql

/-! ### Brackets -/

/-- What closes a bracket of any kind. -/
def closer? (token : Token) : Option Token :=
  [(Token.mark "(", Token.mark ")"), (.mark "[", .mark "]"), (.word "CASE", .word "END"),
    (.word "BETWEEN", .word "AND")].lookup token

def isCloser (token : Token) : Bool :=
  [Token.mark ")", .mark "]", .word "END"].contains token

/-- The connectives besides AND, OR and NOT. -/
def isForeign (dialect : Dialect) (token : Token) : Bool :=
  dialect = .mysql && [Token.mark "||", .mark "&&", .mark ":=", .word "XOR"].contains token

/-- The brackets that are open after a token, each as what closes it, the innermost
first; a closing bracket nothing opened cannot be read. -/
def await (dialect : Dialect) (awaited : List Token) (token : Token) : Option (List Token) :=
  if awaited.head? = some token then some awaited.tail
  else
    match closer? token with
    | some closer => some (closer :: awaited)
    | none =>
        if isCloser token || (awaited.isEmpty && isForeign dialect token) then none
        else some awaited

/-- What stands between the separators that are in no bracket. -/
def splitTop (dialect : Dialect) (separator : Token) :
    List Token → List Token → Option (List (List Token))
  | awaited, [] => if awaited.isEmpty then some [[]] else none
  | awaited, token :: rest =>
      if awaited.isEmpty && token = separator then
        (splitTop dialect separator [] rest).map ([] :: ·)
      else
        (await dialect awaited token).bind fun awaited =>
          (splitTop dialect separator awaited rest).map (List.modifyHead (token :: ·))

/-! ### Texts one after the other -/

variable {dialect : Dialect} {separator : Token} {awaited list : List Token}
  {parts : List (List Token)}

/-- The last part of the one goes together with the first of the other. -/
def glue : List (List Token) → List (List Token) → List (List Token)
  | [], parts => parts
  | [last], parts => parts.modifyHead (last ++ ·)
  | first :: rest, parts => first :: glue rest parts

theorem glue_cons {rest : List (List Token)} (hrest : rest ≠ []) (first : List Token)
    (parts : List (List Token)) : glue (first :: rest) parts = first :: glue rest parts := by
  obtain ⟨second, rest, rfl⟩ := List.exists_cons_of_ne_nil hrest
  rfl

theorem glue_modifyHead (hparts : parts ≠ []) (token : Token) (others : List (List Token)) :
    glue (parts.modifyHead (token :: ·)) others = (glue parts others).modifyHead (token :: ·) := by
  obtain ⟨first, rest, rfl⟩ := List.exists_cons_of_ne_nil hparts
  cases rest with
  | nil => cases others <;> rfl
  | cons second rest => rfl

theorem splitTop_ne_nil (h : splitTop dialect separator awaited list = some parts) :
    parts ≠ [] := by
  fun_induction splitTop dialect separator awaited list generalizing parts with
  | case1 =>
      obtain rfl := Option.some.inj h
      simp
  | case2 => simp at h
  | case3 =>
      obtain ⟨rest, -, rfl⟩ := Option.map_eq_some_iff.mp h
      simp
  | case4 awaited token rest _ ih =>
      obtain ⟨next, -, hnext⟩ := Option.bind_eq_some_iff.mp h
      obtain ⟨rest, hrest, rfl⟩ := Option.map_eq_some_iff.mp hnext
      simpa [List.modifyHead_eq_nil_iff] using ih next hrest

theorem splitTop_append (h : splitTop dialect separator awaited list = some parts)
    (more : List Token) : splitTop dialect separator awaited (list ++ more) =
      (splitTop dialect separator [] more).map (glue parts) := by
  fun_induction splitTop dialect separator awaited list generalizing parts with
  | case1 awaited hawaited =>
      obtain rfl := Option.some.inj h
      obtain rfl := List.isEmpty_iff.mp hawaited
      have hglue : glue [[]] = id := by
        funext parts
        cases parts <;> rfl
      rw [hglue, Option.map_id, List.nil_append, id]
  | case2 => simp at h
  | case3 awaited token rest hseparator ih =>
      obtain ⟨others, hothers, rfl⟩ := Option.map_eq_some_iff.mp h
      have hglue : ([] :: ·) ∘ glue others = glue ([] :: others) := by
        funext parts
        exact (glue_cons (splitTop_ne_nil hothers) [] parts).symm
      rw [List.cons_append, splitTop, if_pos hseparator, ih hothers, Option.map_map, hglue]
  | case4 awaited token rest hseparator ih =>
      obtain ⟨next, hnext, hrest⟩ := Option.bind_eq_some_iff.mp h
      obtain ⟨others, hothers, rfl⟩ := Option.map_eq_some_iff.mp hrest
      have hglue : List.modifyHead (token :: ·) ∘ glue others =
          glue (others.modifyHead (token :: ·)) := by
        funext parts
        exact (glue_modifyHead (splitTop_ne_nil hothers) token parts).symm
      rw [List.cons_append, splitTop, if_neg hseparator, hnext, Option.bind_some,
        ih next hothers, Option.map_map, hglue]

/-- A token that neither opens nor closes a bracket. -/
def IsLevel (token : Token) : Prop := closer? token = none ∧ isCloser token = false

theorem await_closer (dialect : Dialect) (token : Token) (outer : List Token) :
    await dialect (token :: outer) token = some outer := by
  simp [await]

theorem await_opener {token closer : Token} (hhead : awaited.head? ≠ some token)
    (hcloser : closer? token = some closer) :
    await dialect awaited token = some (closer :: awaited) := by
  rw [await, if_neg hhead, hcloser]

theorem await_level {token : Token} (hhead : awaited.head? ≠ some token) (htoken : IsLevel token)
    (hforeign : awaited ≠ [] ∨ isForeign dialect token = false) :
    await dialect awaited token = some awaited := by
  have hplain : (isCloser token || (awaited.isEmpty && isForeign dialect token)) = false := by
    rcases hforeign with hawaited | hforeign
    · rw [htoken.2, List.isEmpty_eq_false_iff.mpr hawaited]
      rfl
    · rw [htoken.2, hforeign, Bool.and_false]
      rfl
  simp [await, hhead, htoken.1, hplain]

/-- All that a token can do: close the innermost bracket, open one, or neither. -/
theorem await_eq_some {token : Token} {next : List Token}
    (h : await dialect awaited token = some next) :
    awaited = token :: next ∨
      (awaited.head? ≠ some token ∧ ∃ closer, closer? token = some closer ∧
        next = closer :: awaited) ∨
      (awaited.head? ≠ some token ∧ IsLevel token ∧ next = awaited) := by
  unfold await at h
  split at h
  · rename_i hhead
    obtain ⟨rest, rfl⟩ := List.head?_eq_some_iff.mp hhead
    obtain rfl := Option.some.inj h
    exact Or.inl rfl
  · rename_i hhead
    split at h
    · rename_i closer hcloser
      exact Or.inr (Or.inl ⟨hhead, closer, hcloser, (Option.some.inj h).symm⟩)
    · rename_i hcloser
      split at h
      · contradiction
      · rename_i hplain
        simp only [Bool.or_eq_true, not_or, Bool.not_eq_true] at hplain
        exact Or.inr (Or.inr ⟨hhead, ⟨hcloser, hplain.1⟩, (Option.some.inj h).symm⟩)

theorem ne_parenthesis {token : Token} (h : closer? token ≠ none ∨ isCloser token = false) :
    token ≠ .mark ")" := by
  rintro rfl
  revert h
  decide

theorem head?_append_ne {token : Token} (hhead : awaited.head? ≠ some token)
    (htoken : token ≠ .mark ")") (outer : List Token) :
    (awaited ++ .mark ")" :: outer).head? ≠ some token := by
  cases awaited with
  | nil => simpa using Ne.symm htoken
  | cons => simpa using hhead

/-- What is read inside brackets is read the same inside parentheses around them. -/
theorem await_append {token : Token} {next : List Token}
    (h : await dialect awaited token = some next) (outer : List Token) :
    await dialect (awaited ++ .mark ")" :: outer) token = some (next ++ .mark ")" :: outer) := by
  rcases await_eq_some h with rfl | ⟨hhead, closer, hcloser, rfl⟩ | ⟨hhead, hlevel, rfl⟩
  · exact await_closer dialect token _
  · exact await_opener (head?_append_ne hhead (ne_parenthesis (Or.inl (by simp [hcloser]))) outer)
      hcloser
  · exact await_level (head?_append_ne hhead (ne_parenthesis (Or.inr hlevel.2)) outer) hlevel
      (Or.inl (by simp))

/-- Inside parentheses nothing is split. -/
theorem splitTop_inside (h : splitTop dialect separator awaited list = some parts)
    (hseparator : IsLevel separator) (other : Token) (outer rest : List Token) :
    splitTop dialect other (awaited ++ .mark ")" :: outer) (list ++ .mark ")" :: rest) =
      (splitTop dialect other outer rest).map
        (List.modifyHead ((list ++ [.mark ")"]) ++ ·)) := by
  have hopen (awaited : List Token) : (awaited ++ Token.mark ")" :: outer).isEmpty = false := by
    cases awaited <;> rfl
  have hmore (token : Token) (list : List Token) :
      List.modifyHead (token :: ·) ∘ List.modifyHead ((list ++ [Token.mark ")"]) ++ ·) =
        List.modifyHead ((token :: list ++ [.mark ")"]) ++ ·) := by
    funext parts
    exact List.modifyHead_modifyHead ..
  fun_induction splitTop dialect separator awaited list generalizing parts with
  | case1 awaited hawaited =>
      obtain rfl := List.isEmpty_iff.mp hawaited
      simp [splitTop, await_closer]
  | case2 => simp at h
  | case3 awaited token rest hhead ih =>
      obtain ⟨others, hothers, -⟩ := Option.map_eq_some_iff.mp h
      simp only [Bool.and_eq_true, List.isEmpty_iff, decide_eq_true_eq] at hhead
      obtain ⟨rfl, rfl⟩ := hhead
      have hnext : await dialect ([] ++ .mark ")" :: outer) token =
          some ([] ++ .mark ")" :: outer) :=
        await_level (head?_append_ne (by simp) (ne_parenthesis (Or.inr hseparator.2)) outer)
          hseparator (Or.inl (by simp))
      rw [List.cons_append, splitTop, hopen, if_neg (by simp), hnext, Option.bind_some,
        ih hothers, Option.map_map, hmore]
  | case4 awaited token rest _ ih =>
      obtain ⟨next, hnext, hrest⟩ := Option.bind_eq_some_iff.mp h
      obtain ⟨others, hothers, -⟩ := Option.map_eq_some_iff.mp hrest
      rw [List.cons_append, splitTop, hopen, if_neg (by simp), await_append hnext,
        Option.bind_some, ih next hothers, Option.map_map, hmore]

theorem length_le_of_mem_splitTop (h : splitTop dialect separator awaited list = some parts)
    {part : List Token} (hpart : part ∈ parts) : part.length ≤ list.length := by
  fun_induction splitTop dialect separator awaited list generalizing parts part with
  | case1 =>
      obtain rfl := Option.some.inj h
      simp_all
  | case2 => simp at h
  | case3 awaited token rest _ ih =>
      obtain ⟨others, hothers, rfl⟩ := Option.map_eq_some_iff.mp h
      rcases List.mem_cons.mp hpart with rfl | hpart
      · exact Nat.zero_le _
      · exact Nat.le_succ_of_le (ih hothers hpart)
  | case4 awaited token rest _ ih =>
      obtain ⟨next, -, hrest⟩ := Option.bind_eq_some_iff.mp h
      obtain ⟨others, hothers, rfl⟩ := Option.map_eq_some_iff.mp hrest
      cases others with
      | nil => simp at hpart
      | cons first others =>
          rcases List.mem_cons.mp hpart with rfl | hpart
          · exact Nat.succ_le_succ (ih next hothers List.mem_cons_self)
          · exact Nat.le_succ_of_le (ih next hothers (List.mem_cons_of_mem _ hpart))

/-! ### Connectives between texts -/

theorem isLevel_and : IsLevel (.word "AND") := ⟨rfl, rfl⟩

theorem isLevel_or : IsLevel (.word "OR") := ⟨rfl, rfl⟩

theorem glue_nil_cons (hparts : parts ≠ []) (others : List (List Token)) :
    glue parts ([] :: others) = parts ++ others := by
  induction parts with
  | nil => contradiction
  | cons first rest ih =>
      cases rest with
      | nil => simp [glue]
      | cons second rest =>
          rw [glue_cons (by simp), ih (by simp)]
          rfl

theorem splitTop_separator {left right : List Token} {lefts rights : List (List Token)}
    (hleft : splitTop dialect separator [] left = some lefts)
    (hright : splitTop dialect separator [] right = some rights) :
    splitTop dialect separator [] (left ++ separator :: right) = some (lefts ++ rights) := by
  have hnext : splitTop dialect separator [] (separator :: right) = some ([] :: rights) := by
    simp [splitTop, hright]
  rw [splitTop_append hleft, hnext, Option.map_some, glue_nil_cons (splitTop_ne_nil hleft)]

theorem splitTop_cons {token : Token} {rest : List Token} (hlevel : IsLevel token)
    (hforeign : isForeign dialect token = false) (hseparator : token ≠ separator) :
    splitTop dialect separator [] (token :: rest) =
      (splitTop dialect separator [] rest).map (List.modifyHead (token :: ·)) := by
  rw [splitTop, await_level (by simp) hlevel (Or.inr hforeign)]
  simp [hseparator]

/-- What AND joins to the terms of a condition goes with the last of them. -/
theorem splitTop_or_and {left right : List Token} {lefts : List (List Token)}
    (hleft : splitTop dialect (.word "OR") [] left = some lefts) :
    splitTop dialect (.word "OR") [] (left ++ .word "AND" :: right) =
      (splitTop dialect (.word "OR") [] right).map
        fun rights => glue lefts (rights.modifyHead (.word "AND" :: ·)) := by
  rw [splitTop_append hleft, splitTop_cons isLevel_and (by cases dialect <;> rfl) (by decide),
    Option.map_map]
  rfl

theorem mem_glue {first : List Token} {others : List (List Token)} (hparts : parts ≠ [])
    {part : List Token} (h : part ∈ glue parts (first :: others)) :
    part ∈ parts ∨ part ∈ others ∨ ∃ last ∈ parts, part = last ++ first := by
  induction parts with
  | nil => contradiction
  | cons head rest ih =>
      cases rest with
      | nil => exact Or.inr (by simpa [glue, or_comm] using h)
      | cons second rest =>
          rw [glue_cons (by simp)] at h
          rcases List.mem_cons.mp h with rfl | h
          · simp
          · rcases ih (by simp) h with h | h | ⟨last, hlast, rfl⟩
            · exact Or.inl (List.mem_cons_of_mem _ h)
            · exact Or.inr (Or.inl h)
            · exact Or.inr (Or.inr ⟨last, List.mem_cons_of_mem _ hlast, rfl⟩)

/-- Parentheses and what stands in them are one part. -/
theorem splitTop_parenthesised (h : splitTop dialect separator [] list = some parts)
    (hseparator : IsLevel separator) {other : Token} (hother : Token.mark "(" ≠ other) :
    splitTop dialect other [] (parenthesised list) = some [parenthesised list] := by
  have hinside := splitTop_inside h hseparator other [] []
  rw [List.nil_append] at hinside
  rw [parenthesised, splitTop, await_opener (by simp) rfl, Option.bind_some, hinside]
  simp [hother, splitTop]

/-- What a separator is put between is what it separates. -/
theorem splitTop_intercalate {lists : List (List Token)} (hlists : lists ≠ [])
    (h : ∀ list ∈ lists, splitTop dialect separator [] list = some [list]) :
    splitTop dialect separator [] ([separator].intercalate lists) = some lists := by
  induction lists with
  | nil => contradiction
  | cons first lists ih =>
      obtain ⟨hfirst, hrest⟩ := List.forall_mem_cons.mp h
      cases lists with
      | nil => simpa using hfirst
      | cons second lists =>
          rw [List.intercalate_cons_cons, List.append_assoc, List.singleton_append,
            splitTop_separator hfirst (ih (by simp) hrest)]
          rfl

/-! ### Texts without a connective of their own -/

/-- No connective stands outside the brackets. -/
def Unsplit (dialect : Dialect) (list : List Token) : Prop :=
  ∀ separator, separator = .word "AND" ∨ separator = .word "OR" →
    splitTop dialect separator [] list = some [list]

/-- A condition with no OR outside the brackets. -/
def Single (dialect : Dialect) (list : List Token) : Prop :=
  splitTop dialect (.word "OR") [] list = some [list]

theorem Unsplit.single (h : Unsplit dialect list) : Single dialect list := h _ (Or.inr rfl)

variable {left right : List Token}

theorem Unsplit.append (hleft : Unsplit dialect left) (hright : Unsplit dialect right) :
    Unsplit dialect (left ++ right) := by
  intro separator hseparator
  rw [splitTop_append (hleft _ hseparator), hright _ hseparator]
  rfl

theorem unsplit_nil : Unsplit dialect [] := fun _ _ => rfl

/-- Neither a bracket nor a connective. -/
def isPlain (dialect : Dialect) (token : Token) : Bool :=
  (closer? token).isNone && !isCloser token && !isForeign dialect token &&
    !List.contains [Token.word "AND", .word "OR"] token

theorem Unsplit.cons {token : Token} (htoken : isPlain dialect token = true)
    (h : Unsplit dialect list) : Unsplit dialect (token :: list) := by
  intro separator hseparator
  simp only [isPlain, Bool.and_eq_true, Bool.not_eq_true', Option.isNone_iff_eq_none] at htoken
  obtain ⟨⟨⟨hopener, hcloser⟩, hforeign⟩, hconnective⟩ := htoken
  have hne : token ≠ separator := by
    rintro rfl
    rcases hseparator with rfl | rfl <;> simp at hconnective
  rw [splitTop_cons ⟨hopener, hcloser⟩ hforeign hne, h _ hseparator]
  rfl

theorem Unsplit.parenthesised (h : (splitTop dialect (.word "OR") [] list).isSome) :
    Unsplit dialect (parenthesised list) := by
  obtain ⟨parts, hparts⟩ := Option.isSome_iff_exists.mp h
  intro separator hseparator
  have hne : Token.mark "(" ≠ separator := by
    rintro rfl
    simp at hseparator
  exact splitTop_parenthesised hparts isLevel_or hne

theorem Single.and (hleft : Single dialect left) (hright : Single dialect right) :
    Single dialect (left ++ .word "AND" :: right) := by
  rw [Single, splitTop_or_and hleft, hright]
  rfl

end JoinPlan.Sql
