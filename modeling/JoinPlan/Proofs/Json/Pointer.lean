import JoinPlan.Json.Pointer
import Mathlib.Data.List.Induction

/-!
# Pointers as texts of paths

A pointer made token by token is read back as the tokens it was made of, whatever slashes
and tildes they hold, so a pointer leads where its path does.
-/

namespace JoinPlan.Json.Pointer

/-! ### Escaped tokens -/

theorem replaceFrom_singleton (c : Char) (value text : List Char) :
    Text.replaceFrom [c] value 0 text = text.flatMap fun d => if d = c then value else [d] := by
  induction text with
  | nil => rfl
  | cons d rest ih =>
      rw [Text.replaceFrom, List.flatMap_cons, ← ih]
      by_cases hd : d = c
      · simp [hd]
      · simp [hd, Ne.symm hd]

/-- What is written for a character of a token. -/
def escapedChar (c : Char) : List Char :=
  if c = '~' then ['~', '0'] else if c = '/' then ['~', '1'] else [c]

theorem toList_escape (token : String) :
    (escape token).toList = token.toList.flatMap escapedChar := by
  simp only [escape, Text.replace, String.toList_ofList]
  have htilde : "~".toList = ['~'] := rfl
  have hslash : "/".toList = ['/'] := rfl
  rw [htilde, hslash, replaceFrom_singleton, replaceFrom_singleton, List.flatMap_assoc]
  congr 1
  funext c
  by_cases hc : c = '~'
  · simp [hc, escapedChar]
  · simp [hc, escapedChar]

theorem slash_not_mem_escape (token : String) : '/' ∉ (escape token).toList := by
  rw [toList_escape, List.mem_flatMap]
  rintro ⟨c, -, hslash⟩
  simp only [escapedChar] at hslash
  split at hslash
  · simp at hslash
  · split at hslash
    · simp at hslash
    · rename_i hc
      exact hc (List.mem_singleton.mp hslash).symm

/-- Slashes are put back, and a tilde stays escaped. -/
theorem replaceFrom_slash (text : List Char) :
    Text.replaceFrom ['~', '1'] ['/'] 0 (text.flatMap escapedChar) =
      text.flatMap fun c => if c = '~' then ['~', '0'] else [c] := by
  induction text with
  | nil => rfl
  | cons c rest ih =>
      rw [List.flatMap_cons, List.flatMap_cons, ← ih]
      by_cases htilde : c = '~'
      · simp [htilde, escapedChar, Text.replaceFrom]
      · by_cases hslash : c = '/'
        · simp [hslash, escapedChar, Text.replaceFrom]
        · simp [htilde, hslash, escapedChar, Text.replaceFrom, Ne.symm htilde]

theorem replaceFrom_tilde (text : List Char) :
    Text.replaceFrom ['~', '0'] ['~'] 0
      (text.flatMap fun c => if c = '~' then ['~', '0'] else [c]) = text := by
  induction text with
  | nil => rfl
  | cons c rest ih =>
      rw [List.flatMap_cons]
      by_cases htilde : c = '~'
      · simp [htilde, Text.replaceFrom, ih]
      · simp [htilde, Text.replaceFrom, Ne.symm htilde, ih]

@[simp]
theorem unescape_escape (token : String) : unescape (escape token) = token := by
  have hslash : "~1".toList = ['~', '1'] ∧ "/".toList = ['/'] := ⟨rfl, rfl⟩
  have htilde : "~0".toList = ['~', '0'] ∧ "~".toList = ['~'] := ⟨rfl, rfl⟩
  simp only [unescape, Text.replace, String.toList_ofList, hslash, htilde, toList_escape,
    replaceFrom_slash, replaceFrom_tilde, String.ofList_toList]

/-! ### Paths as pointers -/

/-- The pointer of a path from where a pointer leads. -/
def descend (pointer : Pointer) (path : Path) : Pointer := path.foldl child pointer

/-- The pointer of a path. -/
def ofPath (path : Path) : Pointer := descend "" path

@[simp]
theorem ofPath_nil : ofPath [] = "" := rfl

@[simp]
theorem descend_ofPath (path rest : Path) :
    descend (ofPath path) rest = ofPath (path ++ rest) :=
  List.foldl_append.symm

@[simp]
theorem child_ofPath (path : Path) (token : String) :
    (ofPath path).child token = ofPath (path ++ [token]) :=
  descend_ofPath path [token]

theorem toList_ofPath (path : Path) :
    (ofPath path).toList = path.flatMap fun token => '/' :: (escape token).toList := by
  induction path using List.reverseRecOn with
  | nil => rfl
  | append_singleton path token ih =>
      have hslash : "/".toList = ['/'] := rfl
      rw [← child_ofPath, child, List.flatMap_append, String.toList_append, String.toList_append,
        ih, hslash]
      simp

theorem segments_of_not_mem {piece : List Char} (hpiece : '/' ∉ piece) :
    segments piece = [piece] := by
  induction piece with
  | nil => rfl
  | cons c rest ih =>
      rw [List.mem_cons, not_or] at hpiece
      rw [segments, ih hpiece.2]
      exact fun hc => hpiece.1 hc.symm

theorem segments_append_slash {piece : List Char} (hpiece : '/' ∉ piece) (rest : List Char) :
    segments (piece ++ '/' :: rest) = piece :: segments rest := by
  induction piece with
  | nil => rfl
  | cons c others ih =>
      rw [List.mem_cons, not_or] at hpiece
      rw [List.cons_append, segments, ih hpiece.2]
      exact fun hc => hpiece.1 hc.symm

theorem segments_escaped (token : String) (path : Path) :
    segments ((escape token).toList ++ path.flatMap fun token => '/' :: (escape token).toList) =
      (token :: path).map fun token => (escape token).toList := by
  induction path generalizing token with
  | nil =>
      rw [List.flatMap_nil, List.append_nil, segments_of_not_mem (slash_not_mem_escape token)]
      rfl
  | cons next path ih =>
      rw [List.flatMap_cons, List.cons_append,
        segments_append_slash (slash_not_mem_escape token), ih next, List.map_cons, List.map_cons,
        List.map_cons]

/-- A pointer is read back as the path it is the text of. -/
@[simp]
theorem path?_ofPath (path : Path) : (ofPath path).path? = some path := by
  rw [path?, toList_ofPath]
  cases path with
  | nil => rfl
  | cons token path =>
      rw [List.flatMap_cons, List.cons_append]
      simp only [segments_escaped, List.map_map, Function.comp_def, String.ofList_toList,
        unescape_escape, List.map_id']

theorem ofPath_injective : Function.Injective ofPath := by
  intro first second heq
  have hpaths := congrArg path? heq
  rw [path?_ofPath, path?_ofPath] at hpaths
  exact Option.some.inj hpaths

end JoinPlan.Json.Pointer

namespace JoinPlan.Json

open Pointer (ofPath)

@[simp]
theorem resolve?_ofPath (value : Json) (path : Path) :
    value.resolve? (ofPath path) = value.at? path := by
  rw [resolve?, Pointer.path?_ofPath, Option.bind_some]

@[simp]
theorem modify_ofPath (value : Json) (change : Json → Json) (path : Path) :
    value.modify change (ofPath path) = value.modifyAt change path := by
  simp only [modify, Pointer.path?_ofPath]

end JoinPlan.Json
