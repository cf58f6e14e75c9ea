import JoinPlan.Data.Batch
import JoinPlan.Proofs.Json.Path
import JoinPlan.Proofs.Json.Pointer
import Mathlib.Data.List.Pairwise

/-!
# Where the objects of a table are

The value of a table's field holds its objects in a list, in the nodes of a connection or
as itself.  Here they are listed with the paths that lead to them, which lie apart from
each other and are told by the outline of the value alone.
-/

namespace JoinPlan.Plan

open Json (Path Apart Outside SameOutline)
open Json.Pointer (ofPath)

/-! ### Items of a list -/

/-- The places of the items that pass, by their index. -/
def itemPlaces (items : List Json) (passes : Json → Bool) : List Path :=
  (items.zipIdx.filter fun item => passes item.1).map fun item => [Json.indexToken item.2]

section Items

variable {items : List Json} {passes : Json → Bool}

theorem mem_itemPlaces {place : Path} :
    place ∈ itemPlaces items passes ↔
      ∃ index item, items[index]? = some item ∧ passes item ∧ place = [Json.indexToken index] := by
  rw [itemPlaces, List.mem_map]
  constructor
  · rintro ⟨⟨item, index⟩, hitem, rfl⟩
    rw [List.mem_filter, List.mem_zipIdx_iff_getElem?] at hitem
    exact ⟨index, item, hitem.1, hitem.2, rfl⟩
  · rintro ⟨index, item, hitem, hpasses, rfl⟩
    exact ⟨(item, index), List.mem_filter.mpr
      ⟨List.mem_zipIdx_iff_getElem?.mpr hitem, hpasses⟩, rfl⟩

theorem pairwise_itemPlaces (items : List Json) (passes : Json → Bool) :
    (itemPlaces items passes).Pairwise Apart := by
  have hindexes : items.zipIdx.Pairwise fun first second => first.2 ≠ second.2 := by
    rw [← List.pairwise_map, List.zipIdx_map_snd]
    exact List.nodup_range'
  apply List.Pairwise.map (fun item : Json × Nat => [Json.indexToken item.2]) _
    (hindexes.filter _)
  intro first second hne
  exact Json.apart_cons_of_ne (fun heq => hne (Json.indexToken_injective heq)) [] []

theorem at?_array_indexToken (items : List Json) (index : Nat) :
    (Json.array items).at? [Json.indexToken index] = items[index]? := by
  rw [Json.at?_singleton, Json.child?, Json.index?_indexToken, Option.bind_some]

theorem map_at?_itemPlaces (items : List Json) (passes : Json → Bool) :
    (itemPlaces items passes).map (Json.array items).at? = (items.filter passes).map some := by
  have hfound : ∀ item ∈ items.zipIdx.filter fun item => passes item.1,
      (Json.array items).at? [Json.indexToken item.2] = some item.1 := by
    intro item hitem
    rw [at?_array_indexToken]
    exact List.mem_zipIdx_iff_getElem?.mp (List.mem_filter.mp hitem).1
  have hitems : (items.zipIdx.filter fun item => passes item.1).map Prod.fst =
      items.filter passes := by
    conv_rhs => rw [← List.zipIdx_map_fst 0 items, List.filter_map]
    rfl
  rw [itemPlaces, List.map_map, ← hitems, List.map_map]
  exact List.map_congr_left hfound

theorem pointersOf_ofPath (path : Path) (items : List Json) (passes : Json → Bool) :
    pointersOf (ofPath path) items passes =
      (itemPlaces items passes).map fun place => ofPath (path ++ place) := by
  simp [pointersOf, itemPlaces]

/-- The places depend on nothing but which items pass. -/
theorem itemPlaces_congr {others : List Json} {passesOther : Json → Bool}
    (h : items.map passes = others.map passesOther) :
    itemPlaces items passes = itemPlaces others passesOther := by
  have hmarks : ∀ (items : List Json) (passes : Json → Bool),
      itemPlaces items passes = ((items.map passes).zipIdx.filter Prod.fst).map
        fun mark => [Json.indexToken mark.2] := by
    intro items passes
    rw [itemPlaces, List.zipIdx_map, List.filter_map, List.map_map]
    rfl
  rw [hmarks, hmarks, h]

end Items

/-! ### Objects of a table -/

namespace TableInfo

/-- The places of a table's objects in the value of its field. -/
def places (info : TableInfo) : Json → List Path
  | .array items => itemPlaces items Json.isObject
  | .object members =>
      if info.paginate then
        match Assoc.get? "edges" members with
        | some (.array edges) =>
            (itemPlaces edges fun edge => (edge.getD "node").isObject).map
              fun place => "edges" :: (place ++ ["node"])
        | _ => []
      else [[]]
  | _ => []

/-- A table's objects in the value of its field. -/
def objectsIn (info : TableInfo) : Json → List Json
  | .array items => items.filter Json.isObject
  | .object members =>
      if info.paginate then
        match Assoc.get? "edges" members with
        | some (.array edges) => (edges.map fun edge => edge.getD "node").filter Json.isObject
        | _ => []
      else [.object members]
  | _ => []

/-- A value of a table's field in a connection's outline. -/
theorem places_of_edges {info : TableInfo} (hpaginate : info.paginate = true) {members : Object}
    {edges : List Json} (hedges : Assoc.get? "edges" members = some (.array edges)) :
    info.places (.object members) =
      (itemPlaces edges fun edge => (edge.getD "node").isObject).map
        fun place => "edges" :: (place ++ ["node"]) := by
  simp [places, hpaginate, hedges]

theorem places_of_no_edges {info : TableInfo} (hpaginate : info.paginate = true)
    {members : Object} (hnone : ¬ ∃ edges, Assoc.get? "edges" members = some (.array edges)) :
    info.places (.object members) = [] := by
  simp only [places, hpaginate, if_true]
  split
  · rename_i edges hedges
    exact absurd ⟨edges, hedges⟩ hnone
  · rfl

theorem pairwise_places (info : TableInfo) (value : Json) : (info.places value).Pairwise Apart := by
  cases value with
  | array items => exact pairwise_itemPlaces items _
  | object members =>
      rw [places]
      split
      · split
        · apply List.Pairwise.map (fun place : Path => "edges" :: (place ++ ["node"])) _
            (pairwise_itemPlaces _ _)
          intro first second hapart
          exact Json.apart_cons_iff.mpr (hapart.append _ _)
        · exact List.Pairwise.nil
      · exact List.pairwise_singleton _ _
  | null | bool | number | string => exact List.Pairwise.nil

theorem at?_node (edge : Json) : edge.at? ["node"] = edge.get? "node" := by
  rw [Json.at?_singleton]
  cases edge with
  | array items =>
      have hindex : Json.index? "node" = none := by decide
      simp [Json.child?, Json.get?, hindex]
  | object | null | bool | number | string => rfl

theorem get?_node_of_isObject {edge : Json} (h : (edge.getD "node").isObject = true) :
    edge.get? "node" = some (edge.getD "node") := by
  rw [Json.getD] at h ⊢
  cases hnode : edge.get? "node" with
  | none => simp [hnode, Json.isObject] at h
  | some node => rfl

/-- The places lead to the objects, in order. -/
theorem map_at?_places (info : TableInfo) (value : Json) :
    (info.places value).map value.at? = (info.objectsIn value).map some := by
  cases value with
  | array items => exact map_at?_itemPlaces items _
  | object members =>
      rw [places, objectsIn]
      split
      · split
        · rename_i edges hedges
          have hat : ∀ place, (Json.object members).at? ("edges" :: (place ++ ["node"])) =
              ((Json.array edges).at? place).bind fun edge => edge.get? "node" := by
            intro place
            have hchild : (Json.object members).child? "edges" = some (.array edges) := hedges
            rw [Json.at?, hchild, Option.bind_some, Json.at?_append]
            congr 1
            funext edge
            exact at?_node edge
          have hnodes : ∀ edge ∈ edges.filter fun edge => (edge.getD "node").isObject,
              edge.get? "node" = some (edge.getD "node") := fun edge hedge =>
            get?_node_of_isObject (List.mem_filter.mp hedge).2
          calc _ = ((itemPlaces edges fun edge => (edge.getD "node").isObject).map
                (Json.array edges).at?).map
                  fun found => found.bind fun edge => edge.get? "node" := by
                rw [List.map_map, List.map_map]
                exact List.map_congr_left fun place _ => hat place
            _ = (edges.filter fun edge => (edge.getD "node").isObject).map
                fun edge => edge.get? "node" := by
                rw [map_at?_itemPlaces, List.map_map]
                rfl
            _ = (edges.filter fun edge => (edge.getD "node").isObject).map
                fun edge => some (edge.getD "node") := List.map_congr_left hnodes
            _ = _ := by
                rw [List.filter_map, List.map_map]
                rfl
        · rfl
      · rfl
  | null | bool | number | string => rfl

theorem isObject_of_mem_objectsIn {info : TableInfo} {value object : Json}
    (h : object ∈ info.objectsIn value) : object.isObject = true := by
  cases value with
  | array items => exact (List.mem_filter.mp h).2
  | object members =>
      rw [objectsIn] at h
      split at h
      · split at h
        · exact (List.mem_filter.mp h).2
        · simp at h
      · rw [List.mem_singleton.mp h]
        rfl
  | null | bool | number | string => simp [objectsIn] at h

theorem exists_place_of_mem_objectsIn {info : TableInfo} {value object : Json}
    (h : object ∈ info.objectsIn value) :
    ∃ place ∈ info.places value, value.at? place = some object := by
  have hmem : some object ∈ (info.places value).map value.at? := by
    rw [map_at?_places]
    exact List.mem_map_of_mem h
  exact List.mem_map.mp hmem

theorem outside_itemPlaces (items : List Json) (passes : Json → Bool) (token : String) :
    Outside (itemPlaces items passes) [token] := by
  apply Json.outside_of_length_le
  intro place hplace
  obtain ⟨index, item, -, -, rfl⟩ := mem_itemPlaces.mp hplace
  exact Nat.le_refl 1

theorem map_eq_map_of_getElem? {items others : List Json} {passes passesOther : Json → Bool}
    (hsome : ∀ index : Nat, (items[index]?).isSome = (others[index]?).isSome)
    (hpasses : ∀ index : Nat, (items[index]?).any passes = (others[index]?).any passesOther) :
    items.map passes = others.map passesOther := by
  apply List.ext_getElem?
  intro index
  rw [List.getElem?_map, List.getElem?_map]
  have hfound := hsome index
  have hsame := hpasses index
  cases hfirst : items[index]? with
  | none => cases hsecond : others[index]? <;> simp_all
  | some item => cases hsecond : others[index]? <;> simp_all

section Outlines

variable {info : TableInfo} {first second : Json} {members : Object} {edges : List Json}

theorem places_array_congr {items others : List Json}
    (h : ∀ index, SameOutline (.array items) (.array others) [Json.indexToken index]) :
    info.places (.array items) = info.places (.array others) := by
  apply itemPlaces_congr
  apply map_eq_map_of_getElem?
  · intro index
    have hsome := (h index).isSome
    rwa [at?_array_indexToken, at?_array_indexToken] at hsome
  · intro index
    have hobject := (h index).any_isObject
    rwa [at?_array_indexToken, at?_array_indexToken] at hobject

theorem at?_edge (hedges : Assoc.get? "edges" members = some (.array edges)) (index : Nat) :
    (Json.object members).at? ["edges", Json.indexToken index] = edges[index]? := by
  rw [Json.at?, Json.child?, hedges, Option.bind_some, at?_array_indexToken]

theorem at?_edge_node (hedges : Assoc.get? "edges" members = some (.array edges)) (index : Nat) :
    (Json.object members).at? ["edges", Json.indexToken index, "node"] =
      (edges[index]?).bind fun edge => edge.get? "node" := by
  have hpath : ["edges", Json.indexToken index, "node"] =
      ["edges", Json.indexToken index] ++ ["node"] := rfl
  rw [hpath, Json.at?_append, at?_edge hedges]
  congr 1
  funext edge
  exact at?_node edge

theorem any_getD_node (edge : Option Json) :
    edge.any (fun edge => (edge.getD "node").isObject) =
      (edge.bind fun edge => edge.get? "node").any Json.isObject := by
  cases edge with
  | none => rfl
  | some edge =>
      simp only [Option.any_some, Option.bind_some, Json.getD]
      cases edge.get? "node" <;> rfl

theorem places_edges_congr {others : List Json} {more : Object}
    (hedges : Assoc.get? "edges" members = some (.array edges))
    (hothers : Assoc.get? "edges" more = some (.array others))
    (hedge : ∀ index, SameOutline (.object members) (.object more)
      ["edges", Json.indexToken index])
    (hnode : ∀ index, SameOutline (.object members) (.object more)
      ["edges", Json.indexToken index, "node"]) :
    itemPlaces edges (fun edge => (edge.getD "node").isObject) =
      itemPlaces others (fun edge => (edge.getD "node").isObject) := by
  apply itemPlaces_congr
  apply map_eq_map_of_getElem?
  · intro index
    have hsome := (hedge index).isSome
    rwa [at?_edge hedges, at?_edge hothers] at hsome
  · intro index
    have hobject := (hnode index).any_isObject
    rwa [at?_edge_node hedges, at?_edge_node hothers, ← any_getD_node, ← any_getD_node] at hobject

/-- A list keeps being one, and other values do not become lists. -/
theorem array_of_sameOutline {path : Path} {items : List Json}
    (h : SameOutline first second path) (hitems : first.at? path = some (.array items)) :
    ∃ others, second.at? path = some (.array others) := by
  rw [SameOutline, hitems] at h
  cases hsecond : second.at? path with
  | none => simp [hsecond] at h
  | some found =>
      cases found with
      | array others => exact ⟨others, rfl⟩
      | object | null | bool | number | string => simp [hsecond, Json.outline] at h

theorem length_of_mem_edges {passes : Json → Bool} {place : Path}
    (h : place ∈ (itemPlaces edges passes).map fun place => "edges" :: (place ++ ["node"])) :
    place.length = 3 := by
  obtain ⟨item, hitem, rfl⟩ := List.mem_map.mp h
  obtain ⟨index, edge, -, -, rfl⟩ := mem_itemPlaces.mp hitem
  rfl

theorem places_object_congr {more : Object}
    (h : ∀ path, Outside (info.places (.object members)) path →
      SameOutline (.object members) (.object more) path) :
    info.places (.object members) = info.places (.object more) := by
  have hat : ∀ members : Object, (Json.object members).at? ["edges"] =
      Assoc.get? "edges" members := fun members => Json.at?_singleton _ _
  cases hpaginate : info.paginate with
  | false => simp [places, hpaginate]
  | true =>
      by_cases hlist : ∃ edges, Assoc.get? "edges" members = some (.array edges)
      · obtain ⟨edges, hedges⟩ := hlist
        have houtside : ∀ path : Path, path.length ≤ 3 →
            Outside (info.places (.object members)) path := by
          intro path hpath
          apply Json.outside_of_length_le
          intro place hplace
          rw [places_of_edges hpaginate hedges] at hplace
          rwa [length_of_mem_edges hplace]
        have hfirst : (Json.object members).at? ["edges"] = some (.array edges) := by
          rw [hat, hedges]
        obtain ⟨others, hsecond⟩ :=
          array_of_sameOutline (h ["edges"] (houtside _ (by simp))) hfirst
        rw [hat] at hsecond
        rw [places_of_edges hpaginate hedges, places_of_edges hpaginate hsecond,
          places_edges_congr hedges hsecond
            (fun index => h _ (houtside _ (by simp)))
            (fun index => h _ (houtside _ (by simp)))]
      · have hmore : ¬ ∃ others, Assoc.get? "edges" more = some (.array others) := by
          rintro ⟨others, hothers⟩
          have hsecond : (Json.object more).at? ["edges"] = some (.array others) := by
            rw [hat, hothers]
          have hsame := h ["edges"] (by simp [places_of_no_edges hpaginate hlist, Outside])
          obtain ⟨edges, hedges⟩ := array_of_sameOutline hsame.symm hsecond
          exact hlist ⟨edges, (hat members).symm.trans hedges⟩
        rw [places_of_no_edges hpaginate hlist, places_of_no_edges hpaginate hmore]

/-- The places are told by the outlines outside of the objects. -/
theorem places_congr
    (h : ∀ path, Outside (info.places first) path → SameOutline first second path) :
    info.places first = info.places second := by
  have hroot : first.outline = second.outline :=
    Option.some.inj (h [] (Json.outside_of_length_le fun place _ => Nat.zero_le _))
  cases first with
  | array items =>
      cases second with
      | array others => exact places_array_congr fun index => h _ (outside_itemPlaces items _ _)
      | object | null | bool | number | string => simp [Json.outline] at hroot
  | object members =>
      cases second with
      | object more => exact places_object_congr h
      | array | null | bool | number | string => simp [Json.outline] at hroot
  | null | bool | number | string =>
      cases second with
      | array | object => simp [Json.outline] at hroot
      | null | bool | number | string => rfl

end Outlines

end TableInfo

/-- The paths of a table's objects in the value at a path. -/
def objectPaths (data : Json) (path : Path) (info : TableInfo) : List Path :=
  (((data.at? path).map info.places).getD []).map fun place => path ++ place

theorem objectsAt_ofPath (data : Json) (path : Path) (info : TableInfo) :
    objectsAt data (ofPath path) info = (objectPaths data path info).map ofPath := by
  rw [objectsAt, objectPaths, Json.resolve?_ofPath, List.map_map]
  cases data.at? path with
  | none => rfl
  | some value =>
      cases value with
      | array items => exact pointersOf_ofPath path items _
      | object members =>
          simp only [Option.map_some, Option.getD_some]
          cases hpaginate : info.paginate with
          | false => simp [TableInfo.places, hpaginate]
          | true =>
              by_cases hlist : ∃ edges, Assoc.get? "edges" members = some (.array edges)
              · obtain ⟨edges, hedges⟩ := hlist
                simp only [TableInfo.places_of_edges hpaginate hedges, hedges, if_true]
                rw [Json.Pointer.child_ofPath, pointersOf_ofPath, List.map_map, List.map_map]
                apply List.map_congr_left
                intro place _
                simp
              · rw [TableInfo.places_of_no_edges hpaginate hlist, List.map_nil, if_pos rfl]
                split
                · rename_i edges hedges
                  exact absurd ⟨edges, hedges⟩ hlist
                · rfl
      | null | bool | number | string => rfl

theorem pairwise_objectPaths (data : Json) (path : Path) (info : TableInfo) :
    (objectPaths data path info).Pairwise Apart := by
  apply List.Pairwise.map (fun place : Path => path ++ place)
    (fun _ _ => (Json.apart_append_iff path).mpr)
  cases data.at? path with
  | none => exact List.Pairwise.nil
  | some value => exact info.pairwise_places value

theorem mem_objectPaths {data : Json} {path other : Path} {info : TableInfo} :
    other ∈ objectPaths data path info ↔
      ∃ value, data.at? path = some value ∧ ∃ place ∈ info.places value, other = path ++ place := by
  cases hat : data.at? path with
  | none => simp [objectPaths, hat]
  | some value => simp [objectPaths, hat, eq_comm]

theorem prefix_of_mem_objectPaths {data : Json} {path other : Path} {info : TableInfo}
    (h : other ∈ objectPaths data path info) : path <+: other := by
  obtain ⟨value, -, place, -, rfl⟩ := mem_objectPaths.mp h
  exact List.prefix_append path place

end JoinPlan.Plan
