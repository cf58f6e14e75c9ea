import JoinPlan.Proofs.Data.Repeats

/-!
# Data as the rows of a join

The rows that hold nested data: an object has one row for every choice of a row from
each of its properties, and where no object is there is one row of nulls.  Data
conforms to a shape when its objects have exactly the properties of the shape and can
be told apart by the first of them.
-/

namespace JoinPlan

/-- Every object of the shape starts with the column that identifies it. -/
inductive Property.WellFormed : Property → Prop
  | column (aliasName : String) : WellFormed (.column aliasName)
  | object {many : Bool} {name aliasName : String} {rest : List (String × Property)}
      (hrest : ∀ entry ∈ rest, entry.2.WellFormed) :
      WellFormed (.object many ((name, .column aliasName) :: rest))

structure Shape.WellFormed (shape : Shape) : Prop where
  property : (Property.object shape.many shape.properties).WellFormed
  nodup_aliases : shape.aliases.Nodup

/-! ### Conforming data -/

namespace Shape

/-- The value of an object's first property. -/
def identity (properties : List (String × Property)) (object : Json) : Json :=
  (properties.head?.map fun entry => object.getD entry.1).getD .null

/-- The object has the properties and nothing else. -/
def HoldsExactly (properties : List (String × Property)) (object : Json) : Prop :=
  object = .ofMembers (properties.map fun entry => (entry.1, object.getD entry.1))

end Shape

/-- A column holds any value.  A list holds objects, and otherwise there is an object or
null; objects are told apart by their identities, none of which is null. -/
inductive Property.Conforms : Property → Json → Prop
  | column (aliasName : String) (value : Json) : Conforms (.column aliasName) value
  | object {many : Bool} {properties : List (String × Property)} {objects : List Json}
      (hone : many = false → objects.length ≤ 1)
      (hexactly : ∀ object ∈ objects, Shape.HoldsExactly properties object)
      (hproperties : ∀ object ∈ objects, ∀ entry ∈ properties,
        entry.2.Conforms (object.getD entry.1))
      (hnotNull : ∀ object ∈ objects, Shape.identity properties object ≠ .null)
      (hdistinct : (objects.map (Shape.identity properties)).Nodup) :
      Conforms (.object many properties) (Shape.gather many objects)

def Shape.Conforms (shape : Shape) (data : Json) : Prop :=
  (Property.object shape.many shape.properties).Conforms data

/-! ### Flat rows -/

namespace Row

/-- Every row of one list with every row of the other. -/
def cross (rows others : List Row) : List Row :=
  rows.flatMap fun row => others.map fun other => row ++ other

/-- A row without any value. -/
def nulls (aliases : List String) : Row :=
  aliases.map fun aliasName => (aliasName, .null)

end Row

/-- The objects of a list, or the object that is not null. -/
def Shape.objectsOf (many : Bool) (value : Json) : List Json :=
  if many then value.array?.getD [] else if value.isNull then [] else [value]

mutual

/-- The rows of a property's value: of a column one, and of a nested value those of its
objects, or one of nulls. -/
def Property.flat : Property → Json → List Row
  | .column aliasName, value => [[(aliasName, value)]]
  | .object many properties, value =>
      match Shape.objectsOf many value with
      | [] => [Row.nulls (propertiesAliases properties)]
      | objects => objects.flatMap (flatObject properties)

/-- The rows of an object: its columns with the rows of its nested properties. -/
def flatObject : List (String × Property) → Json → List Row
  | [], _ => [[]]
  | entry :: rest, object => Row.cross (flatEntry entry object) (flatObject rest object)

def flatEntry : String × Property → Json → List Row
  | (name, property), object => property.flat (object.getD name)

end

/-- The rows of data: those of its objects, one after the other. -/
def Shape.flat (shape : Shape) (data : Json) : List Row :=
  (Shape.objectsOf shape.many data).flatMap (flatObject shape.properties)

/-! ### The columns of flat rows -/

theorem cell_append_left {row : Row} {aliasName : String} (other : Row)
    (h : aliasName ∈ Assoc.keys row) :
    Shape.cell (row ++ other) aliasName = Shape.cell row aliasName := by
  rw [Shape.cell, Shape.cell, Assoc.get?_append_of_mem other h]

theorem cell_append_right {row : Row} {aliasName : String} (other : Row)
    (h : aliasName ∉ Assoc.keys row) :
    Shape.cell (row ++ other) aliasName = Shape.cell other aliasName := by
  rw [Shape.cell, Shape.cell, Assoc.get?_append_of_not_mem other h]

theorem mem_cross {rows others : List Row} {row : Row} :
    row ∈ Row.cross rows others ↔ ∃ left ∈ rows, ∃ right ∈ others, row = left ++ right := by
  simp only [Row.cross, List.mem_flatMap, List.mem_map, eq_comm]

theorem cross_ne_nil {rows others : List Row} (hrows : rows ≠ []) (hothers : others ≠ []) :
    Row.cross rows others ≠ [] := by
  obtain ⟨row, hrow⟩ := List.exists_mem_of_ne_nil rows hrows
  obtain ⟨other, hother⟩ := List.exists_mem_of_ne_nil others hothers
  exact List.ne_nil_of_mem (mem_cross.mpr ⟨row, hrow, other, hother, rfl⟩)

theorem flatObject_ne_nil {properties : List (String × Property)} (object : Json)
    (h : ∀ entry ∈ properties, ∀ value, entry.2.flat value ≠ []) :
    flatObject properties object ≠ [] := by
  induction properties with
  | nil => exact List.cons_ne_nil _ _
  | cons entry rest ih =>
      rw [flatObject, flatEntry]
      exact cross_ne_nil (h entry List.mem_cons_self _)
        (ih fun other hother => h other (List.mem_cons_of_mem _ hother))

theorem Property.flat_ne_nil (property : Property) (value : Json) : property.flat value ≠ [] := by
  induction property generalizing value with
  | column aliasName => exact List.cons_ne_nil _ _
  | object many properties ih =>
      rw [flat]
      split
      · exact List.cons_ne_nil _ _
      · rename_i hobjects
        obtain ⟨object, hobject⟩ := List.exists_mem_of_ne_nil _ hobjects
        obtain ⟨row, hrow⟩ := List.exists_mem_of_ne_nil _ (flatObject_ne_nil object ih)
        exact List.ne_nil_of_mem (List.mem_flatMap.mpr ⟨object, hobject, hrow⟩)

theorem keys_of_mem_flatObject {properties : List (String × Property)} {object : Json}
    (h : ∀ entry ∈ properties, ∀ value, ∀ row ∈ entry.2.flat value,
      Assoc.keys row = entry.2.aliases)
    {row : Row} (hrow : row ∈ flatObject properties object) :
    Assoc.keys row = propertiesAliases properties := by
  induction properties generalizing row with
  | nil =>
      obtain rfl := List.mem_singleton.mp hrow
      rfl
  | cons entry rest ih =>
      rw [flatObject, flatEntry] at hrow
      obtain ⟨left, hleft, right, hright, rfl⟩ := mem_cross.mp hrow
      have hfirst := h entry List.mem_cons_self _ left hleft
      have hothers := ih (fun other hother => h other (List.mem_cons_of_mem _ hother)) hright
      rw [Assoc.keys] at hfirst hothers ⊢
      rw [List.map_append, hfirst, hothers, propertiesAliases, entryAliases]

/-- Every row of a value has exactly the columns of its property. -/
theorem Property.keys_of_mem_flat (property : Property) (value : Json) {row : Row}
    (hrow : row ∈ property.flat value) : Assoc.keys row = property.aliases := by
  induction property generalizing value row with
  | column aliasName =>
      obtain rfl := List.mem_singleton.mp hrow
      rfl
  | object many properties ih =>
      rw [flat] at hrow
      split at hrow
      · obtain rfl := List.mem_singleton.mp hrow
        exact Assoc.keys_map_pair _ _
      · obtain ⟨object, -, hrow⟩ := List.mem_flatMap.mp hrow
        exact keys_of_mem_flatObject (fun entry hentry value row => ih entry hentry value) hrow

end JoinPlan
