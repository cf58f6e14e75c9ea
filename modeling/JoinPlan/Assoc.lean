/-!
# Association lists

Objects, shapes, groups and name tables are all lists of keyed entries.  Two
disciplines are used: `insert` keeps the entries sorted by key, which is the
order in which plain objects are written, and `put` keeps the place of the
first entry with a key, which is the order in which a selection names its
properties.  Either way an entry given again replaces the earlier value, so a
look-up sees the last value given.
-/

namespace JoinPlan.Assoc

variable {K V W : Type}

/-- The value of the first entry with this key. -/
def get? [DecidableEq K] (key : K) : List (K × V) → Option V
  | [] => none
  | (k, v) :: rest => if k = key then some v else get? key rest

def contains [DecidableEq K] (key : K) (entries : List (K × V)) : Bool :=
  (get? key entries).isSome

def keys (entries : List (K × V)) : List K :=
  entries.map Prod.fst

/-- Gives `key` the value, at the place of the earlier entry if there is one
and at the end otherwise. -/
def put [DecidableEq K] (key : K) (value : V) : List (K × V) → List (K × V)
  | [] => [(key, value)]
  | (k, v) :: rest =>
      if k = key then (key, value) :: rest else (k, v) :: put key value rest

/-- Gives `key` the value obtained from its present one, appending a new entry
when there is none. -/
def alter [DecidableEq K] (key : K) (change : Option V → V) (entries : List (K × V)) :
    List (K × V) :=
  put key (change (get? key entries)) entries

def erase [DecidableEq K] (key : K) (entries : List (K × V)) : List (K × V) :=
  entries.filter fun entry => entry.1 ≠ key

/-- Gives `key` the value, before the first greater key. -/
def insert (key : String) (value : V) : List (String × V) → List (String × V)
  | [] => [(key, value)]
  | (k, v) :: rest =>
      if k = key then (key, value) :: rest
      else if key < k then (key, value) :: (k, v) :: rest
      else (k, v) :: insert key value rest

/-- The entries sorted by key; of entries with one key the last stands. -/
def sorted (entries : List (String × V)) : List (String × V) :=
  entries.foldl (fun sofar entry => insert entry.1 entry.2 sofar) []

/-- The entries in order of first appearance; of entries with one key the last
value stands. -/
def distinct [DecidableEq K] (entries : List (K × V)) : List (K × V) :=
  entries.foldl (fun sofar entry => put entry.1 entry.2 sofar) []

/-- The items whose key no earlier item has, given the keys seen before. -/
def distinctByFrom [DecidableEq K] (key : W → K) (seen : List K) : List W → List W
  | [] => []
  | item :: rest =>
      if key item ∈ seen then distinctByFrom key seen rest
      else item :: distinctByFrom key (key item :: seen) rest

/-- The items whose key no earlier item has. -/
def distinctBy [DecidableEq K] (key : W → K) (items : List W) : List W :=
  distinctByFrom key [] items

/-- Collects the items under their keys, keys in order of first appearance and
items in their own order.  Items without a key are left out. -/
def group [DecidableEq K] (key? : W → Option K) (items : List W) : List (K × List W) :=
  items.foldl
    (fun groups item =>
      match key? item with
      | none => groups
      | some key => alter key (fun members => members.getD [] ++ [item]) groups)
    []

def mapValues (f : V → W) (entries : List (K × V)) : List (K × W) :=
  entries.map fun entry => (entry.1, f entry.2)

@[simp]
theorem get?_nil [DecidableEq K] (key : K) : get? key ([] : List (K × V)) = none := rfl

theorem get?_put [DecidableEq K] (key other : K) (value : V) (entries : List (K × V)) :
    get? other (put key value entries) =
      if key = other then some value else get? other entries := by
  induction entries with
  | nil => simp [put, get?]
  | cons entry rest ih => grind [put, get?]

theorem get?_insert (key other : String) (value : V) (entries : List (String × V)) :
    get? other (insert key value entries) =
      if key = other then some value else get? other entries := by
  induction entries with
  | nil => simp [insert, get?]
  | cons entry rest ih => grind [insert, get?]

theorem get?_erase [DecidableEq K] (key other : K) (entries : List (K × V)) :
    get? other (erase key entries) = if key = other then none else get? other entries := by
  induction entries with
  | nil => simp [erase]
  | cons entry rest ih => grind [erase, get?]

end JoinPlan.Assoc
