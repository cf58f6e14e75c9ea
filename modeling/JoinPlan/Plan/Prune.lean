import JoinPlan.Alias
import JoinPlan.Plan.Node

/-!
# Merging dependencies

Fields computed from columns may need the same columns.  The dependencies in a
list of children are merged into one node for every table the columns belong to,
at the end of the list; each column occurs once, under an alias asked for again.
Later dependencies come first.
-/

namespace JoinPlan.Plan

/-- Adds names to those needed of a table, each once. -/
def addNames (needed : List String) (names : List String) : List String :=
  names.foldl (fun sofar name => if name ∈ sofar then sofar else sofar ++ [name]) needed

/-- The columns needed among children, by the alias of the table that has them. -/
def neededColumns (nodes : List Node) : List (Option String × List String) :=
  nodes.reverse.foldl
    (fun needed node =>
      match node with
      | .dependencies columns owner =>
          Assoc.alter owner (fun names => addNames (names.getD []) (Assoc.keys columns)) needed
      | _ => needed)
    []

def neededColumn (name : String) : StateM Namespace (String × String) := do
  let aliasName ← modifyGet fun names => names.column name
  pure (name, aliasName)

/-- One node for the columns needed of a table. -/
def mergedNode (needed : Option String × List String) : StateM Namespace Node := do
  let columns ← needed.2.mapM neededColumn
  pure (.dependencies columns needed.1)

mutual

/-- Merges the dependencies at every level below a table. -/
def Table.prune : Table Node → StateM Namespace (Table Node)
  | ⟨info, shared, typed⟩ => do
      let kept ← pruneNodes shared
      let merged ← (neededColumns shared).mapM mergedNode
      let typed ← pruneBuckets typed
      pure ⟨info, kept ++ merged, typed⟩

def Node.prune : Node → StateM Namespace Node
  | .table table => do pure (.table (← table.prune))
  | node => pure node

/-- The nodes other than dependencies, with those of the tables among them merged. -/
def pruneNodes : List Node → StateM Namespace (List Node)
  | [] => pure []
  | .dependencies _ _ :: rest => pruneNodes rest
  | node :: rest => do
      let node ← node.prune
      let rest ← pruneNodes rest
      pure (node :: rest)

def pruneBuckets : List (String × List Node) → StateM Namespace (List (String × List Node))
  | [] => pure []
  | bucket :: rest => do
      let bucket ← pruneBucket bucket
      let rest ← pruneBuckets rest
      pure (bucket :: rest)

def pruneBucket : String × List Node → StateM Namespace (String × List Node)
  | (type, nodes) => do
      let kept ← pruneNodes nodes
      let merged ← (neededColumns nodes).mapM mergedNode
      pure (type, kept ++ merged)

end

end JoinPlan.Plan
