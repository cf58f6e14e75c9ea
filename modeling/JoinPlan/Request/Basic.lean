import JoinPlan.Assoc
import JoinPlan.Schema.Builder

/-!
# Requests

A request names a type and the field selected on it, every occurrence of the
field with its own selections, and the fragments these may spread.  Fragments
are selections under a name, applied where a type matches their condition.

A fragment may be spread below itself, as long as following it comes to an end:
on the way it is met on other types, and on some of them it does not apply.
-/

namespace JoinPlan

inductive Selection
  | field (name : String) (args : Arguments) (selections : List Selection)
  /-- A fragment without a name; one without a condition applies to every type. -/
  | inline (condition : Option String) (selections : List Selection)
  | spread (fragment : String)

/-- One occurrence of the requested field. -/
structure RequestedField where
  name : String
  args : Arguments
  selections : List Selection

structure Fragment where
  condition : String
  selections : List Selection

/-- The fragments of a request, by name. -/
abbrev Fragments := List (String × Fragment)

namespace Fragments

/-- How often each fragment may be followed on one way down a request. -/
def repetitionLimit : Nat := 1000

/-- How deep fragments are followed into each other.  Fragments that do not spread
each other in a circle go no deeper than their number. -/
def depth (fragments : Fragments) : Nat := fragments.length * repetitionLimit

def named? (fragments : Fragments) (name : String) : Option Fragment :=
  Assoc.get? name fragments

end Fragments

structure Request where
  parentType : String
  fields : List RequestedField
  fragments : Fragments

end JoinPlan
