/-!
# Maps in insertion order

A map is the list of its entries, in the order in which their keys were first bound. Every
operation here keeps the keys distinct.
-/

namespace ConfigCompiler

/-- The entries of a map in insertion order. -/
abbrev Entries (α : Type) := List (String × α)

namespace Entries

variable {α : Type}

/-- Binds a key: in place if it is there, at the end if it is not. -/
def insert (entries : Entries α) (key : String) (value : α) : Entries α :=
  if entries.any (·.1 == key) then
    entries.map fun e => if e.1 == key then (key, value) else e
  else entries ++ [(key, value)]

/-- Unbinds a key; the others keep their order. -/
def erase (entries : Entries α) (key : String) : Entries α := entries.filter (·.1 != key)

def get? (entries : Entries α) (key : String) : Option α := List.lookup key entries

def contains (entries : Entries α) (key : String) : Bool := entries.any (·.1 == key)

/-- The bindings of a list of pairs, a later one replacing an earlier one of its key in place. -/
def ofPairs (pairs : List (String × α)) : Entries α :=
  pairs.foldl (fun entries e => entries.insert e.1 e.2) []

/-- The entries in ascending order of their keys. -/
def sorted (entries : Entries α) : Entries α := entries.mergeSort fun a b => decide (a.1 ≤ b.1)

/-- The first key that is bound again, where `before` are the keys bound so far. -/
def firstRepeated? : (before : List String) → List (String × α) → Option String
  | _, [] => none
  | before, e :: es => if e.1 ∈ before then some e.1 else firstRepeated? (before ++ [e.1]) es

end Entries

end ConfigCompiler
