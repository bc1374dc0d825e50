/-!
# Binary search

Finds an element of a sorted array by comparing elements with what is sought.
-/

namespace ConfigCompiler.Search

variable {α : Type}

/-- The element between `low` and `high` that `probe` says is the one sought. -/
def between? (a : Array α) (probe : α → Ordering) (low high : Nat) : Option α :=
  if low < high then
    let middle := low + (high - low) / 2
    match a[middle]? with
    | none => none
    | some x => match probe x with
      | .lt => between? a probe (middle + 1) high
      | .gt => between? a probe low middle
      | .eq => some x
  else none
termination_by high - low

/-- The entry of a key in an array of entries sorted by their keys. -/
def entry? {κ : Type} [Ord κ] (entries : Array (κ × α)) (key : κ) : Option α :=
  (between? entries (fun e => compare e.1 key) 0 entries.size).map (·.2)

end ConfigCompiler.Search
