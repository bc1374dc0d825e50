import ConfigCompiler.Binary64.Basic

/-!
# Documents

The tree that a JSON or TOML text denotes, before anything is asked of it. A table keeps its entries
as they were written, repeated keys included.
-/

namespace ConfigCompiler

inductive Document where
  | null
  | bool (b : Bool)
  | int (i : Int)
  | float (x : Binary64)
  | text (s : String)
  /-- What no setting is read from: a date, a time of day, a numeral without a value. -/
  | other
  | list (items : List Document)
  | table (entries : List (String × Document))

instance : Inhabited Document := ⟨.null⟩

end ConfigCompiler
