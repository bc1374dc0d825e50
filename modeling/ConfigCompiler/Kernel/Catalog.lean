import ConfigCompiler.Kernel.Error
import ConfigCompiler.View.Basic

/-!
# Catalogs

The passes and views that a kernel knows, in the order in which they were added. A name is added once.
-/

namespace ConfigCompiler

/-- What the items of a catalog are found by. -/
class Named (α : Type) where
  name : α → String

instance {H : Type} : Named (Pass H) := ⟨Pass.name⟩

instance : Named View := ⟨View.name⟩

abbrev Catalog (α : Type) := List α

namespace Catalog

section

variable {α : Type} [Named α]

def find? (c : Catalog α) (name : String) : Option α := List.find? (Named.name · == name) c

def knows (c : Catalog α) (name : String) : Bool := (c.find? name).isSome

def names (c : Catalog α) : List String := c.map Named.name

/-- One more item, or `taken` if its name is known already. -/
def add (c : Catalog α) (taken : String → KernelError) (x : α) : Except KernelError (Catalog α) :=
  if c.knows (Named.name x) then .error (taken (Named.name x)) else .ok (c ++ [x])

/-- Adds items one after another and says for each why it was refused, if it was. -/
def addAll (c : Catalog α) (taken : String → KernelError) : List α →
    Catalog α × List (Option KernelError)
  | [] => (c, [])
  | x :: xs =>
    match c.add taken x with
    | .ok longer =>
      let (c, refusals) := addAll longer taken xs
      (c, none :: refusals)
    | .error e =>
      let (c, refusals) := addAll c taken xs
      (c, some e :: refusals)

end

/-! ## Passes -/

variable {H : Type}

def addPass (c : Catalog (Pass H)) (pass : Pass H) : Except KernelError (Catalog (Pass H)) :=
  c.add .duplicatePass pass

/-- The passes of names in their order, after those already `resolved`. -/
def resolveAfter (c : Catalog (Pass H)) (resolved : List (Pass H)) :
    List String → Except KernelError (List (Pass H))
  | [] => .ok resolved
  | name :: names =>
    if resolved.any (·.name == name) then .error (.duplicatePass name)
    else match c.find? name with
      | none => .error (.unknownPass name)
      | some pass => c.resolveAfter (resolved ++ [pass]) names

/-- The pipeline of a list of names, each of which is known and listed once. -/
def resolve (c : Catalog (Pass H)) (names : List String) : Except KernelError (List (Pass H)) :=
  c.resolveAfter [] names

/-! ## Views -/

def addView (c : Catalog View) (view : View) : Except KernelError (Catalog View) :=
  c.add .duplicateView view

def view (c : Catalog View) (name : String) : Except KernelError View :=
  match c.find? name with
  | some view => .ok view
  | none => .error (.unknownView name)

end Catalog

end ConfigCompiler
