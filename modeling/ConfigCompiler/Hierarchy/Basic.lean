import ConfigCompiler.Digest.Field
import ConfigCompiler.Value.Entries

/-!
# Hierarchies

A hierarchy says which children each node has, in order. Every identifier named in it is a node; one
that was never declared has no children. `Hierarchy.descendants` walks everything below a node in
pre-order, each node once.
-/

namespace ConfigCompiler

/-- The children of each node; built by `Hierarchy.build`, which admits no cycles. -/
structure Hierarchy where
  nodes : Entries (List String)

namespace Hierarchy

def empty : Hierarchy := ⟨[]⟩

def contains (h : Hierarchy) (id : String) : Bool := h.nodes.contains id

/-- The children of a node, or `none` for what is no node. -/
def children? (h : Hierarchy) (id : String) : Option (List String) := h.nodes.get? id

def size (h : Hierarchy) : Nat := h.nodes.length

/-! ## Descendants -/

/-- The nodes that are not among those seen. -/
def unseen (h : Hierarchy) (seen : List String) : List String :=
  (h.nodes.map (·.1)).filter (!seen.contains ·)

theorem length_unseen_le (h : Hierarchy) (seen : List String) (id : String) :
    (h.unseen (seen ++ [id])).length ≤ (h.unseen seen).length := by
  unfold unseen
  induction h.nodes.map (·.1) with
  | nil => simp
  | cons x xs ih =>
    by_cases hx : x ∈ seen <;> by_cases hi : x = id <;> simp_all
    omega

theorem length_unseen_lt (h : Hierarchy) {seen : List String} {id : String}
    (hn : id ∈ h.nodes.map (·.1)) (hs : id ∉ seen) :
    (h.unseen (seen ++ [id])).length < (h.unseen seen).length := by
  unfold unseen
  revert hn
  generalize h.nodes.map (·.1) = names
  induction names with
  | nil => simp
  | cons x xs ih =>
    intro hn
    have hle : (xs.filter (!(seen ++ [id]).contains ·)).length ≤
        (xs.filter (!seen.contains ·)).length := by
      have := length_unseen_le ⟨xs.map fun x => (x, [])⟩ seen id
      simpa [unseen, List.map_map, Function.comp_def] using this
    by_cases hi : x = id
    · subst hi; simp [hs] at hle ⊢; omega
    · have hx : id ∈ xs := by
        rcases List.mem_cons.1 hn with rfl | hx
        · exact absurd rfl hi
        · exact hx
      have := ih hx
      by_cases hx : x ∈ seen <;> simp_all

theorem mem_names_of_children? {h : Hierarchy} {id : String} {kids : List String}
    (hk : h.children? id = some kids) : id ∈ h.nodes.map (·.1) := by
  unfold children? Entries.get? at hk
  revert hk
  generalize h.nodes = nodes
  induction nodes with
  | nil => simp
  | cons e es ih =>
    intro hk
    obtain ⟨x, ks⟩ := e
    by_cases hx : id = x
    · simp [hx]
    · rw [List.lookup_cons, show (id == x) = false by simpa using hx] at hk
      simp [ih hk]

/--
Visits the nodes on a stack, first one first, each followed by its children; a node already seen is
passed over.
-/
def visit (h : Hierarchy) (seen stack : List String) : List String :=
  match stack with
  | [] => seen
  | id :: stack =>
    if hs : id ∈ seen then visit h seen stack
    else match hk : h.children? id with
      | some kids =>
        have := length_unseen_lt h (mem_names_of_children? hk) hs
        visit h (seen ++ [id]) (kids ++ stack)
      | none =>
        have := length_unseen_le h seen id
        visit h (seen ++ [id]) stack
termination_by ((h.unseen seen).length, stack.length)
decreasing_by
  · exact .right _ (by simp)
  · exact .left _ _ this
  · exact .right' _ this (by simp)

/-- Everything below a node in pre-order, each node once, or `none` for what is no node. -/
def descendants? (h : Hierarchy) (id : String) : Option (List String) :=
  (h.children? id).map (h.visit [])

/-! ## Digest -/

def digestDomain : String := "strata.hierarchy.v1"

/-- The nodes with children in the order of their names; the others leave no trace in the digest. -/
def parents (h : Hierarchy) : Entries (List String) :=
  Entries.sorted (h.nodes.filter fun e => !e.2.isEmpty)

def parentFields (parent : String) (kids : List String) : List Digest.Field :=
  [.text parent, .seqHeader kids.length] ++ kids.map .text

def fields (h : Hierarchy) : List Digest.Field :=
  .mapHeader h.parents.length :: h.parents.flatMap fun e => parentFields e.1 e.2

def digest (h : Hierarchy) : Digest := Digest.ofFields digestDomain h.fields

end Hierarchy

end ConfigCompiler
