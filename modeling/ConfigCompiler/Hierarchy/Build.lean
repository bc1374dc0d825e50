import ConfigCompiler.Hierarchy.Basic
import ConfigCompiler.Pattern.Basic

/-!
# Building hierarchies

Declarations of parents with their children become a hierarchy unless a parent is declared twice, an
identifier is not admitted, or some node is below itself.
-/

namespace ConfigCompiler

inductive HierarchyError where
  | cycle (node : String)
  | duplicateNode (node : String)
  | invalidId (id : String)
  deriving DecidableEq, Repr

namespace HierarchyError

def message : HierarchyError → String
  | cycle node => "hierarchy contains a cycle through " ++ Text.quoted node
  | duplicateNode node => "hierarchy node " ++ Text.quoted node ++ " declared twice"
  | invalidId id => "invalid hierarchy identifier " ++ Text.quoted id

end HierarchyError

namespace Hierarchy

/-- Whether an identifier is admitted: not if it is empty, a wildcard or a token for a node, or has a dot. -/
def isValidId (id : String) : Bool :=
  match id.toList with
  | [] => false
  | c :: cs =>
    (c :: cs) != [Segment.wildcardChar] && c != Segment.sigil && !(c :: cs).contains Key.separator

/-! ## Cycles -/

theorem length_unseen_mono (h : Hierarchy) {seen seen' : List String} (hs : ∀ id ∈ seen, id ∈ seen') :
    (h.unseen seen').length ≤ (h.unseen seen).length := by
  rw [unseen, unseen, ← List.countP_eq_length_filter, ← List.countP_eq_length_filter]
  refine List.countP_mono_left fun id _ hid => ?_
  simp only [Bool.not_eq_true', List.contains_eq_mem, decide_eq_false_iff_not] at hid ⊢
  exact fun h => hid (hs id h)

/-- The nodes of a path, its last one first, each with the children that are still to be tried. -/
abbrev Trail := List (String × List String)

/-- The children that are still to be tried count twice, since each may become a node of the trail. -/
def untried : Trail → Nat
  | [] => 0
  | (_, kids) :: trail => 2 * kids.length + 1 + untried trail

/--
Goes from the last node of a path to a child and, where no child is left, back up. `path` holds the nodes of
the trail and `done` those that were left for good. Answers these in the end, or the node that closes a cycle.
-/
def search (h : Hierarchy) (done path : List String) (trail : Trail) : Except String (List String) :=
  match trail with
  | [] => .ok done
  | (id, []) :: trail => search h (id :: done) (path.erase id) trail
  | (id, kid :: kids) :: trail =>
    if kid ∈ path then .error kid
    else if kid ∈ done then search h done path ((id, kids) :: trail)
    else search h done (kid :: path) ((kid, (h.children? kid).getD []) :: (id, kids) :: trail)
termination_by ((h.unseen (done ++ path)).length, untried trail)
decreasing_by
  · refine .right' _ (h.length_unseen_mono fun id' hm => ?_) (by simp [untried])
    by_cases hid : id' = id
    · simp [hid]
    · simpa [hid, List.mem_erase_of_ne hid] using hm
  · exact .right _ (by simp [untried])
  · rename_i hpath hdone
    have hle : (h.unseen (done ++ kid :: path)).length ≤ (h.unseen (done ++ path ++ [kid])).length :=
      h.length_unseen_mono fun id' hm => by simpa [or_comm, or_left_comm] using hm
    cases hk : h.children? kid with
    | some ks =>
      have hlt : (h.unseen (done ++ path ++ [kid])).length < (h.unseen (done ++ path)).length :=
        h.length_unseen_lt (mem_names_of_children? hk) (by simp [hpath, hdone])
      exact .left _ _ (by omega)
    | none =>
      have hle' := h.length_unseen_le (done ++ path) kid
      exact .right' _ (by omega) (by simp [untried]; omega)

/-- Searches from each root that is not done yet. -/
def searchFrom (h : Hierarchy) (done : List String) : List String → Except String (List String)
  | [] => .ok done
  | root :: roots =>
    if root ∈ done then searchFrom h done roots
    else do
      let done ← h.search done [root] [(root, (h.children? root).getD [])]
      searchFrom h done roots

/-! ## Construction -/

/-- The declared nodes with each child once, then those that are named as children only. -/
def nodesOf (declared : List (String × List String)) : Entries (List String) :=
  let nodes := declared.map fun e => (e.1, e.2.eraseDups)
  let names := nodes.map (·.1)
  let others := (nodes.flatMap (·.2)).eraseDups.filter (!names.contains ·)
  nodes ++ others.map fun id => (id, [])

/-- The identifiers that are named, each parent before its children. -/
def named (declared : List (String × List String)) : List String := declared.flatMap fun e => e.1 :: e.2

/-- Builds what is declared; the nodes are searched for cycles in the order of `roots`. -/
def buildIn (roots : List String) (declared : List (String × List String)) :
    Except HierarchyError Hierarchy :=
  match Entries.firstRepeated? [] declared with
  | some node => .error (.duplicateNode node)
  | none =>
    match (named declared).find? (!isValidId ·) with
    | some id => .error (.invalidId id)
    | none =>
      match searchFrom ⟨nodesOf declared⟩ [] roots with
      | .error node => .error (.cycle node)
      | .ok _ => .ok ⟨nodesOf declared⟩

/-- The order of the search decides only through which of its nodes a cycle is reported. -/
def build (declared : List (String × List String)) : Except HierarchyError Hierarchy :=
  buildIn ((nodesOf declared).map (·.1)) declared

end Hierarchy

end ConfigCompiler
