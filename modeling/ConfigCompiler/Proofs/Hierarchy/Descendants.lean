import Mathlib.Logic.Relation
import ConfigCompiler.Proofs.Hierarchy.Digest

/-!
# What is below a node

A walk finds what was seen before and what can be reached from the stack by going from nodes to their children:
nothing else (`reachable_of_mem_visit`), and all of it, since what it has found contains the stack
(`subset_visit`) and in the end the children of all its nodes (`visit_closed`). The descendants of a node are
therefore what can be reached from it in one step or more (`mem_descendants_iff`).
-/

namespace ConfigCompiler.Hierarchy

/-- The second node is a child of the first one. -/
def Child (h : Hierarchy) (id kid : String) : Prop := kid ∈ h.kids id

variable {h : Hierarchy}

theorem reachable_of_mem_visit {seen stack : List String} {t : String} (ht : t ∈ h.visit seen stack) :
    t ∈ seen ∨ ∃ s ∈ stack, Relation.ReflTransGen h.Child s t := by
  induction seen, stack using h.visit_induction with
  | nil seen =>
    rw [visit] at ht
    exact .inl ht
  | skip seen id stack hs ih =>
    rw [visit_cons, if_pos hs] at ht
    rcases ih ht with hseen | ⟨s, hmem, hreach⟩
    · exact .inl hseen
    · exact .inr ⟨s, List.mem_cons_of_mem id hmem, hreach⟩
  | push seen id stack hs ih =>
    rw [visit_cons, if_neg hs] at ht
    rcases ih ht with hseen | ⟨s, hmem, hreach⟩
    · rcases List.mem_append.1 hseen with hseen | hid
      · exact .inl hseen
      · exact .inr ⟨id, List.mem_cons_self, List.mem_singleton.1 hid ▸ .refl⟩
    · rcases List.mem_append.1 hmem with hkid | hmem
      · exact .inr ⟨id, List.mem_cons_self, .head hkid hreach⟩
      · exact .inr ⟨s, List.mem_cons_of_mem id hmem, hreach⟩

theorem subset_visit {seen stack : List String} {t : String} (ht : t ∈ seen ∨ t ∈ stack) :
    t ∈ h.visit seen stack := by
  induction seen, stack using h.visit_induction with
  | nil seen =>
    rw [visit]
    exact ht.resolve_right List.not_mem_nil
  | skip seen id stack hs ih =>
    rw [visit_cons, if_pos hs]
    apply ih
    rcases ht with hseen | hmem
    · exact .inl hseen
    · rcases List.mem_cons.1 hmem with rfl | hmem
      · exact .inl hs
      · exact .inr hmem
  | push seen id stack hs ih =>
    rw [visit_cons, if_neg hs]
    apply ih
    simp only [List.mem_append, List.mem_cons] at ht ⊢
    tauto

/-- If all children of the nodes seen are seen or on the stack, what is found contains all children. -/
theorem visit_closed {seen stack : List String}
    (hc : ∀ id ∈ seen, ∀ kid ∈ h.kids id, kid ∈ seen ∨ kid ∈ stack) {id kid : String}
    (hid : id ∈ h.visit seen stack) (hkid : kid ∈ h.kids id) : kid ∈ h.visit seen stack := by
  induction seen, stack using h.visit_induction with
  | nil seen =>
    rw [visit] at hid ⊢
    exact (hc id hid kid hkid).resolve_right List.not_mem_nil
  | skip seen node stack hs ih =>
    rw [visit_cons, if_pos hs] at hid ⊢
    refine ih (fun id hid kid hkid => ?_) hid
    rcases hc id hid kid hkid with hseen | hmem
    · exact .inl hseen
    · rcases List.mem_cons.1 hmem with rfl | hmem
      · exact .inl hs
      · exact .inr hmem
  | push seen node stack hs ih =>
    rw [visit_cons, if_neg hs] at hid ⊢
    refine ih (fun id hid kid hkid => ?_) hid
    simp only [List.mem_append, List.mem_singleton]
    rcases List.mem_append.1 hid with hid | hid
    · have := hc id hid kid hkid
      rw [List.mem_cons] at this
      tauto
    · rw [List.mem_singleton.1 hid] at hkid
      exact .inr (.inl hkid)

/-- The descendants of a node are its children, their children, and so on. -/
theorem mem_descendants_iff {id t : String} :
    t ∈ h.visit [] (h.kids id) ↔ Relation.TransGen h.Child id t := by
  constructor
  · intro ht
    rcases reachable_of_mem_visit ht with hseen | ⟨s, hs, hreach⟩
    · exact absurd hseen List.not_mem_nil
    · exact .head' hs hreach
  · intro ht
    induction ht with
    | single hkid => exact subset_visit (.inr hkid)
    | tail _ hkid ih => exact visit_closed (fun id hid => absurd hid List.not_mem_nil) ih hkid

end ConfigCompiler.Hierarchy
