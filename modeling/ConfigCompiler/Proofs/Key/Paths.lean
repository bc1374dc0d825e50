import ConfigCompiler.Key.Basic

/-!
# Paths above and below a key

A key is below a path if it begins with the path and a dot (`Key.IsBelow`). The paths above a key are just
those that it is below (`Key.mem_ancestors`), and what lies between two keys below a path is below it too
(`Key.IsBelow.between`): whatever the other characters are, keys with a common beginning stand together.
-/

namespace ConfigCompiler.Key

/-! ## On lists of characters -/

theorem mem_beforeDots {p cs : List Char} : p ∈ beforeDots cs ↔ p ++ [separator] <+: cs := by
  induction cs generalizing p with
  | nil => simp [beforeDots]
  | cons c cs ih =>
    cases p with
    | nil =>
      simp only [beforeDots, List.nil_append, List.cons_prefix_cons, List.nil_prefix, and_true]
      split
      · rename_i hc
        simp [hc]
      · rename_i hc
        simp [Ne.symm hc]
    | cons d p =>
      have hmem : d :: p ∈ (beforeDots cs).map (c :: ·) ↔ d = c ∧ p ++ [separator] <+: cs := by
        simp only [List.mem_map, List.cons.injEq]
        constructor
        · rintro ⟨q, hq, rfl, rfl⟩
          exact ⟨rfl, ih.1 hq⟩
        · rintro ⟨rfl, hp⟩
          exact ⟨p, ih.2 hp, rfl, rfl⟩
      unfold beforeDots
      rw [List.cons_append, List.cons_prefix_cons]
      split
      · exact List.mem_cons.trans (by rw [hmem, or_iff_right (List.cons_ne_nil d p)])
      · exact hmem

theorem startsWithPath_iff {p cs : List Char} :
    startsWithPath p cs = true ↔ cs = p ∨ p ++ [separator] <+: cs := by
  induction p generalizing cs with
  | nil =>
    cases cs with
    | nil => simp [startsWithPath]
    | cons c cs =>
      rw [startsWithPath, beq_iff_eq, List.nil_append, List.cons_prefix_cons, eq_comm]
      exact (and_iff_left List.nil_prefix).symm.trans (or_iff_right (List.cons_ne_nil c cs)).symm
  | cons d p ih =>
    cases cs with
    | nil => simp [startsWithPath]
    | cons c cs =>
      simp only [startsWithPath, Bool.and_eq_true, beq_iff_eq, ih, List.cons_append,
        List.cons_prefix_cons, List.cons.injEq]
      constructor
      · rintro ⟨rfl, h⟩
        simpa using h
      · rintro (⟨rfl, rfl⟩ | ⟨rfl, h⟩)
        · exact ⟨rfl, .inl rfl⟩
        · exact ⟨rfl, .inr h⟩

/-- Between two lists that begin with `p` there are only lists that begin with `p`. -/
theorem prefix_of_between {p a b c : List Char} (ha : p <+: a) (hc : p <+: c) (hab : ¬ b < a)
    (hbc : ¬ c < b) : p <+: b := by
  induction p generalizing a b c with
  | nil => exact List.nil_prefix
  | cons d p ih =>
    obtain ⟨a, rfl⟩ := ha
    obtain ⟨c, rfl⟩ := hc
    rw [List.cons_append] at hab hbc
    cases b with
    | nil => exact absurd (List.nil_lt_cons d (p ++ a)) hab
    | cons e b =>
      rw [List.cons_lt_cons_iff, not_or, not_and] at hab hbc
      -- the first character is squeezed between `d` and `d`
      have hde : d = e := Char.le_antisymm (Char.not_lt.1 hab.1) (Char.not_lt.1 hbc.1)
      subst hde
      have hb := ih (List.prefix_append p a) (List.prefix_append p c) (hab.2 rfl) (hbc.2 rfl)
      exact List.cons_prefix_cons.2 ⟨rfl, hb⟩

/-! ## Keys -/

/-- A key begins with a path and a dot. -/
def IsBelow (k : Key) (path : String) : Prop := path.toList ++ [separator] <+: k.text.toList

instance (k : Key) (path : String) : Decidable (k.IsBelow path) :=
  inferInstanceAs (Decidable (_ <+: _))

theorem mem_ancestors {k : Key} {path : String} : path ∈ k.ancestors ↔ k.IsBelow path := by
  unfold ancestors IsBelow
  rw [← mem_beforeDots, List.mem_map]
  constructor
  · rintro ⟨p, hp, rfl⟩
    rwa [String.toList_ofList]
  · intro h
    exact ⟨path.toList, h, String.ofList_toList⟩

theorem isAtOrBelow_iff {k : Key} {path : String} :
    k.isAtOrBelow path = true ↔ k.text = path ∨ k.IsBelow path := by
  rw [isAtOrBelow, startsWithPath_iff, String.toList_inj, IsBelow]

theorem IsBelow.ne {k : Key} {path : String} (h : k.IsBelow path) : k.text ≠ path := by
  intro heq
  have hlen := h.length_le
  simp only [List.length_append, List.length_singleton, heq] at hlen
  omega

/-- Between two keys below a path there are only keys below it. -/
theorem IsBelow.between {a b c : Key} {path : String} (ha : a.IsBelow path) (hc : c.IsBelow path)
    (hab : a.text ≤ b.text) (hbc : b.text ≤ c.text) : b.IsBelow path :=
  prefix_of_between ha hc hab hbc

end ConfigCompiler.Key
