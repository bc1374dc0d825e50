import Mathlib.Computability.Primrec.List
import Mathlib.Data.List.Permutation
import ConfigCompiler.Expansion.Claims
import ConfigCompiler.Proofs.Expansion.Expander

/-!
# Nodes without children in expansions

The digest of a hierarchy leaves out the nodes without children, but an expansion tells them from what is no
node at all: an `@node` segment fails for both, with different reasons. Nothing else differs. Expanders with
the same children and the same observed keys succeed for the same patterns, with the same paths in the same
order (`paths_toOption`, `expand_toOption`), and so do all claims on keys (`claimAll_toOption`).

`Hierarchy.expansion_of_digest`: nothing but the children counts for a digest, and hierarchies of one digest
expand every configuration to the same keys with the same origins, or both fail.
-/

namespace ConfigCompiler

theorem toOption_eq_iff {ε α : Type} {r r' : Except ε α} :
    r.toOption = r'.toOption ↔ ∀ a, r = .ok a ↔ r' = .ok a := by
  cases r with
  | error e =>
    cases r' with
    | error e' => simp [Except.toOption]
    | ok b => simp [Except.toOption]
  | ok a =>
    cases r' with
    | error e' => simp [Except.toOption]
    | ok b => simp [Except.toOption]

theorem toOption_bind {ε α β : Type} (r : Except ε α) (f : α → Except ε β) :
    (r >>= f).toOption = r.toOption.bind fun a => (f a).toOption := by
  cases r <;> rfl

/-- Either both answers are the same value, or both are errors. -/
theorem same_or_fail {ε α : Type} {r r' : Except ε α} (h : r.toOption = r'.toOption) :
    (∃ a, r = .ok a ∧ r' = .ok a) ∨ ∃ e e', r = .error e ∧ r' = .error e' := by
  cases r with
  | ok a => exact .inl ⟨a, rfl, (toOption_eq_iff.1 h a).1 rfl⟩
  | error e =>
    cases r' with
    | ok a => cases h
    | error e' => exact .inr ⟨e, e', rfl, rfl⟩

namespace Expander

variable {x y : Expander} (hk : ∀ id, x.hierarchy.kids id = y.hierarchy.kids id)
variable (ho : x.observed = y.observed)
include hk ho

theorem options_eq (path : List String) (segment : Segment) : x.options path segment = y.options path segment := by
  cases segment with
  | literal s => rfl
  | node name => rw [options, options, hk, Hierarchy.visit_congr hk]
  | wildcard =>
    have hkids : x.hierarchy.kids = y.hierarchy.kids := funext hk
    simp only [options, siblings, hkids, ho]

theorem extend_toOption (segment : Segment) (ps : List (List String)) :
    (x.extend segment ps).toOption = (y.extend segment ps).toOption := by
  refine toOption_eq_iff.2 fun longer => ?_
  simp only [extend_eq_ok_iff, options_eq hk ho]

theorem paths_toOption (pattern : Pattern) (ps : List (List String)) (segments : List Segment) :
    (x.paths pattern ps segments).toOption = (y.paths pattern ps segments).toOption := by
  induction segments generalizing ps with
  | nil => rfl
  | cons segment segments ih =>
    rw [paths, paths]
    rcases same_or_fail (extend_toOption hk ho segment ps) with ⟨longer, h, h'⟩ | ⟨e, e', h, h'⟩
    · rw [h, h']
      exact ih longer.eraseDups
    · -- the reasons may differ: `y` may know a node without children that `x` does not know
      rw [h, h']
      rfl

theorem expand_toOption (pattern : Pattern) : (x.expand pattern).toOption = (y.expand pattern).toOption := by
  rw [expand, expand, toOption_bind, toOption_bind, paths_toOption hk ho]

end Expander

namespace Expansion

theorem claimAll_toOption {x y : Expander} (hk : ∀ id, x.hierarchy.kids id = y.hierarchy.kids id)
    (ho : x.observed = y.observed) (entries : Array SourceEntry) (overrides : Overrides) (origin : Nat)
    (rest : List SourceEntry) (holders : Holders) :
    (claimAll x entries overrides origin rest holders).toOption =
      (claimAll y entries overrides origin rest holders).toOption := by
  induction rest generalizing origin holders with
  | nil => rfl
  | cons entry rest ih =>
    rw [claimAll, claimAll, toOption_bind, toOption_bind, Expander.expand_toOption hk ho]
    simp only [toOption_bind, ih]

theorem ofEntries_toOption {h h' : Hierarchy} (hk : ∀ id, h.kids id = h'.kids id) (entries : List SourceEntry)
    (overrides : Overrides) :
    (ofEntries h entries overrides).toOption = (ofEntries h' entries overrides).toOption := by
  let x := Expander.ofKeys h (entries.map (·.pattern.text))
  let y := Expander.ofKeys h' (entries.map (·.pattern.text))
  have hclaims : (claimAll x entries.toArray overrides 0 entries ∅).toOption =
      (claimAll y entries.toArray overrides 0 entries ∅).toOption := claimAll_toOption (x := x) (y := y) hk rfl ..
  rw [ofEntries, ofEntries, toOption_bind, toOption_bind, hclaims]

end Expansion

namespace Hierarchy

variable {declared declared' : List (String × List String)} {h h' : Hierarchy}

theorem kids_eq_of_children? (hc : ∀ id ks, ks ≠ [] → (h.children? id = some ks ↔ h'.children? id = some ks))
    (id : String) : h.kids id = h'.kids id := by
  have hle {g g' : Hierarchy} (hc : ∀ ks, ks ≠ [] → g.children? id = some ks → g'.children? id = some ks)
      (hne : g.kids id ≠ []) : g.kids id = g'.kids id := by
    unfold kids at hne ⊢
    cases hg : g.children? id with
    | none => rw [hg] at hne; exact absurd rfl hne
    | some ks =>
      rw [hg, Option.getD_some] at hne
      rw [hc ks hne hg]
  by_cases hne : h.kids id = []
  · by_cases hne' : h'.kids id = []
    · rw [hne, hne']
    · exact (hle (fun ks hks => (hc id ks hks).2) hne').symm
  · exact hle (fun ks hks => (hc id ks hks).1) hne

/--
A digest stands for all that an expansion can succeed with. Hierarchies in which the nodes with children have
the same ones, in the same order, have one digest, however they were declared and whatever other nodes they
know. And if two hierarchies have one digest, then they expand all entries to the same keys with the same
origins or both fail, whatever the entries and the declared pairs; or the byte strings hashed for the two
digests collide.
-/
theorem expansion_of_digest (hb : build declared = .ok h) (hb' : build declared' = .ok h') (hf : h.Fits)
    (hf' : h'.Fits) :
    ((∀ id ks, ks ≠ [] → (h.children? id = some ks ↔ h'.children? id = some ks)) → h.digest = h'.digest) ∧
    (h.digest = h'.digest →
      Digest.Collides (fun b => b = Digest.encode digestDomain h.fields ∨ b = Digest.encode digestDomain h'.fields) ∨
      ∀ entries overrides,
        (∃ expansions, Expansion.ofEntries h entries overrides = .ok expansions ∧
          Expansion.ofEntries h' entries overrides = .ok expansions) ∨
        ∃ e e', Expansion.ofEntries h entries overrides = .error e ∧
          Expansion.ofEntries h' entries overrides = .error e') := by
  have hn := nodup_of_build hb
  have hn' := nodup_of_build hb'
  constructor
  · intro hc
    exact digest_eq_of_kids_eq hn hn' (kids_eq_of_children? hc)
  · intro hd
    refine Classical.or_iff_not_imp_left.2 fun hB entries overrides => ?_
    have hk := kids_eq_of_digest_eq hB ⟨hn, hf.length, hf.sized⟩ ⟨hn', hf'.length, hf'.sized⟩ (.inl rfl)
      (.inr rfl) hd
    exact same_or_fail (Expansion.ofEntries_toOption hk entries overrides)

/-! ## A node without children more -/

/-- One node below another. -/
def edge : Hierarchy := ⟨[("edge", ["east"]), ("east", [])]⟩

/-- The same with a further node. -/
def edgeAndWest : Hierarchy := ⟨[("edge", ["east"]), ("west", []), ("east", [])]⟩

/-- An entry for everything below `west`. -/
def belowWest : SourceEntry := ⟨⟨[.node "west", .literal "x"]⟩, ⟨.replicate 32 1⟩⟩

/-- The further node leaves the digest as it is; an entry that needs its children fails for two reasons. -/
theorem expansion_of_digest_west : build [("edge", ["east"])] = .ok edge ∧
    build [("edge", ["east"]), ("west", [])] = .ok edgeAndWest ∧ edge.Fits ∧ edgeAndWest.Fits ∧
    edge.digest = edgeAndWest.digest ∧
    (Digest.Collides (fun b => b = Digest.encode digestDomain edge.fields ∨
        b = Digest.encode digestDomain edgeAndWest.fields) ∨
      ∀ entries overrides,
        (∃ expansions, Expansion.ofEntries edge entries overrides = .ok expansions ∧
          Expansion.ofEntries edgeAndWest entries overrides = .ok expansions) ∨
        ∃ e e', Expansion.ofEntries edge entries overrides = .error e ∧
          Expansion.ofEntries edgeAndWest entries overrides = .error e') ∧
    Expansion.ofEntries edge [belowWest] .none = .error (.ambiguousPattern "@west.x" "@west" .unknownNode) ∧
    Expansion.ofEntries edgeAndWest [belowWest] .none =
      .error (.ambiguousPattern "@west.x" "@west" .childlessNode) := by
  -- `cbv` goes by the equations of `List.lookup` and `Prod.snd`, which the imports of Mathlib hold
  have hb : build [("edge", ["east"])] = .ok edge := by cbv
  have hb' : build [("edge", ["east"]), ("west", [])] = .ok edgeAndWest := by cbv
  have hf : edge.Fits := ⟨by decide, by unfold Sized; decide⟩
  have hf' : edgeAndWest.Fits := ⟨by decide, by unfold Sized; decide⟩
  have hd : edge.digest = edgeAndWest.digest := by
    refine (expansion_of_digest hb hb' hf hf').1 fun id ks hks => ?_
    unfold children? Entries.get?
    rw [Entries.lookup_eq_some (by decide), Entries.lookup_eq_some (by decide)]
    simp [edge, edgeAndWest, hks]
  exact ⟨hb, hb', hf, hf', hd, (expansion_of_digest hb hb' hf hf').2 hd, by cbv, by cbv⟩

end Hierarchy

end ConfigCompiler
