import Mathlib.Data.List.Perm.Basic
import ConfigCompiler.Proofs.Hierarchy.Digest
import ConfigCompiler.Proofs.Pipeline.Outline

/-!
# What a compilation depends on

Two settings are alike (`Setting.Alike`) if their configurations have one digest, their nodes have the same
children, and their policies are the same. Where the order of entries does not matter, runs in settings that are
alike come to the same (`forecast_congr`). A root map in another order is such a case: it has the same digest
(`Value.digest_perm`).
-/

namespace ConfigCompiler

/-! ## Source entries in another order -/

theorem mapM_eq_ok_iff {ε α β : Type} {f : α → Except ε β} {xs : List α} {bs : List β} :
    xs.mapM f = .ok bs ↔ List.Forall₂ (fun x b => f x = .ok b) xs bs := by
  induction xs generalizing bs with
  | nil =>
    rw [List.mapM_nil, List.forall₂_nil_left_iff]
    exact ⟨fun h => by cases h; rfl, fun h => by rw [h]; rfl⟩
  | cons x xs ih =>
    rw [List.mapM_cons, List.forall₂_cons_left_iff]
    constructor
    · intro h
      cases hx : f x with
      | error e => rw [hx] at h; cases h
      | ok b =>
        rw [hx] at h
        cases hxs : xs.mapM f with
        | error e => simp only [bind, Except.bind, hxs] at h; cases h
        | ok rest =>
          simp only [bind, Except.bind, hxs, pure, Except.pure, Except.ok.injEq] at h
          exact ⟨b, rest, rfl, ih.1 hxs, h.symm⟩
    · rintro ⟨b, rest, hx, hxs, rfl⟩
      rw [hx, ih.2 hxs]
      rfl

namespace Value

variable {q : Quantization} {root root' : Entries Value} {entries entries' : List SourceEntry}

theorem sourceEntries?_eq_some_iff : (map root).sourceEntries? q = some entries ↔
    List.Forall₂ (fun e a => SourceEntry.ofText e.1 e.2 = .ok a)
      (root.map fun e => (e.1, e.2.digest q)) entries := by
  rw [List.forall₂_map_left_iff, ← mapM_eq_ok_iff]
  simp only [sourceEntries?, asMap?, Option.bind_some]
  cases root.mapM fun e => SourceEntry.ofText e.1 (e.2.digest q) with
  | error e =>
    constructor
    · intro h
      cases h
    · intro h
      cases h
  | ok es => simp [Except.toOption]

theorem sourceEntries?_perm (hp : (root.map fun e => (e.1, e.2.digest q)).Perm
      (root'.map fun e => (e.1, e.2.digest q))) (h : (map root).sourceEntries? q = some entries) :
    ∃ entries', (map root').sourceEntries? q = some entries' ∧ entries.Perm entries' := by
  rw [sourceEntries?_eq_some_iff] at h
  obtain ⟨entries', h', hp'⟩ := List.perm_comp_forall₂ hp.symm h
  exact ⟨entries', sourceEntries?_eq_some_iff.2 h', hp'.symm⟩

/-- Source entries in another order belong to a root map in another order. -/
theorem exists_perm_root (h : (map root).sourceEntries? q = some entries) (hp : entries.Perm entries') :
    ∃ root', root.Perm root' ∧ (map root').sourceEntries? q = some entries' := by
  rw [sourceEntries?_eq_some_iff, List.forall₂_map_left_iff] at h
  obtain ⟨root', h', hp'⟩ := List.perm_comp_forall₂ hp.symm h.flip
  refine ⟨root', hp'.symm, ?_⟩
  rw [sourceEntries?_eq_some_iff, List.forall₂_map_left_iff]
  exact h'.flip

end Value

/-! ## Settings that are alike -/

namespace Setting

/-- The configuration can be written down, and all that is hashed for it satisfies `B`. -/
structure Valid (B : List UInt8 → Prop) (g : Setting) : Prop where
  proper : g.source.Proper
  hashed : g.source.Hashed B g.quantization

structure Alike (g g' : Setting) : Prop where
  quantization : g.quantization = g'.quantization
  kids : ∀ id, g.hierarchy.kids id = g'.hierarchy.kids id
  overrides : g.overrides = g'.overrides
  digest : g.source.digest g.quantization = g'.source.digest g'.quantization

/-- The entries of the source expand to the same in all orders. -/
def OrderFree (g : Setting) : Prop :=
  ∀ entries, g.source.sourceEntries? g.quantization = some entries →
    Expansion.OrderFree (Expansion.expanderOf g.hierarchy entries) entries g.overrides

end Setting

section
variable {H : Type} {B : List UInt8 → Prop} {g g' : Setting}

theorem toOption_map_congr {ε α : Type} {a b : Except ε Unit} (f : Unit → α) (h : a = .ok () ↔ b = .ok ()) :
    a.toOption.map f = b.toOption.map f := by
  cases a <;> cases b <;> simp_all [Except.toOption]

/-- The root maps of settings that are alike have the same keys, with values of the same digests. -/
theorem Setting.Alike.root (hB : ¬ Digest.Collides B) (hg : g.Alike g') (hv : g.Valid B)
    (hv' : g'.Valid B) : (g.source.asMap? = none ∧ g'.source.asMap? = none) ∨
    ∃ root root', g.source = .map root ∧ g'.source = .map root' ∧
      (root.map fun e => (e.1, e.2.digest g.quantization)).Perm
        (root'.map fun e => (e.1, e.2.digest g'.quantization)) := by
  have hd := hg.digest
  have hh := hv'.hashed
  rw [← hg.quantization] at hd hh ⊢
  have halike := Value.digest_inj hB hv.proper hv'.proper hv.hashed hh hd
  revert halike
  generalize g.source = v
  generalize g'.source = w
  rintro (_ | _ | _ | _ | _ | _ | he)
  case map => exact .inr ⟨_, _, rfl, rfl, Value.entries_perm he⟩
  all_goals exact .inl ⟨rfl, rfl⟩

theorem Setting.Alike.outcome (hB : ¬ Digest.Collides B) (hg : g.Alike g') (hv : g.Valid B)
    (hv' : g'.Valid B) (hfree : g.OrderFree) :
    ((g.source.sourceEntries? g.quantization).bind fun entries =>
      Expansion.outcome g.hierarchy entries g.overrides) =
    (g'.source.sourceEntries? g'.quantization).bind fun entries =>
      Expansion.outcome g'.hierarchy entries g'.overrides := by
  rcases hg.root hB hv hv' with ⟨hn, hn'⟩ | ⟨root, root', hr, hr', hp⟩
  · simp only [Value.sourceEntries?, hn, hn', Option.bind_none]
  · rw [← hg.quantization] at hp
    rw [Setting.OrderFree, hr] at hfree
    rw [hr, hr', ← hg.quantization, ← hg.overrides]
    cases hs : (Value.map root).sourceEntries? g.quantization with
    | some entries =>
      obtain ⟨entries', hs', hp'⟩ := Value.sourceEntries?_perm hp hs
      rw [hs']
      exact Expansion.outcome_perm hg.kids hp' (hfree entries hs)
    | none =>
      cases hs' : (Value.map root').sourceEntries? g.quantization with
      | none => rfl
      | some entries' =>
        obtain ⟨entries, he, -⟩ := Value.sourceEntries?_perm hp.symm hs'
        cases hs.symm.trans he

/-- A step does the same to an outline in settings that are alike. -/
theorem Outline.act_congr (hB : ¬ Digest.Collides B) (hg : g.Alike g') (hv : g.Valid B) (hv' : g'.Valid B)
    (hfree : g.OrderFree) {a : Action H} (ha : a.IsStep) (o : Outline) : o.act g a = o.act g' a := by
  cases ha with
  | validate =>
    have hh := hv'.hashed
    rw [← hg.quantization] at hh
    exact toOption_map_congr _ (Value.validate_congr hB hv.proper hv'.proper hv.hashed hh
      (hg.digest.trans (by rw [hg.quantization])))
  | expand =>
    simp only [Outline.act]
    rw [hg.outcome hB hv hv' hfree]
  | intern =>
    simp only [Outline.act]
    rcases hg.root hB hv hv' with ⟨hn, hn'⟩ | ⟨root, root', hr, hr', -⟩
    · rw [hn, hn']
    · rw [hr, hr']
      rfl
  | index => rfl

theorem Outline.forecast_congr (hB : ¬ Digest.Collides B) (hg : g.Alike g') (hv : g.Valid B)
    (hv' : g'.Valid B) (hfree : g.OrderFree) {passes : List (Pass H)} (ha : ∀ p ∈ passes, p.action.IsStep)
    (o : Outline) : Outline.forecast g passes o = Outline.forecast g' passes o := by
  induction passes generalizing o with
  | nil => rfl
  | cons p passes ih =>
    simp only [Outline.forecast]
    rw [Outline.act_congr hB hg hv hv' hfree (ha p List.mem_cons_self)]
    congr 1
    funext o'
    exact ih (fun p' hp' => ha p' (List.mem_cons_of_mem _ hp')) o'

/-- Passes make the same of configurations in settings that are alike. -/
theorem forecast_congr (hB : ¬ Digest.Collides B) (hg : g.Alike g') (hv : g.Valid B) (hv' : g'.Valid B)
    (hfree : g.OrderFree) {passes : List (Pass H)} (ha : ∀ p ∈ passes, p.action.IsStep) :
    forecast g passes = forecast g' passes :=
  Outline.forecast_congr hB hg hv hv' hfree ha .empty

end

/-! ## Root maps in another order -/

namespace Value

variable {B : List UInt8 → Prop} {q : Quantization} {root root' : Entries Value}

theorem mem_parts_perm (hp : root.Perm root') {u : Value} (hu : u ∈ (map root').parts) :
    u = map root' ∨ u ∈ (map root).parts := by
  rw [parts, entryParts_eq_flatMap] at hu ⊢
  rcases List.mem_cons.1 hu with hu | hu
  · exact .inl hu
  · exact .inr (List.mem_cons_of_mem _ ((hp.flatMap_right _).mem_iff.2 hu))

theorem Proper.perm (h : (map root).Proper) (hp : root.Perm root') : (map root').Proper := by
  intro u hu
  rcases mem_parts_perm hp hu with rfl | hu
  · obtain ⟨hlen, hnodup, hkeys⟩ := h.fits
    exact ⟨hp.length_eq ▸ hlen, (hp.map _).nodup_iff.1 hnodup, fun e he => hkeys e (hp.mem_iff.2 he)⟩
  · exact h u hu

theorem Hashed.perm (h : (map root).Hashed B q) (hn : (root.map (·.1)).Nodup) (hp : root.Perm root') :
    (map root').Hashed B q := by
  intro u hu
  rcases mem_parts_perm hp hu with rfl | hu
  · rw [encoded, ← fields_perm hn hp]
    exact h.self
  · exact h u hu

end Value

end ConfigCompiler
