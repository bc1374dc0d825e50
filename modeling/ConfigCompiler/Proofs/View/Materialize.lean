import Mathlib.Data.List.Forall2
import ConfigCompiler.Proofs.Pipeline.Outline
import ConfigCompiler.View.Basic

/-!
# What a view's result depends on

Compilations that show the same, and parameters of one digest, are materialized to the same: results with the same
keys and with nodes of the same digests, or one failure (`View.materialize_congr`).
-/

namespace ConfigCompiler

/-! ## Compilations that show the same -/

theorem Compilation.positionsOf_congr {es es' : List (Key × Interned)}
    (h : es.map Prod.fst = es'.map Prod.fst) (i : Nat) (m : Std.HashMap Key Nat) :
    positionsOf i es m = positionsOf i es' m := by
  induction es generalizing es' i m with
  | nil =>
    obtain rfl := List.map_eq_nil_iff.1 h.symm
    rfl
  | cons e es ih =>
    cases es' with
    | nil => cases h
    | cons e' es' =>
      obtain ⟨hk, hrest⟩ := List.cons.inj h
      rw [positionsOf, positionsOf, hk]
      exact ih hrest _ _

section
variable {c c' : Compilation} {x : List (Key × Digest) × PathIndex}

theorem keys_of_outlineOf {es es' : List (Key × Interned)} (h : outlineOf es = outlineOf es') :
    es.map Prod.fst = es'.map Prod.fst := by
  have := congrArg (List.map Prod.fst) h
  simpa only [outlineOf, List.map_map, Function.comp_def] using this

theorem Compilation.Shows.get? (h : c.Shows x) (h' : c'.Shows x) (key : String) :
    (c.get? key).map Interned.digest = (c'.get? key).map Interned.digest := by
  have he := h.entries.trans h'.entries.symm
  have hpos : c.positions = c'.positions := by
    rw [h.positions, h'.positions, Compilation.positionsOf_congr (keys_of_outlineOf he)]
  rw [Compilation.get?, Compilation.get?, hpos]
  cases c'.positions[Key.mk key]? with
  | none => rfl
  | some i =>
    have hi := congrArg (fun es => es[i]?.map Prod.snd) he
    simpa only [outlineOf, List.getElem?_map, Option.map_map, Option.bind_some,
      Array.getElem?_toList, Function.comp_def] using hi

theorem Compilation.Shows.under (h : c.Shows x) (h' : c'.Shows x) (path : String) :
    outlineOf (c.under path) = outlineOf (c'.under path) := by
  have he := h.entries.trans h'.entries.symm
  have hsize : c.entries.size = c'.entries.size := by
    simpa only [outlineOf, List.length_map, Array.length_toList] using congrArg List.length he
  rw [Compilation.under, Compilation.under, h.index, h'.index, hsize]
  split
  · rename_i first last _
    split
    · have hspan := congrArg (fun es => (es.drop first).take (last - first)) he
      simpa only [outlineOf, Array.toList_extract, List.extract_eq_take_drop, List.map_take,
        List.map_drop] using hspan
    · rfl
  · rfl

end

/-! ## Parameters of one digest -/

namespace Params

/-- All lengths fit into a word. -/
structure Proper (p : Params) : Prop where
  size : p.size < 2 ^ 64
  names : ∀ e ∈ p.entries, e.1.utf8ByteSize < 2 ^ 64
  values : ∀ e ∈ p.entries, e.2.Proper

/-- The bytes that are hashed for parameters. -/
def encoded (p : Params) : List UInt8 := Digest.encode "strata.params.v1" p.fields

/-- All that is hashed for parameters satisfies `B`. -/
structure Hashed (B : List UInt8 → Prop) (p : Params) : Prop where
  self : B p.encoded
  values : ∀ e ∈ p.entries, e.2.Hashed B .disabled

/-- The same names, with values that are alike. -/
def Alike (p p' : Params) : Prop :=
  List.Forall₂ (fun e f => e.1 = f.1 ∧ e.2.Alike .disabled f.2) p.entries p'.entries

section
variable {B : List UInt8 → Prop} {p p' : Params}

theorem fields_eq (p : Params) : p.fields =
    Digest.mapFields (p.entries.map fun e => (e.1, e.2.digest .disabled)) := by
  rw [fields, Digest.mapFields, List.length_map, List.flatMap_map]
  rfl

theorem Proper.fields (h : p.Proper) : ∀ f ∈ p.fields, f.Sized := by
  intro f hf
  rcases List.mem_cons.1 hf with rfl | hf
  · exact h.size
  · obtain ⟨e, he, hf⟩ := List.mem_flatMap.1 hf
    rcases List.mem_cons.1 hf with rfl | hf
    · exact h.names e he
    · obtain rfl := List.mem_singleton.1 hf
      trivial

/-- Parameters of one digest have the same names, with values of the same digests. -/
theorem entries_of_digest_eq (hB : ¬ Digest.Collides B) (hp : p.Proper) (hp' : p'.Proper)
    (hh : p.Hashed B) (hh' : p'.Hashed B) (h : p.digest = p'.digest) :
    (p.entries.map fun e => (e.1, e.2.digest .disabled)) =
      p'.entries.map fun e => (e.1, e.2.digest .disabled) := by
  have hbytes := Digest.ofFields_inj hB hp.fields hp'.fields hh.self hh'.self h
  rw [fields_eq, fields_eq] at hbytes
  have hsized {p : Params} (hp : p.Proper) :
      ∀ e ∈ p.entries.map fun e => (e.1, e.2.digest .disabled), e.1.utf8ByteSize < 2 ^ 64 := by
    intro e he
    obtain ⟨f, hf, rfl⟩ := List.mem_map.1 he
    exact hp.names f hf
  exact Digest.flatMap_entry_inj (hsized hp) (hsized hp') (List.cons.inj hbytes).2

theorem alike_of_digest_eq (hB : ¬ Digest.Collides B) (hp : p.Proper) (hp' : p'.Proper)
    (hh : p.Hashed B) (hh' : p'.Hashed B) (h : p.digest = p'.digest) : p.Alike p' := by
  have hentries := entries_of_digest_eq hB hp hp' hh hh' h
  rw [← List.forall₂_eq_eq_eq, List.forall₂_map_left_iff, List.forall₂_map_right_iff] at hentries
  refine (List.forall₂_iff_get.2 ⟨hentries.length_eq, fun i hi hi' => ?_⟩)
  have he := Prod.mk.inj ((List.forall₂_iff_get.1 hentries).2 i hi hi')
  have hm := List.get_mem p.entries ⟨i, hi⟩
  have hm' := List.get_mem p'.entries ⟨i, hi'⟩
  exact ⟨he.1, Value.digest_inj hB (hp.values _ hm) (hp'.values _ hm') (hh.values _ hm)
    (hh'.values _ hm') he.2⟩

theorem Alike.get? (h : p.Alike p') (name : String) :
    (p.get? name = none ∧ p'.get? name = none) ∨
    ∃ v w, p.get? name = some v ∧ p'.get? name = some w ∧ v.Alike .disabled w := by
  unfold Params.get? Entries.get?
  unfold Alike at h
  revert h
  generalize p.entries = es
  generalize p'.entries = fs
  intro h
  induction h with
  | nil => exact .inl ⟨rfl, rfl⟩
  | @cons e f es fs hef _ ih =>
    obtain ⟨key, v⟩ := e
    obtain ⟨key', w⟩ := f
    obtain ⟨rfl, hvw⟩ := hef
    rw [List.lookup_cons, List.lookup_cons]
    cases name == key with
    | true => exact .inr ⟨v, w, rfl, rfl, hvw⟩
    | false => exact ih

theorem Alike.str? (h : p.Alike p') (name : String) : p.str? name = p'.str? name := by
  rcases h.get? name with ⟨hv, hw⟩ | ⟨v, w, hv, hw, hvw⟩
  · rw [Params.str?, Params.str?, hv, hw]
  · rw [Params.str?, Params.str?, hv, hw]
    cases hvw <;> rfl

theorem Alike.requireStr (h : p.Alike p') (name : String) : p.requireStr name = p'.requireStr name := by
  rw [Params.requireStr, Params.requireStr, h.str? name]

end

end Params

/-! ## Results -/

namespace View

/-- Equal results, where nodes count by their digests. -/
inductive Result.Same : Result → Result → Prop
  | entries {es es' : List (Key × Interned)} : outlineOf es = outlineOf es' →
      Same (.entries es) (.entries es')
  | keys (ks : List Key) : Same (.keys ks) (.keys ks)
  | value {v v' : Option Interned} : v.map Interned.digest = v'.map Interned.digest →
      Same (.value v) (.value v')
  | count (n : Nat) : Same (.count n) (.count n)

theorem Result.Same.refl (r : Result) : r.Same r := by
  cases r with
  | entries es => exact .entries rfl
  | keys ks => exact .keys ks
  | value v => exact .value rfl
  | count n => exact .count n

theorem Result.Same.trans {r s t : Result} (h : r.Same s) (h' : s.Same t) : r.Same t := by
  cases h with
  | entries h => cases h' with | entries h' => exact .entries (h.trans h')
  | keys => exact h'
  | value h => cases h' with | value h' => exact .value (h.trans h')
  | count => exact h'

/-- The same result, or the same failure. -/
inductive SameAnswer : (a b : Except ViewError Result) → Prop
  | ok {r r' : Result} : r.Same r' → SameAnswer (.ok r) (.ok r')
  | error (e : ViewError) : SameAnswer (.error e) (.error e)

section
variable {c c' : Compilation} {p p' : Params} {x : List (Key × Digest) × PathIndex}

/-- The entries that a view is about are the same. -/
theorem scope_congr (hc : c.Shows x) (hc' : c'.Shows x) (hp : p.Alike p') :
    (∃ es es', scope c p = .ok es ∧ scope c' p' = .ok es' ∧ outlineOf es = outlineOf es') ∨
    ∃ e, scope c p = .error e ∧ scope c' p' = .error e := by
  unfold scope
  rw [hp.str? "prefix"]
  cases p'.str? "prefix" with
  | error e => exact .inr ⟨e, rfl, rfl⟩
  | ok path? =>
    cases path? with
    | some path => exact .inl ⟨_, _, rfl, rfl, hc.under hc' path⟩
    | none => exact .inl ⟨_, _, rfl, rfl, hc.entries.trans hc'.entries.symm⟩

theorem materialize_congr (hc : c.Shows x) (hc' : c'.Shows x) (hp : p.Alike p') {v : View}
    (hv : v ∈ builtins) : SameAnswer (v.materialize c p) (v.materialize c' p') := by
  simp only [builtins, List.mem_cons, List.not_mem_nil, or_false] at hv
  rcases hv with rfl | rfl | rfl | rfl | rfl
  · exact .ok (.entries (hc.entries.trans hc'.entries.symm))
  · simp only [View.get, hp.requireStr "key"]
    cases p'.requireStr "key" with
    | error e => exact .error e
    | ok key => exact .ok (.value (hc.get? hc' key))
  · simp only [View.below, hp.requireStr "prefix"]
    cases p'.requireStr "prefix" with
    | error e => exact .error e
    | ok path => exact .ok (.entries (hc.under hc' path))
  · simp only [View.keys]
    rcases scope_congr hc hc' hp with ⟨es, es', h, h', ho⟩ | ⟨e, h, h'⟩
    · rw [h, h']
      refine .ok ?_
      rw [keys_of_outlineOf ho]
      exact .keys _
    · rw [h, h']
      exact .error e
  · simp only [View.count]
    rcases scope_congr hc hc' hp with ⟨es, es', h, h', ho⟩ | ⟨e, h, h'⟩
    · rw [h, h']
      have hlen : es.length = es'.length := by
        simpa only [outlineOf, List.length_map] using congrArg List.length ho
      refine .ok ?_
      rw [hlen]
      exact .count _
    · rw [h, h']
      exact .error e

end

/-! ## Nodes of results -/

theorem mem_nodes_of_get? {c : Compilation} {key : String} {n : Interned} (h : c.get? key = some n) :
    n ∈ c.nodes := by
  obtain ⟨e, he, rfl⟩ := Option.map_eq_some_iff.1 h
  obtain ⟨i, -, hi⟩ := Option.bind_eq_some_iff.1 he
  rw [← Array.getElem?_toList] at hi
  exact List.mem_map_of_mem (List.mem_of_getElem? hi)

theorem mem_entries_of_under {c : Compilation} {path : String} {e : Key × Interned}
    (h : e ∈ c.under path) : e ∈ c.entries.toList := by
  unfold Compilation.under at h
  split at h
  · split at h
    · rw [Array.toList_extract, List.extract_eq_take_drop] at h
      exact List.mem_of_mem_drop (List.mem_of_mem_take h)
    · cases h
  · cases h

/-- A result holds no nodes but those of the compilation. -/
theorem mem_nodes_of_materialize {c : Compilation} {p : Params} {v : View} (hv : v ∈ builtins)
    {r : Result} (h : v.materialize c p = .ok r) {n : Interned} (hn : n ∈ r.nodes) : n ∈ c.nodes := by
  simp only [builtins, List.mem_cons, List.not_mem_nil, or_false] at hv
  rcases hv with rfl | rfl | rfl | rfl | rfl
  · cases h
    exact hn
  · simp only [View.get] at h
    cases hk : p.requireStr "key" with
    | error e => rw [hk] at h; cases h
    | ok key =>
      rw [hk] at h
      cases h
      exact mem_nodes_of_get? (Option.mem_toList.1 hn)
  · simp only [View.below] at h
    cases hk : p.requireStr "prefix" with
    | error e => rw [hk] at h; cases h
    | ok path =>
      rw [hk] at h
      cases h
      obtain ⟨e, he, rfl⟩ := List.mem_map.1 hn
      exact List.mem_map_of_mem (mem_entries_of_under he)
  · simp only [View.keys] at h
    cases hs : scope c p with
    | error e => rw [hs] at h; cases h
    | ok es =>
      rw [hs] at h
      cases h
      cases hn
  · simp only [View.count] at h
    cases hs : scope c p with
    | error e => rw [hs] at h; cases h
    | ok es =>
      rw [hs] at h
      cases h
      cases hn

end View

end ConfigCompiler
