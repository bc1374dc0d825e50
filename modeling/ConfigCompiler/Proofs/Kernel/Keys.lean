import ConfigCompiler.Kernel.Task
import ConfigCompiler.Proofs.Pipeline.Order
import ConfigCompiler.Proofs.View.Materialize

/-!
# What a cache key tells

The pass set of a snapshot determines its passes and the children of all nodes (`Snapshot.Valid.congr`), and
with the digest of the configuration it determines what a compilation comes to (`Snapshot.forecast_eq`). Keys
are told apart by all that they are made of (`CacheKey.compiled_inj`, `CacheKey.view_inj`,
`CacheKey.compiled_ne_view`).
-/

namespace ConfigCompiler

/-! ## Keys -/

namespace CacheKey

/-- The bytes that are hashed for a key. -/
def encoded (source passSet : Digest) (view? : Option (String × Digest)) : List UInt8 :=
  Digest.encode domain (fields source passSet view?)

section
variable {B : List UInt8 → Prop} (hB : ¬ Digest.Collides B) {source source' passSet passSet' : Digest}
include hB

/-- The id of a key tells all that it is made of. -/
theorem derive_inj {view? view?' : Option (String × Digest)}
    (hv : ∀ v ∈ view?, v.1.utf8ByteSize < 2 ^ 64) (hv' : ∀ v ∈ view?', v.1.utf8ByteSize < 2 ^ 64)
    (hh : B (encoded source passSet view?)) (hh' : B (encoded source' passSet' view?'))
    (h : (derive source passSet view?).id = (derive source' passSet' view?').id) :
    source = source' ∧ passSet = passSet' ∧ view? = view?' := by
  have hsized {source passSet : Digest} {view? : Option (String × Digest)}
      (hv : ∀ v ∈ view?, v.1.utf8ByteSize < 2 ^ 64) : ∀ f ∈ fields source passSet view?, f.Sized := by
    intro f hf
    cases view? with
    | none =>
      simp only [fields, List.cons_append, List.nil_append, List.mem_cons, List.not_mem_nil,
        or_false] at hf
      rcases hf with rfl | rfl | rfl <;> trivial
    | some v =>
      simp only [fields, List.cons_append, List.nil_append, List.mem_cons, List.not_mem_nil,
        or_false] at hf
      rcases hf with rfl | rfl | rfl | rfl
      · trivial
      · trivial
      · exact hv v rfl
      · trivial
  have hb := Digest.ofFields_inj hB (hsized hv) (hsized hv') hh hh' h
  cases view? with
  | none =>
    cases view?' with
    | none =>
      simp only [fields, List.cons_append, List.nil_append, List.map_cons, List.cons.injEq] at hb
      exact ⟨Digest.Field.digest_inj hb.1, Digest.Field.digest_inj hb.2.1, rfl⟩
    | some v' => simp [fields] at hb
  | some v =>
    cases view?' with
    | none => simp [fields] at hb
    | some v' =>
      simp only [fields, List.cons_append, List.nil_append, List.map_cons, List.cons.injEq] at hb
      obtain ⟨hs, hp, hn, hd, -⟩ := hb
      have hname := Digest.Field.text_inj (hv v rfl) (hv' v' rfl) hn
      exact ⟨Digest.Field.digest_inj hs, Digest.Field.digest_inj hp,
        congrArg some (Prod.ext hname (Digest.Field.digest_inj hd))⟩

theorem compiled_inj (hh : B (encoded source passSet none)) (hh' : B (encoded source' passSet' none))
    (h : compiled source passSet = compiled source' passSet') : source = source' ∧ passSet = passSet' := by
  obtain ⟨hs, hp, -⟩ := derive_inj hB (by simp) (by simp) hh hh' (congrArg id h)
  exact ⟨hs, hp⟩

theorem view_inj {name name' : String} {params params' : Digest} (hn : name.utf8ByteSize < 2 ^ 64)
    (hn' : name'.utf8ByteSize < 2 ^ 64) (hh : B (encoded source passSet (some (name, params))))
    (hh' : B (encoded source' passSet' (some (name', params'))))
    (h : view source passSet name params = view source' passSet' name' params') :
    source = source' ∧ passSet = passSet' ∧ name = name' ∧ params = params' := by
  obtain ⟨hs, hp, hv⟩ := derive_inj hB (by simpa using hn) (by simpa using hn') hh hh' (congrArg id h)
  cases hv
  exact ⟨hs, hp, rfl, rfl⟩

theorem compiled_ne_view {name : String} {params : Digest} (hn : name.utf8ByteSize < 2 ^ 64)
    (hh : B (encoded source passSet none)) (hh' : B (encoded source' passSet' (some (name, params)))) :
    compiled source passSet ≠ view source' passSet' name params := by
  intro h
  obtain ⟨-, -, hv⟩ := derive_inj hB (by simp) (by simpa using hn) hh hh' (congrArg id h)
  cases hv

end

end CacheKey

/-! ## Pass sets -/

/-- The fields of a pass set, given the digests of the hierarchy and of the declared pairs. -/
def policyFields {H : Type} (passes : List (Pass H)) (hierarchy : Digest) (q : Quantization)
    (overrides : Digest) : List Digest.Field :=
  .seqHeader passes.length :: passes.map (fun p => .text p.name) ++
    [.digest hierarchy, .quantization q, .digest overrides]

/-- They tell the names of the passes, both digests and what is written of the quantization. -/
theorem policyFields_inj {H H' : Type} {ps : List (Pass H)} {ps' : List (Pass H')} {h h' o o' : Digest}
    {q q' : Quantization} (hl : ps.length < 2 ^ 64) (hl' : ps'.length < 2 ^ 64)
    (hn : ∀ p ∈ ps, p.name.utf8ByteSize < 2 ^ 64) (hn' : ∀ p ∈ ps', p.name.utf8ByteSize < 2 ^ 64)
    (hb : (policyFields ps h q o).map Digest.Field.bytes = (policyFields ps' h' q' o').map Digest.Field.bytes) :
    ps.map Pass.name = ps'.map Pass.name ∧ h = h' ∧
      (Digest.Field.quantization q).bytes = (Digest.Field.quantization q').bytes ∧ o = o' := by
  simp only [policyFields, List.cons_append, List.map_cons, List.map_append, List.cons.injEq, List.map_map] at hb
  obtain ⟨hlen, hrest⟩ := hb
  have hlen' := Digest.Field.seqHeader_inj hl hl' hlen
  obtain ⟨hnames, htail⟩ := List.append_inj hrest (by rw [List.length_map, List.length_map, hlen'])
  simp only [List.map_nil, List.cons.injEq] at htail
  obtain ⟨hhierarchy, hquantization, hoverrides, -⟩ := htail
  refine ⟨?_, Digest.Field.digest_inj hhierarchy, hquantization, Digest.Field.digest_inj hoverrides⟩
  have hsized {H : Type} {ps : List (Pass H)} (hn : ∀ p ∈ ps, p.name.utf8ByteSize < 2 ^ 64) :
      ∀ n ∈ ps.map Pass.name, n.utf8ByteSize < 2 ^ 64 := by
    intro n hm
    obtain ⟨p, hp, rfl⟩ := List.mem_map.1 hm
    exact hn p hp
  refine Hierarchy.map_text_inj (hsized hn) (hsized hn') ?_
  rw [List.map_map, List.map_map]
  exact hnames

/-! ## Names of built-in passes and views -/

theorem name_size_builtins {H : Type} {p : Pass H} (hp : p ∈ Pass.builtins) :
    p.name.utf8ByteSize < 2 ^ 64 := by
  simp only [Pass.builtins, List.mem_cons, List.not_mem_nil, or_false] at hp
  rcases hp with rfl | rfl | rfl | rfl <;> exact of_decide_eq_true rfl

theorem eq_of_name_builtins {H : Type} {p p' : Pass H} (hp : p ∈ Pass.builtins)
    (hp' : p' ∈ Pass.builtins) (h : p.name = p'.name) : p = p' := by
  simp only [Pass.builtins, List.mem_cons, List.not_mem_nil, or_false] at hp hp'
  rcases hp with rfl | rfl | rfl | rfl <;> rcases hp' with rfl | rfl | rfl | rfl <;>
    first | rfl | simp at h

namespace View

theorem name_size {v : View} (hv : v ∈ builtins) : v.name.utf8ByteSize < 2 ^ 64 := by
  simp only [builtins, List.mem_cons, List.not_mem_nil, or_false] at hv
  rcases hv with rfl | rfl | rfl | rfl | rfl <;> decide

theorem eq_of_name {v v' : View} (hv : v ∈ builtins) (hv' : v' ∈ builtins) (h : v.name = v'.name) :
    v = v' := by
  simp only [builtins, List.mem_cons, List.not_mem_nil, or_false] at hv hv'
  rcases hv with rfl | rfl | rfl | rfl | rfl <;> rcases hv' with rfl | rfl | rfl | rfl | rfl <;>
    first | rfl | exact absurd h (by decide)

end View

/-! ## Snapshots -/

namespace Snapshot

variable {H : Type} {B : List UInt8 → Prop} {q : Quantization} {s s' : Snapshot H}

/-- The fields of a pass set without declared pairs. -/
def passSetFields (q : Quantization) (hierarchy : Hierarchy) (passes : List (Pass H)) :
    List Digest.Field :=
  .seqHeader passes.length :: passes.map (fun p => .text p.name) ++
    [.digest hierarchy.digest, .quantization q, .digest Overrides.none.digest]

/-- A snapshot of a kernel with built-in passes and no declared pairs; all that is hashed satisfies `B`. -/
structure Valid (B : List UInt8 → Prop) (q : Quantization) (s : Snapshot H) : Prop where
  passSet : s.passSet = Digest.ofFields "strata.pass-set.v1" (passSetFields q s.hierarchy s.passes)
  passes : ∀ p ∈ s.passes, p ∈ Pass.builtins
  length : s.passes.length < 2 ^ 64
  hierarchy : s.hierarchy.Proper
  hashed : B (Digest.encode "strata.pass-set.v1" (passSetFields q s.hierarchy s.passes))
  hashedHierarchy : B (Digest.encode Hierarchy.digestDomain s.hierarchy.fields)

theorem Valid.fields (h : s.Valid B q) : ∀ f ∈ passSetFields q s.hierarchy s.passes, f.Sized := by
  intro f hf
  simp only [passSetFields, List.cons_append, List.mem_cons, List.mem_append, List.mem_map,
    List.not_mem_nil, or_false] at hf
  rcases hf with rfl | ⟨p, hp, rfl⟩ | rfl | rfl | rfl
  · exact h.length
  · exact name_size_builtins (h.passes p hp)
  all_goals trivial

/-- Snapshots of one pass set have the same passes, and their nodes have the same children. -/
theorem Valid.congr (hB : ¬ Digest.Collides B) (h : s.Valid B q) (h' : s'.Valid B q)
    (hp : s.passSet = s'.passSet) :
    s.passes = s'.passes ∧ ∀ id, s.hierarchy.kids id = s'.hierarchy.kids id := by
  rw [h.passSet, h'.passSet] at hp
  have hb := Digest.ofFields_inj hB h.fields h'.fields h.hashed h'.hashed hp
  obtain ⟨hnames, hhierarchy, -⟩ := policyFields_inj h.length h'.length
    (fun p hm => name_size_builtins (h.passes p hm)) (fun p hm => name_size_builtins (h'.passes p hm)) hb
  constructor
  · exact Store.eq_of_map_eq hnames fun p hm p' hm' =>
      eq_of_name_builtins (h.passes p hm) (h'.passes p' hm')
  · exact Hierarchy.kids_eq_of_digest_eq hB h.hierarchy h'.hierarchy h.hashedHierarchy h'.hashedHierarchy
      hhierarchy

theorem Valid.isStep (h : s.Valid B q) : ∀ p ∈ s.passes, p.action.IsStep := fun p hp =>
  isStep_builtins p (h.passes p hp)

/-- A configuration that has the digest of a snapshot; all that is hashed satisfies `B`. -/
structure Reads (B : List UInt8 → Prop) (q : Quantization) (s : Snapshot H) (raw : Value) : Prop where
  proper : raw.Proper
  hashed : raw.Hashed B q
  digest : raw.digest q = s.source

/-- The setting of a run for a snapshot, without declared pairs. -/
def setting (q : Quantization) (s : Snapshot H) (raw : Value) : Setting :=
  ⟨q, s.hierarchy, .none, raw⟩

/-- What the passes of a snapshot make of a configuration. -/
def forecast (q : Quantization) (s : Snapshot H) (raw : Value) :
    Option (List (Key × Digest) × PathIndex) :=
  ConfigCompiler.forecast (s.setting q raw) s.passes

/-- Without collisions, a compilation comes to what its digest and its pass set say. -/
theorem forecast_eq (hB : ¬ Digest.Collides B) (h : s.Valid B q) (h' : s'.Valid B q)
    (hs : s.source = s'.source) (hp : s.passSet = s'.passSet) {raw raw' : Value}
    (hr : s.Reads B q raw) (hr' : s'.Reads B q raw') : s.forecast q raw = s'.forecast q raw' := by
  obtain ⟨hpasses, hkids⟩ := h.congr hB h' hp
  have halike : (s.setting q raw).Alike (s'.setting q raw') :=
    ⟨rfl, hkids, rfl, hr.digest.trans (hs.trans hr'.digest.symm)⟩
  rw [forecast, forecast, ← hpasses]
  exact forecast_congr hB halike ⟨hr.proper, hr.hashed⟩ ⟨hr'.proper, hr'.hashed⟩
    (fun entries _ => Expansion.orderFree_none _ entries) h.isStep

end Snapshot

end ConfigCompiler
