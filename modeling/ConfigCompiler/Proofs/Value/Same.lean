import Mathlib.Data.List.Forall2
import ConfigCompiler.Proofs.Value.Validation

/-!
# Values that a digest identifies

Two values are the same under a policy (`Value.Same`) if they are equal up to the order of entries and up to
floats that the policy does not tell apart. For maps this means the same keys with the same values
(`Value.same_map_iff`).

A digest identifies values just up to this (`Value.digest_eq_iff_same`): the same values have one digest, and
values of one digest are the same, unless two different byte strings that are hashed for them collide.
-/

namespace ConfigCompiler.Value

/-- Floats of one bucket or, where they go by their bits, of one number. -/
def SameFloat (q : Quantization) (x y : Binary64) : Prop :=
  q.bucket? x = q.bucket? y ∧ (q.bucket? x = none → x.normalize = y.normalize)

/-- Equality up to the order of entries and to what a policy makes of floats. -/
inductive Same (q : Quantization) : Value → Value → Prop
  | null : Same q .null .null
  | bool (b : Bool) : Same q (.bool b) (.bool b)
  | int (i : Int64) : Same q (.int i) (.int i)
  | float {x y : Binary64} : SameFloat q x y → Same q (.float x) (.float y)
  | str (t : String) : Same q (.str t) (.str t)
  | seq {items others : List Value} : List.Forall₂ (Same q) items others →
      Same q (.seq items) (.seq others)
  | map {entries ordered others : Entries Value} : entries.Perm ordered →
      ordered.map (·.1) = others.map (·.1) →
      List.Forall₂ (Same q) (ordered.map (·.2)) (others.map (·.2)) → Same q (.map entries) (.map others)

variable {q : Quantization}

/-! ## Floats -/

theorem SameFloat.bytes_eq {x y : Binary64} (h : SameFloat q x y) :
    (Digest.Field.float x q).bytes = (Digest.Field.float y q).bytes := by
  simp only [Digest.Field.bytes, ← h.1]
  cases hx : q.bucket? x with
  | some p => rfl
  | none => simp only [Digest.Field.floatBits, h.2 hx]

theorem sameFloat_of_bytes_eq {x y : Binary64}
    (h : (Digest.Field.float x q).bytes = (Digest.Field.float y q).bytes) : SameFloat q x y := by
  rcases Digest.Field.float_bytes_iff.1 h with ⟨width, bucket, hx, hy⟩ | ⟨hx, hy, hn⟩
  · refine ⟨hx.trans hy.symm, fun hnone => ?_⟩
    rw [hx] at hnone
    cases hnone
  · exact ⟨hx.trans hy.symm, fun _ => hn⟩

/-! ## Maps -/

theorem eq_of_key_eq {α : Type} {entries : Entries α} (hn : (entries.map (·.1)).Nodup) {key : String}
    {v w : α} (hv : (key, v) ∈ entries) (hw : (key, w) ∈ entries) : v = w :=
  (Prod.mk.inj (List.inj_on_of_nodup_map hn hv hw rfl)).2

/-- Entries can be picked in the order of other entries, if for each of those there is one. -/
theorem exists_ordered {entries others : Entries Value}
    (h : ∀ f ∈ others, ∃ v, (f.1, v) ∈ entries ∧ Same q v f.2) :
    ∃ ordered : Entries Value, ordered ⊆ entries ∧ ordered.map (·.1) = others.map (·.1) ∧
      List.Forall₂ (Same q) (ordered.map (·.2)) (others.map (·.2)) := by
  induction others with
  | nil => exact ⟨[], List.nil_subset _, rfl, .nil⟩
  | cons f others ih =>
    obtain ⟨v, hv, hsame⟩ := h f List.mem_cons_self
    obtain ⟨ordered, hsub, hkeys, hvalues⟩ := ih fun f hf => h f (List.mem_cons_of_mem _ hf)
    exact ⟨(f.1, v) :: ordered, List.cons_subset.2 ⟨hv, hsub⟩, congrArg (f.1 :: ·) hkeys,
      .cons hsame hvalues⟩

theorem mem_of_forall₂ {ordered others : Entries Value} (hkeys : ordered.map (·.1) = others.map (·.1))
    (hvalues : List.Forall₂ (Same q) (ordered.map (·.2)) (others.map (·.2))) {key : String} {v : Value}
    (hv : (key, v) ∈ ordered) : ∃ w, (key, w) ∈ others ∧ Same q v w := by
  induction ordered generalizing others with
  | nil => cases hv
  | cons e ordered ih =>
    cases others with
    | nil => cases hkeys
    | cons f others =>
      obtain ⟨hkey, hrest⟩ := List.cons.inj hkeys
      cases hvalues with
      | cons hsame hvalues =>
        rcases List.mem_cons.1 hv with rfl | hv
        · exact ⟨f.2, by rw [show key = f.1 from hkey]; exact List.mem_cons_self, hsame⟩
        · obtain ⟨w, hw, hvw⟩ := ih hrest hvalues hv
          exact ⟨w, List.mem_cons_of_mem _ hw, hvw⟩

/-- Maps are the same if they have the same keys, with the same value under each. -/
theorem same_map_iff {entries others : Entries Value} (hn : (entries.map (·.1)).Nodup)
    (hn' : (others.map (·.1)).Nodup) : Same q (.map entries) (.map others) ↔
      (∀ key, key ∈ entries.map (·.1) ↔ key ∈ others.map (·.1)) ∧
      ∀ key v w, (key, v) ∈ entries → (key, w) ∈ others → Same q v w := by
  constructor
  · intro h
    cases h with | @map _ ordered _ hp hkeys hvalues =>
    refine ⟨fun key => ?_, fun key v w hv hw => ?_⟩
    · rw [(hp.map _).mem_iff, hkeys]
    · obtain ⟨w', hw', hsame⟩ := mem_of_forall₂ hkeys hvalues (hp.mem_iff.1 hv)
      rwa [eq_of_key_eq hn' hw hw']
  · rintro ⟨hkeys, hvalues⟩
    have hpick : ∀ f ∈ others, ∃ v, (f.1, v) ∈ entries ∧ Same q v f.2 := by
      intro f hf
      obtain ⟨e, he, hkey⟩ := List.mem_map.1 ((hkeys f.1).2 (List.mem_map.2 ⟨f, hf, rfl⟩))
      have hmem : (f.1, e.2) ∈ entries := hkey ▸ he
      exact ⟨e.2, hmem, hvalues f.1 e.2 f.2 hmem hf⟩
    obtain ⟨ordered, hsub, hordered, hsame⟩ := exists_ordered hpick
    refine .map ?_ hordered hsame
    have hnodup : (ordered.map (·.1)).Nodup := hordered ▸ hn'
    refine (List.perm_ext_iff_of_nodup hn.of_map hnodup.of_map).2 fun e => ⟨fun he => ?_, fun he => hsub he⟩
    -- the entry of this key that was picked is the only one
    have hkey : e.1 ∈ ordered.map (·.1) := by
      rw [hordered]
      exact (hkeys e.1).1 (List.mem_map.2 ⟨e, he, rfl⟩)
    obtain ⟨e', he', hkey⟩ := List.mem_map.1 hkey
    rwa [List.inj_on_of_nodup_map hn he (hsub he') hkey.symm]

/-! ## Digests of the same values -/

theorem map_digest_eq {items others : List Value} (hd : ∀ v ∈ items, ∀ w, Same q v w → v.digest q = w.digest q)
    (h : List.Forall₂ (Same q) items others) : items.map (digest q) = others.map (digest q) := by
  induction h with
  | nil => rfl
  | @cons v w items others hvw _ ih =>
    rw [List.map_cons, List.map_cons, hd v List.mem_cons_self w hvw,
      ih fun v hv => hd v (List.mem_cons_of_mem _ hv)]

theorem zip_map_digest (q : Quantization) (entries : Entries Value) :
    entries.map (fun e => (e.1, e.2.digest q)) =
      (entries.map (·.1)).zip ((entries.map (·.2)).map (digest q)) := by
  rw [List.map_map, List.zip_map', List.map_inj_left]
  intro e _
  rfl

/-- The same values have one digest. -/
theorem Same.digest_eq {v w : Value} (h : Same q v w) (hv : v.Proper) : v.digest q = w.digest q := by
  induction v using Value.induction generalizing w with
  | float x =>
    cases h with | float hxy =>
    exact digest_float_congr hxy.bytes_eq
  | seq items ih =>
    cases h with | seq hitems =>
    rw [digest_eq_ofValueFields, digest_eq_ofValueFields, fields, fields,
      map_digest_eq (fun v hm w hvw => ih v hm hvw (hv.item hm)) hitems]
  | map entries ih =>
    cases h with | @map _ ordered others hp hkeys hvalues =>
    have hd : ∀ v ∈ ordered.map (·.2), ∀ w, Same q v w → v.digest q = w.digest q := by
      intro v hm w hvw
      obtain ⟨e, he, rfl⟩ := List.mem_map.1 hm
      have he := hp.mem_iff.2 he
      exact ih e he hvw (hv.entry he)
    rw [digest_perm hv.fits.2.1 hp, digest_eq_ofValueFields, digest_eq_ofValueFields, fields, fields,
      zip_map_digest, zip_map_digest, hkeys, map_digest_eq hd hvalues]
  | _ => cases h; rfl

/-! ## Values of one digest -/

theorem forall₂_same {items others : List Value}
    (hs : ∀ v ∈ items, ∀ w ∈ others, v.digest q = w.digest q → Same q v w)
    (h : items.map (digest q) = others.map (digest q)) : List.Forall₂ (Same q) items others := by
  induction items generalizing others with
  | nil =>
    obtain rfl := List.map_eq_nil_iff.1 h.symm
    exact .nil
  | cons v items ih =>
    cases others with
    | nil => cases h
    | cons w others =>
      obtain ⟨hvw, hrest⟩ := List.cons.inj h
      exact .cons (hs v List.mem_cons_self w List.mem_cons_self hvw)
        (ih (fun v hv w hw => hs v (List.mem_cons_of_mem _ hv) w (List.mem_cons_of_mem _ hw)) hrest)

section
variable {B : List UInt8 → Prop} (hB : ¬ Digest.Collides B)
include hB

/-- Without collisions, values of one digest are the same. -/
theorem same_of_digest_eq {v w : Value} (hv : v.Proper) (hw : w.Proper) (hvB : v.Hashed B q)
    (hwB : w.Hashed B q) (h : v.digest q = w.digest q) : Same q v w := by
  induction v using Value.induction generalizing w with
  | float x =>
    cases digest_inj hB hv hw hvB hwB h with | float hb =>
    exact .float (sameFloat_of_bytes_eq hb)
  | seq items ih =>
    cases digest_inj hB hv hw hvB hwB h with | @seq _ others hd =>
    refine .seq (forall₂_same (fun v hvm w hwm hvw => ?_) hd)
    exact ih v hvm (hv.item hvm) (hw.item hwm) (hvB.item hvm) (hwB.item hwm) hvw
  | map entries ih =>
    cases digest_inj hB hv hw hvB hwB h with | @map _ others hd =>
    have hp := entries_perm hd
    have hmem {key : String} {v : Value} (hm : (key, v) ∈ entries) :
        ∃ w, (key, w) ∈ others ∧ w.digest q = v.digest q := by
      obtain ⟨⟨key', w⟩, hm', he⟩ := List.mem_map.1 (hp.mem_iff.1 (List.mem_map.2 ⟨_, hm, rfl⟩))
      obtain ⟨rfl, hdig⟩ := Prod.mk.inj he
      exact ⟨w, hm', hdig⟩
    refine (same_map_iff hv.fits.2.1 hw.fits.2.1).2 ⟨fun key => ?_, fun key v w hvm hwm => ?_⟩
    · have hkeys := (hp.map Prod.fst).mem_iff (a := key)
      rwa [List.map_map, List.map_map] at hkeys
    · obtain ⟨w', hwm', hdig⟩ := hmem hvm
      rw [eq_of_key_eq hw.fits.2.1 hwm' hwm] at hdig
      exact ih (key, v) hvm (hv.entry hvm) (hw.entry hwm) (hvB.entry hvm) (hwB.entry hwm) hdig.symm
  | _ =>
    cases digest_inj hB hv hw hvB hwB h
    constructor

end

/--
The same values have one digest. Values of one digest are the same, or two different byte strings that are
hashed for their digests collide.
-/
theorem digest_eq_iff_same (q : Quantization) {v w : Value} (hv : v.Proper) (hw : w.Proper) :
    (Same q v w → v.digest q = w.digest q) ∧
      (v.digest q = w.digest q →
        Same q v w ∨ Digest.Collides fun bytes => v.hashes q bytes ∨ w.hashes q bytes) := by
  refine ⟨fun h => h.digest_eq hv, fun h => ?_⟩
  refine Classical.or_iff_not_imp_right.2 fun hB => ?_
  refine same_of_digest_eq hB hv hw (fun u hu => ?_) (fun u hu => ?_) h
  · exact .inl (hashed_hashes q v u hu)
  · exact .inr (hashed_hashes q w u hu)

/-- An empty sequence under `b`, after a negative zero under `a`. -/
def zeroFirst : Value := .map [("a", .float ⟨0x8000000000000000⟩), ("b", .seq [])]

/-- The same two entries in the other order, with a positive zero. -/
def zeroLast : Value := .map [("b", .seq []), ("a", .float .zero)]

theorem same_zero : Same .disabled zeroFirst zeroLast := by
  refine .map (List.Perm.swap _ _ _) rfl (.cons (.seq .nil) (.cons (.float ?_) .nil))
  show SameFloat .disabled ⟨0x8000000000000000⟩ .zero
  exact ⟨rfl, fun _ => by decide⟩

/-- Order and the sign of a zero do not matter, but an empty sequence is no empty map. -/
theorem digest_eq_iff_same_zero : zeroFirst.Proper ∧ zeroLast.Proper ∧
    zeroFirst.digest .disabled = zeroLast.digest .disabled ∧
    ((seq []).digest .disabled = (map []).digest .disabled →
      Digest.Collides fun bytes => (seq []).hashes .disabled bytes ∨ (map []).hashes .disabled bytes) := by
  have hfirst : zeroFirst.Proper := by
    simp [zeroFirst, Proper, parts, entryParts, itemParts, Fits]
    rintro key v (⟨rfl, -⟩ | ⟨rfl, -⟩) <;> decide
  have hlast : zeroLast.Proper := by
    simp [zeroLast, Proper, parts, entryParts, itemParts, Fits]
    rintro key v (⟨rfl, -⟩ | ⟨rfl, -⟩) <;> decide
  have hseq : (seq []).Proper := by simp [Proper, parts, itemParts, Fits]
  have hmap : (map []).Proper := by simp [Proper, parts, entryParts, Fits]
  refine ⟨hfirst, hlast, (digest_eq_iff_same .disabled hfirst hlast).1 same_zero, fun h => ?_⟩
  refine ((digest_eq_iff_same .disabled hseq hmap).2 h).resolve_left ?_
  intro hsame
  cases hsame

end ConfigCompiler.Value
