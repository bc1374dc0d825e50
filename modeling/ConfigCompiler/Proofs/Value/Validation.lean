import ConfigCompiler.Pipeline.Validation
import ConfigCompiler.Proofs.Digest.Agreement
import ConfigCompiler.Proofs.Value.Digest

/-!
# Validation depends on the digest only

Whether a configuration is valid can be told from its digest (`validate_congr`): the order of entries and
the spelling of floats within a bucket do not matter. What does not fit is reported at different places.
-/

namespace ConfigCompiler.Value

/-! ## When a value is valid -/

theorem bind_unit_ok_iff {ε : Type} {a : Except ε Unit} {b : Unit → Except ε Unit} :
    a >>= b = .ok () ↔ a = .ok () ∧ b () = .ok () := by
  cases a with
  | error e => exact iff_of_false (fun h => nomatch h) (fun h => nomatch h.1)
  | ok u => exact ⟨fun h => ⟨rfl, h⟩, fun h => h.2⟩

theorem checkItems_ok_iff {path : String} {depth : Nat} {items : List Value} {i : Nat} :
    checkItems path depth i items = .ok () ↔
      ∀ {k : Nat} {v}, items[k]? = some v → checkAt (itemPath path (i + k)) depth v = .ok () := by
  induction items generalizing i with
  | nil => simp [checkItems]
  | cons v items ih =>
    rw [checkItems, bind_unit_ok_iff, ih]
    constructor
    · rintro ⟨hv, hitems⟩ k w hk
      cases k with
      | zero => cases hk; exact hv
      | succ k =>
        have := hitems hk
        rwa [show i + 1 + k = i + (k + 1) by omega] at this
    · refine fun h => ⟨h (k := 0) rfl, fun {k w} hk => ?_⟩
      have := h (k := k + 1) hk
      rwa [show i + (k + 1) = i + 1 + k by omega] at this

theorem checkEntries_ok_iff {path : String} {depth : Nat} {entries : Entries Value} :
    checkEntries path depth entries = .ok () ↔
      ∀ e ∈ entries, e.1.isEmpty = false ∧ checkAt (entryPath path e.1) depth e.2 = .ok () := by
  induction entries with
  | nil => simp [checkEntries]
  | cons e entries ih =>
    obtain ⟨key, v⟩ := e
    rw [checkEntries, List.forall_mem_cons, ← ih]
    cases hk : key.isEmpty with
    | true => simp [throw, throwThe, MonadExceptOf.throw, bind, Except.bind]
    | false => simp [bind_unit_ok_iff]

theorem checkRoot_ok_iff {entries : Entries Value} : checkRoot entries = .ok () ↔
    ∀ e ∈ entries, (∃ p, Pattern.parse e.1 = .ok p) ∧ checkAt e.1 1 e.2 = .ok () := by
  induction entries with
  | nil => simp [checkRoot]
  | cons e entries ih =>
    obtain ⟨key, v⟩ := e
    rw [checkRoot, List.forall_mem_cons, ← ih]
    cases hp : Pattern.parse key with
    | error e => simp [throw, throwThe, MonadExceptOf.throw, bind, Except.bind]
    | ok p => simp [bind_unit_ok_iff]

/-- A check that comes after another one. -/
theorem guarded_ok_iff {p : Prop} [Decidable p] {e : ValidationError} {r : Except ValidationError Unit} :
    (if p then .error e else r) = .ok () ↔ ¬ p ∧ r = .ok () := by
  split
  · exact iff_of_false nofun fun h => h.1 ‹p›
  · exact (and_iff_right ‹¬ p›).symm

theorem checkAt_seq_ok_iff {path : String} {depth : Nat} {items : List Value} :
    checkAt path depth (.seq items) = .ok () ↔ ¬ maxDepth < depth ∧
      ∀ {k : Nat} {v}, items[k]? = some v → checkAt (itemPath path (0 + k)) (depth + 1) v = .ok () := by
  rw [checkAt, guarded_ok_iff, checkItems_ok_iff]

theorem checkAt_map_ok_iff {path : String} {depth : Nat} {entries : Entries Value} :
    checkAt path depth (.map entries) = .ok () ↔ ¬ maxDepth < depth ∧
      ∀ e ∈ entries, e.1.isEmpty = false ∧ checkAt (entryPath path e.1) (depth + 1) e.2 = .ok () := by
  rw [checkAt, guarded_ok_iff, checkEntries_ok_iff]

theorem checkAt_float_ok_iff {path : String} {depth : Nat} {x : Binary64} :
    checkAt path depth (.float x) = .ok () ↔ ¬ maxDepth < depth ∧ x.isFinite = true := by
  rw [checkAt, guarded_ok_iff]
  cases x.isFinite <;> simp

/-! ## Values of one digest -/

theorem normalize_isFinite (x : Binary64) : x.normalize.isFinite = x.isFinite := by
  unfold Binary64.normalize
  split
  · rename_i h
    have h' : Binary64.infinityBits < x.magnitude := by simpa [Binary64.isNaN] using h
    rw [show Binary64.nan.isFinite = false by decide, Binary64.isFinite, decide_eq_false (by omega)]
  · split
    · rename_i h
      have h' : x.magnitude = 0 := by simpa [Binary64.isZero] using h
      rw [show Binary64.zero.isFinite = true by decide, Binary64.isFinite, h']
      rfl
    · rfl

theorem isFinite_of_bucket? {q : Quantization} {x : Binary64} {p : Binary64 × Int64}
    (h : q.bucket? x = some p) : x.isFinite = true := by
  cases q with
  | disabled => cases h
  | epsilon width =>
    simp only [Quantization.bucket?] at h
    split at h
    · rename_i hc
      simp only [Bool.and_eq_true] at hc
      exact hc.1.1
    · cases h

theorem isFinite_congr {q : Quantization} {x y : Binary64}
    (h : (Digest.Field.float x q).bytes = (Digest.Field.float y q).bytes) :
    x.isFinite = y.isFinite := by
  rcases Digest.Field.float_bytes_iff.1 h with ⟨width, bucket, hx, hy⟩ | ⟨-, -, hn⟩
  · rw [isFinite_of_bucket? hx, isFinite_of_bucket? hy]
  · rw [← normalize_isFinite x, hn, normalize_isFinite]

theorem apply_congr {q : Quantization} {x y : Binary64}
    (h : (Digest.Field.float x q).bytes = (Digest.Field.float y q).bytes) :
    q.apply x = q.apply y := by
  rcases Digest.Field.float_bytes_iff.1 h with ⟨width, bucket, hx, hy⟩ | ⟨hx, hy, hn⟩
  · simp only [Quantization.apply, hx, hy]
  · simp only [Quantization.apply, hx, hy, hn]

/-- Maps of one digest have the same keys, with values of the same digests. -/
theorem entries_perm {q : Quantization} {entries others : Entries Value}
    (h : Entries.sorted (entries.map fun e => (e.1, e.2.digest q)) =
      Entries.sorted (others.map fun e => (e.1, e.2.digest q))) :
    (entries.map fun e => (e.1, e.2.digest q)).Perm (others.map fun e => (e.1, e.2.digest q)) :=
  (Entries.sorted_perm _).symm.trans (h ▸ Entries.sorted_perm _)

section
variable {B : List UInt8 → Prop} {q : Quantization} (hB : ¬ Digest.Collides B)
include hB

theorem checkAt_of_digest_eq {v w : Value} (hv : v.Proper) (hw : w.Proper) (hvB : v.Hashed B q)
    (hwB : w.Hashed B q) (h : v.digest q = w.digest q) {path path' : String} {depth : Nat}
    (hok : checkAt path depth v = .ok ()) : checkAt path' depth w = .ok () := by
  induction v using Value.induction generalizing w path path' depth with
  | seq items ih =>
    cases digest_inj hB hv hw hvB hwB h with | @seq _ others hd =>
    rw [checkAt_seq_ok_iff] at hok ⊢
    refine hok.imp_right fun hok {k w'} hw' => ?_
    have hk : (others.map (digest q))[k]? = some (w'.digest q) := by simp [hw']
    rw [← hd, List.getElem?_map, Option.map_eq_some_iff] at hk
    obtain ⟨v', hv', hd'⟩ := hk
    have hvm := List.mem_of_getElem? hv'
    have hwm := List.mem_of_getElem? hw'
    exact ih v' hvm (hv.item hvm) (hw.item hwm) (hvB.item hvm) (hwB.item hwm) hd' (hok hv')
  | map entries ih =>
    cases digest_inj hB hv hw hvB hwB h with | @map _ others hd =>
    rw [checkAt_map_ok_iff] at hok ⊢
    refine hok.imp_right fun hok f hf => ?_
    have hm := (entries_perm hd).mem_iff.2 (List.mem_map.2 ⟨f, hf, rfl⟩)
    obtain ⟨e, he, hef⟩ := List.mem_map.1 hm
    obtain ⟨hkey, hdig⟩ := Prod.mk.inj hef
    refine ⟨hkey ▸ (hok e he).1, ?_⟩
    exact ih e he (hv.entry he) (hw.entry hf) (hvB.entry he) (hwB.entry hf) hdig (hok e he).2
  | float x =>
    cases digest_inj hB hv hw hvB hwB h with | float hb =>
    rw [checkAt_float_ok_iff] at hok ⊢
    rwa [← isFinite_congr hb]
  | _ =>
    cases digest_inj hB hv hw hvB hwB h
    rw [checkAt, guarded_ok_iff] at hok ⊢
    exact hok

/-- Without collisions, configurations of one digest are both valid or both not. -/
theorem validate_congr {v w : Value} (hv : v.Proper) (hw : w.Proper) (hvB : v.Hashed B q)
    (hwB : w.Hashed B q) (h : v.digest q = w.digest q) :
    v.validate = .ok () ↔ w.validate = .ok () := by
  have himp {v w : Value} (hv : v.Proper) (hw : w.Proper) (hvB : v.Hashed B q)
      (hwB : w.Hashed B q) (h : v.digest q = w.digest q) (hok : v.validate = .ok ()) :
      w.validate = .ok () := by
    cases digest_inj hB hv hw hvB hwB h with
    | @map entries others hd =>
      change checkRoot entries = .ok () at hok
      change checkRoot others = .ok ()
      rw [checkRoot_ok_iff] at hok ⊢
      intro f hf
      have hm := (entries_perm hd).mem_iff.2 (List.mem_map.2 ⟨f, hf, rfl⟩)
      obtain ⟨e, he, hef⟩ := List.mem_map.1 hm
      obtain ⟨hkey, hdig⟩ := Prod.mk.inj hef
      refine ⟨hkey ▸ (hok e he).1, ?_⟩
      exact checkAt_of_digest_eq hB (hv.entry he) (hw.entry hf) (hvB.entry he) (hwB.entry hf) hdig
        (hok e he).2
    | _ => cases hok
  exact ⟨himp hv hw hvB hwB h, himp hw hv hwB hvB h.symm⟩

end

end ConfigCompiler.Value
