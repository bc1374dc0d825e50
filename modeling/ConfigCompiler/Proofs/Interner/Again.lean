import ConfigCompiler.Proofs.Digest.Buckets
import ConfigCompiler.Proofs.Interner.Faithful

/-!
# Interning what a node gives back

A node gives back its value with the floats as the policy leaves them. The same node comes back for this, while it
is held, just if all these floats are told apart from none of the original ones (`Value.Settled`).
-/

namespace ConfigCompiler

namespace Value

variable {q : Quantization}

/-! ## Stored values -/

theorem storedItems_eq_map (items : List Value) : storedItems q items = items.map (stored q) := by
  induction items with
  | nil => rw [storedItems, List.map_nil]
  | cons v items ih => rw [storedItems, ih, List.map_cons]

theorem storedEntries_eq_map (entries : Entries Value) :
    storedEntries q entries = entries.map fun e => (e.1, e.2.stored q) := by
  induction entries with
  | nil => rw [storedEntries, List.map_nil]
  | cons e entries ih => rw [storedEntries, ih, List.map_cons]

theorem mem_stored_iff {entries : Entries Value} {e : String × Value} :
    e ∈ Entries.sorted (storedEntries q entries) ↔ ∃ f ∈ entries, (f.1, f.2.stored q) = e := by
  rw [(Entries.sorted_perm _).mem_iff, storedEntries_eq_map, List.mem_map]

theorem stored_keys_perm (entries : Entries Value) :
    ((Entries.sorted (storedEntries q entries)).map (·.1)).Perm (entries.map (·.1)) := by
  refine ((Entries.sorted_perm _).map _).trans ?_
  rw [storedEntries_eq_map, List.map_map]
  rfl

theorem Proper.stored {v : Value} (hv : v.Proper) : (v.stored q).Proper := by
  induction v using Value.induction with
  | seq items ih =>
    rw [Value.stored, storedItems_eq_map]
    refine proper_seq ?_ (List.forall_mem_map.2 fun v hm => ih v hm (hv.item hm))
    rw [Fits, List.length_map]
    exact hv.fits
  | map entries ih =>
    rw [Value.stored]
    obtain ⟨hlength, hnodup, hsized⟩ := hv.fits
    have hkeys := stored_keys_perm (q := q) entries
    refine proper_map ⟨?_, hkeys.nodup_iff.2 hnodup, fun e he => ?_⟩ fun e he => ?_
    · have := hkeys.length_eq
      rw [List.length_map, List.length_map] at this
      omega
    · obtain ⟨f, hf, rfl⟩ := mem_stored_iff.1 he
      exact hsized f hf
    · obtain ⟨f, hf, rfl⟩ := mem_stored_iff.1 he
      exact ih f hf (hv.entry hf)
  | float x =>
    intro u hu
    obtain rfl := List.mem_singleton.1 (show u ∈ [float (q.apply x)] from hu)
    trivial
  | _ => rw [Value.stored]; exact hv

/-- What a node gives back is the same value just if all floats settle. -/
theorem same_stored_iff {v : Value} (hv : v.Proper) : Same q v (v.stored q) ↔ v.Settled q := by
  induction v using Value.induction with
  | float x =>
    have hfloat : Same q (float x) (float (q.apply x)) ↔ SameFloat q x (q.apply x) :=
      ⟨fun h => by cases h with | float h => exact h, .float⟩
    rw [stored, hfloat, sameFloat_apply_iff]
    constructor
    · intro h y hy
      obtain rfl := Value.float.inj (List.mem_singleton.1 (show float y ∈ [float x] from hy))
      exact h
    · exact fun h => h x (self_mem_parts _)
  | seq items ih =>
    have hitems : Same q (seq items) ((seq items).stored q) ↔ List.Forall₂ (Same q) items (items.map (stored q)) := by
      rw [stored, storedItems_eq_map]
      exact ⟨fun h => by cases h with | seq h => exact h, .seq⟩
    rw [hitems, settled_seq_iff, List.forall₂_map_right_iff, List.forall₂_same]
    exact forall₂_congr fun v hm => ih v hm (hv.item hm)
  | map entries ih =>
    have hnodup := hv.fits.2.1
    have hkeys := stored_keys_perm (q := q) entries
    rw [stored, same_map_iff hnodup (hkeys.nodup_iff.2 hnodup), settled_map_iff]
    constructor
    · rintro ⟨-, h⟩ e he
      exact (ih e he (hv.entry he)).1 (h e.1 e.2 _ he (mem_stored_iff.2 ⟨e, he, rfl⟩))
    · intro h
      refine ⟨fun key => (hkeys.mem_iff).symm, fun key v w hm hw => ?_⟩
      obtain ⟨f, hf, he⟩ := mem_stored_iff.1 hw
      obtain ⟨rfl, rfl⟩ := Prod.mk.inj he
      obtain rfl := eq_of_key_eq hnodup hm hf
      exact (ih f hf (hv.entry hf)).2 (h f hf)
  | _ =>
    rw [stored]
    refine iff_of_true (by constructor) fun x hx => ?_
    rw [parts] at hx
    cases List.mem_singleton.1 hx

end Value

namespace Client

open Store (Live Sound Represents)

/--
In every state that a client can reach, and as long as the node of a value is live afterwards, interning what the
node gives back yields the node again, with the digest of the value, if all floats in the value settle; and
only then, unless two byte strings that are hashed for the two digests collide. A float settles if it goes by
its bits. If it is in a bucket below `2 ^ 51` of a width that settings admit, it settles just if the float that
stands for the bucket is finite.
-/
theorem interned_again (q : Quantization) {ops : List Op} (hp : ∀ op ∈ ops, op.Proper) {v : Value}
    (hv : v.Proper) :
    let c := (start q).run ops
    (∀ {s n}, c.store.intern v = (s, .ok n) → ∀ {later : List Op}, (∀ op ∈ later, op.Proper) →
      let c' := (c.step (.intern v)).run later
      Live c'.handles n →
        (v.Settled q → n.toValue.digest q = v.digest q ∧ ∃ s', c'.store.intern n.toValue = (s', .ok n)) ∧
        ((n.toValue.digest q = v.digest q ∨ ∃ s', c'.store.intern n.toValue = (s', .ok n)) →
          v.Settled q ∨ Digest.Collides fun bytes => v.hashes q bytes ∨ n.toValue.hashes q bytes)) ∧
    (∀ {x}, q.bucket? x = none → q.Settles x) ∧
    ∀ {x width bucket}, q.bucket? x = some (width, bucket) → Settings.isWidth width = true →
      bucket.toInt.natAbs < 2 ^ 51 → (q.Settles x ↔ ¬ q.Overflows x) := by
  intro c
  refine ⟨?_, Quantization.settles_of_none, fun hx hwidth => Quantization.settles_iff hwidth hx⟩
  intro s n hr later hlater c' hlive
  have hc : Sound (fun _ => True) q c.store c.handles := sound_run (sound_start _ q) hp fun _ _ => trivial
  have hs : Sound (fun _ => True) q c'.store c'.handles :=
    sound_run (sound_intern hc hv fun _ _ => trivial) hlater fun _ _ => trivial
  obtain ⟨-, hn⟩ := represents_of_intern hc hv hr
  have hproper : (v.stored q).Proper := hv.stored
  rw [hn.toValue]
  constructor
  · intro hsettled
    have hsame := (Value.same_stored_iff hv).2 hsettled
    exact ⟨(hsame.digest_eq hv).symm, (Store.intern_represented _ (hn.same hv hsame) hs hlive).imp fun _ h => h.1⟩
  · intro h
    have hd : (v.stored q).digest q = v.digest q := by
      rcases h with h | ⟨s', hs'⟩
      · exact h
      · rw [← (represents_of_intern hs hproper hs').2.digest, hn.digest]
    exact ((Value.digest_eq_iff_same q hv hproper).2 hd.symm).imp_left (Value.same_stored_iff hv).1

/-! ## Buckets of one half -/

def half : Binary64 := ⟨0x3fe0000000000000⟩

/-- Three tenths, which is in the bucket of one half. -/
def threeTenths : Binary64 := ⟨0x3fd3333333333333⟩

def tenths : Value := .seq [.float threeTenths]

def tenthsStrings : List (List UInt8) :=
  [(Value.float threeTenths).encoded (.epsilon half), tenths.encoded (.epsilon half)]

theorem hashed_tenths : tenths.Hashed (· ∈ tenthsStrings) (.epsilon half) := by
  intro u hu
  simp only [tenths, Value.parts, Value.itemParts, List.append_nil, List.mem_cons, List.not_mem_nil, or_false] at hu
  rcases hu with rfl | rfl
  · exact List.mem_cons_of_mem _ List.mem_cons_self
  · exact List.mem_cons_self

theorem not_collides_tenthsStrings : ¬ Digest.Collides (· ∈ tenthsStrings) := by
  have hne : Digest.ofBytes ((Value.float threeTenths).encoded (.epsilon half)) ≠
      Digest.ofBytes (tenths.encoded (.epsilon half)) := by
    simp only [tenths, Value.encoded, Value.fields, List.map, Value.digest, Digest.ofValueFields, Digest.ofFields_eq,
      Digest.ofBytes_eq]
    decide +kernel
  exact Digest.not_collides_of_nodup (by simp [tenthsStrings, hne])

/-- The sequence comes back as one half, after a sweep too, and interning this yields the same node. -/
theorem interned_again_tenths :
    Settings.isWidth half = true ∧ tenths.Proper ∧
      (Quantization.epsilon half).bucket? threeTenths = some (half, 1) ∧
      ∃ s n, (start (.epsilon half)).store.intern tenths = (s, .ok n) ∧ n.toValue = .seq [.float half] ∧
        let c' := ((start (.epsilon half)).step (.intern tenths)).run [.reclaim]
        c'.handles = [n] ∧ (∃ s', c'.store.intern n.toValue = (s', .ok n)) ∧
          n.toValue.digest (.epsilon half) = tenths.digest (.epsilon half) := by
  have hwidth : Settings.isWidth half = true := by decide
  have hbucket : (Quantization.epsilon half).bucket? threeTenths = some (half, 1) := by decide +kernel
  have hv : tenths.Proper := proper_seq_float threeTenths
  have hnone : ∀ op ∈ ([] : List Op), op.Proper := by simp
  have hlater : ∀ op ∈ [Op.reclaim], op.Proper := by simp [Op.Proper]
  obtain ⟨s, n, hr, -, -⟩ := Store.intern_ok not_collides_tenthsStrings hv hashed_tenths (sound_start _ (.epsilon half))
  obtain ⟨hagain, -, hfinite⟩ := interned_again (.epsilon half) hnone hv
  have hhandles : (((start (.epsilon half)).step (.intern tenths)).run [.reclaim]).handles = [n] := by
    rw [step_intern_ok hr]
    rfl
  have hlive : Live (((start (.epsilon half)).step (.intern tenths)).run [.reclaim]).handles n :=
    hhandles ▸ .held List.mem_cons_self
  have hsettled : tenths.Settled (.epsilon half) := by
    have hnarrow : ¬ (Quantization.epsilon half).Overflows threeTenths :=
      Quantization.not_overflows_of_narrow (k := 1) (by decide) fun w hw => by
        cases hw
        decide +kernel
    intro x hx
    obtain rfl : x = threeTenths := by
      simpa [tenths, Value.parts, Value.itemParts] using hx
    exact (hfinite hbucket hwidth (by decide)).2 hnarrow
  obtain ⟨hdigest, hsame⟩ := (hagain hr hlater hlive).1 hsettled
  have hvalue : n.toValue = .seq [.float half] := by
    have happly : (Quantization.epsilon half).apply threeTenths = half := by decide +kernel
    rw [(represents_of_intern (sound_start _ _) hv hr).2.toValue]
    simp only [tenths, Value.stored, Value.storedItems, happly]
  exact ⟨hwidth, hv, hbucket, s, n, hr, hvalue, hhandles, hsame, hdigest⟩

/-! ## A float that does not settle -/

/-- A width of `1e-9`. -/
def nano : Binary64 := ⟨0x3e112e0be826d695⟩

/-- The float next to `4194421.707189388`. -/
def drifting : Binary64 := ⟨0x4150001d6d429747⟩

/-- The float that stands for the bucket of `drifting`. -/
def drifted : Binary64 := ⟨0x4150001d6d429748⟩

theorem apply_drifting : (Quantization.epsilon nano).apply drifting = drifted := by decide +kernel

theorem digest_drifting_ne : (Value.float drifted).digest (.epsilon nano) ≠
    (Value.float drifting).digest (.epsilon nano) := by
  simp only [Value.digest, Digest.ofValueFields, Digest.ofFields_eq]
  decide +kernel

/--
A float in a bucket beyond `2 ^ 51` does not settle: its node gives back a float of the next bucket, for which
another node comes back although the node is held.
-/
theorem drifts : Settings.isWidth nano = true ∧
    (Quantization.epsilon nano).bucket? drifting = some (nano, 4194421707189388) ∧
    (Quantization.epsilon nano).bucket? drifted = some (nano, 4194421707189389) ∧
    (Value.float drifting).Proper ∧ ∃ s n, (start (.epsilon nano)).store.intern (.float drifting) = (s, .ok n) ∧
      ((start (.epsilon nano)).step (.intern (.float drifting))).handles = [n] ∧
      n.toValue = .float drifted ∧ (∀ s', s.intern n.toValue ≠ (s', .ok n)) ∧
      n.toValue.digest (.epsilon nano) ≠ (Value.float drifting).digest (.epsilon nano) := by
  have hv := proper_float drifting
  have hs := sound_start (fun _ => True) (.epsilon nano)
  have hhashed : (Value.float drifting).Hashed (· ∈ [(Value.float drifting).encoded (.epsilon nano)]) (.epsilon nano) :=
    fun u hu => by rw [List.mem_singleton.1 hu]; exact List.mem_singleton_self _
  have hB : ¬ Digest.Collides (· ∈ [(Value.float drifting).encoded (.epsilon nano)]) :=
    Digest.not_collides_of_nodup (by simp)
  obtain ⟨s, n, hr, -, -⟩ := Store.intern_ok hB hv hhashed (sound_start _ (.epsilon nano))
  obtain ⟨hs', hn⟩ := represents_of_intern hs hv hr
  have hvalue : n.toValue = .float drifted := by rw [hn.toValue, Value.stored, apply_drifting]
  refine ⟨by decide, by decide +kernel, by decide +kernel, hv, s, n, hr, by rw [step_intern_ok hr]; rfl, hvalue,
    fun s' hagain => ?_, ?_⟩
  · rw [hvalue] at hagain
    have hd := (represents_of_intern hs' (proper_float drifted) hagain).2.digest
    exact digest_drifting_ne (hd.symm.trans hn.digest)
  · rw [hvalue]
    exact digest_drifting_ne

end Client

end ConfigCompiler
