import Mathlib.Data.List.Perm.Basic
import ConfigCompiler.Proofs.Digest.Evaluation
import ConfigCompiler.Proofs.Interner.Interning
import ConfigCompiler.Proofs.Value.Search

/-!
# Clients of an interner

A client holds handles to nodes. In any order it interns values, looks for digests, takes handles to nodes
inside those that it holds, lets go of handles and has the table swept (`Client.step`). Besides its store
and its handles, a client remembers the byte strings that interning has hashed.

The store stays sound along every run (`Client.sound_run`), so a value is interned with its digest, unless
two of the byte strings that were hashed so far collide (`Client.digest_intern`).
-/

namespace ConfigCompiler

/-! ## Paths -/

/-- A part of a composite. -/
inductive Part where
  | item (i : Nat)
  | entry (key : String)

namespace Interned

def part? (n : Interned) : Part → Option Interned
  | .item i =>
    match n.shape with
    | .seq items => items[i]?
    | _ => none
  | .entry key => n.get? key

/-- The node at the end of a path. -/
def at? (n : Interned) : List Part → Option Interned
  | [] => some n
  | p :: path => (n.part? p).bind (·.at? path)

theorem mem_children_of_part? {n c : Interned} {p : Part} (h : n.part? p = some c) :
    c ∈ n.shape.children := by
  cases p with
  | item i =>
    rw [part?] at h
    cases hs : n.shape with
    | seq items =>
      rw [hs] at h
      exact List.mem_of_getElem? h
    | _ => rw [hs] at h; cases h
  | entry key =>
    rw [part?, get?] at h
    cases hs : n.shape with
    | map entries =>
      rw [hs] at h
      obtain ⟨e, he, rfl⟩ := Search.entry?_mem h
      exact List.mem_map.2 ⟨e, he, rfl⟩
    | _ => rw [hs] at h; cases h

end Interned

theorem Store.Live.at? {handles : List Interned} {n c : Interned} {path : List Part}
    (h : Live handles n) (hc : n.at? path = some c) : Live handles c := by
  induction path generalizing n with
  | nil =>
    cases hc
    exact h
  | cons p path ih =>
    obtain ⟨m, hm, hc⟩ := Option.bind_eq_some_iff.1 hc
    exact ih (h.child (Interned.mem_children_of_part? hm)) hc

/-! ## Clients -/

structure Client where
  store : Store
  handles : List Interned
  /-- The byte strings that interning has hashed so far. -/
  hashed : List (List UInt8)

namespace Client

open Store (Live Sound Represents)

inductive Op where
  | intern (v : Value)
  | lookup (d : Digest)
  /-- One more handle, to the node at a path inside the one of a handle; the empty path clones. -/
  | get (i : Nat) (path : List Part)
  | drop (i : Nat)
  | reclaim

def Op.Proper : Op → Prop
  | intern v => v.Proper
  | _ => True

def start (q : Quantization) : Client := ⟨.empty q, [], []⟩

/-- Keeps a handle to a live node, if there is one. -/
def keep (c : Client) : Option Interned → Client
  | none => c
  | some n => { c with store := c.store.retain n, handles := n :: c.handles }

/-- An operation on a handle that is not there does nothing. -/
def step (c : Client) : Op → Client
  | .intern v =>
    match c.store.intern v with
    | (s, .ok n) => ⟨s, n :: c.handles, c.hashed ++ c.store.hashing v⟩
    | (s, .error _) => ⟨s, c.handles, c.hashed ++ c.store.hashing v⟩
  | .lookup d => c.keep (c.store.lookup d)
  | .get i path => c.keep (c.handles[i]?.bind (·.at? path))
  | .drop i =>
    match c.handles[i]? with
    | none => c
    | some n => { c with store := c.store.release n, handles := c.handles.eraseIdx i }
  | .reclaim => { c with store := c.store.sweep.1 }

def run (c : Client) (ops : List Op) : Client := ops.foldl step c

theorem run_cons (c : Client) (op : Op) (ops : List Op) : c.run (op :: ops) = (c.step op).run ops := rfl

section
variable {B : List UInt8 → Prop} {q : Quantization} {c : Client}

@[simp] theorem hashed_keep (c : Client) (n? : Option Interned) : (c.keep n?).hashed = c.hashed := by
  cases n? <;> rfl

theorem step_intern_ok {v : Value} {s : Store} {n : Interned} (h : c.store.intern v = (s, .ok n)) :
    c.step (.intern v) = ⟨s, n :: c.handles, c.hashed ++ c.store.hashing v⟩ := by
  simp only [step, h]

theorem hashed_intern (c : Client) (v : Value) :
    (c.step (.intern v)).hashed = c.hashed ++ c.store.hashing v := by
  rw [step]
  rcases c.store.intern v with ⟨s, e | n⟩ <;> rfl

theorem hashed_subset_step (c : Client) (op : Op) : c.hashed ⊆ (c.step op).hashed := by
  cases op with
  | intern v =>
    rw [hashed_intern]
    exact List.subset_append_left _ _
  | lookup d => simp [step]
  | get i path => simp [step]
  | drop i =>
    rw [step]
    split <;> exact List.Subset.refl _
  | reclaim => exact List.Subset.refl _

theorem hashed_subset_run (c : Client) (ops : List Op) : c.hashed ⊆ (c.run ops).hashed := by
  induction ops generalizing c with
  | nil => exact List.Subset.refl _
  | cons op ops ih => exact List.Subset.trans (c.hashed_subset_step op) (ih (c.step op))

/-! ## Soundness -/

theorem sound_start (B : List UInt8 → Prop) (q : Quantization) :
    Sound B q (start q).store (start q).handles := ⟨[], Store.inv_empty B q⟩

theorem sound_keep (h : Sound B q c.store c.handles) {n? : Option Interned}
    (hn : ∀ n, n? = some n → Live c.handles n) :
    Sound B q (c.keep n?).store (c.keep n?).handles := by
  cases n? with
  | none => exact h
  | some n => exact h.retain_live (hn n rfl)

/-- What interning adds to the handles of a client. -/
theorem sound_intern (h : Sound B q c.store c.handles) {v : Value} (hv : v.Proper)
    (hB : ∀ bytes ∈ (c.step (.intern v)).hashed, B bytes) :
    Sound B q (c.step (.intern v)).store (c.step (.intern v)).handles := by
  have hy := Store.intern_yields hv h fun bytes hb =>
    hB bytes (by rw [hashed_intern]; exact List.mem_append_right _ hb)
  rw [step]
  cases hr : c.store.intern v with | mk s r =>
  rw [hr] at hy
  cases hy with
  | ok hs _ => exact hs
  | error hs _ => exact hs

theorem sound_step (h : Sound B q c.store c.handles) {op : Op} (hp : op.Proper)
    (hB : ∀ bytes ∈ (c.step op).hashed, B bytes) :
    Sound B q (c.step op).store (c.step op).handles := by
  cases op with
  | intern v => exact sound_intern h hp hB
  | lookup d => exact sound_keep h fun n hn => (h.lookup_iff.1 hn).1
  | get i path =>
    refine sound_keep h fun n hn => ?_
    obtain ⟨m, hm, hn⟩ := Option.bind_eq_some_iff.1 hn
    exact (Live.held (List.mem_of_getElem? hm)).at? hn
  | drop i =>
    rw [step]
    split
    · exact h
    · rename_i n hn
      obtain ⟨hi, rfl⟩ := List.getElem?_eq_some_iff.1 hn
      exact (h.perm (List.getElem_cons_eraseIdx_perm hi).symm).release
  | reclaim => exact h.sweep

/-- The store stays sound, as long as all that is hashed is in `B`. -/
theorem sound_run (h : Sound B q c.store c.handles) {ops : List Op} (hp : ∀ op ∈ ops, op.Proper)
    (hB : ∀ bytes ∈ (c.run ops).hashed, B bytes) :
    Sound B q (c.run ops).store (c.run ops).handles := by
  induction ops generalizing c with
  | nil => exact h
  | cons op ops ih =>
    have hstep := sound_step h (hp op List.mem_cons_self) fun bytes hb =>
      hB bytes ((c.step op).hashed_subset_run ops hb)
    exact ih hstep (fun op hm => hp op (List.mem_cons_of_mem _ hm)) hB

/-- What a run hashes are encodings of parts of the values that it interns. -/
theorem of_mem_hashed_run (h : Sound (fun _ => True) q c.store c.handles)
    (hc : ∀ bytes ∈ c.hashed, B bytes) {ops : List Op}
    (hops : ∀ v, .intern v ∈ ops → v.Proper ∧ v.Hashed B q) : ∀ bytes ∈ (c.run ops).hashed, B bytes := by
  induction ops generalizing c with
  | nil => exact hc
  | cons op ops ih =>
    have hp : op.Proper := by
      cases op with
      | intern v => exact (hops v List.mem_cons_self).1
      | _ => trivial
    refine ih (sound_step h hp fun _ _ => trivial) (fun bytes hb => ?_) fun v hm =>
      hops v (List.mem_cons_of_mem _ hm)
    cases op with
    | intern v =>
      obtain ⟨hv, hvB⟩ := hops v List.mem_cons_self
      rw [hashed_intern] at hb
      rcases List.mem_append.1 hb with hb | hb
      · exact hc bytes hb
      · exact Store.of_mem_hashing hv hvB h bytes hb
    | lookup d => exact hc bytes (by simpa [step] using hb)
    | get i path => exact hc bytes (by simpa [step] using hb)
    | drop i =>
      rw [step] at hb
      split at hb <;> exact hc bytes hb
    | reclaim => exact hc bytes hb

end

/-! ## Zeros -/

def negativeZero : Binary64 := ⟨0x8000000000000000⟩

/-- What is hashed for a zero in a sequence, under a width that is no number. -/
def zeroStrings : List (List UInt8) :=
  [(Value.float negativeZero).encoded (.epsilon .nan),
    (Value.seq [.float negativeZero]).encoded (.epsilon .nan)]

theorem digest_zero_ne : Digest.ofBytes ((Value.float negativeZero).encoded (.epsilon .nan)) ≠
    Digest.ofBytes ((Value.seq [.float negativeZero]).encoded (.epsilon .nan)) := by
  simp only [Value.encoded, Value.fields, List.map, Value.digest, Digest.ofValueFields, Digest.ofFields_eq,
    Digest.ofBytes_eq]
  decide +kernel

theorem not_collides_zeroStrings : ¬ Digest.Collides (· ∈ zeroStrings) :=
  Digest.not_collides_of_nodup (by simp [zeroStrings, digest_zero_ne])

/-- Zeros of either sign are hashed alike. -/
theorem zero_bytes : (Digest.Field.float .zero (.epsilon .nan)).bytes =
    (Digest.Field.float negativeZero (.epsilon .nan)).bytes := by decide

theorem proper_float (x : Binary64) : (Value.float x).Proper := by
  simp [Value.Proper, Value.parts, Value.Fits]

theorem proper_seq_float (x : Binary64) : (Value.seq [.float x]).Proper := by
  simp [Value.Proper, Value.parts, Value.itemParts, Value.Fits]

theorem encoded_seq_float {x : Binary64} (hx : (Digest.Field.float x (.epsilon .nan)).bytes =
    (Digest.Field.float negativeZero (.epsilon .nan)).bytes) :
    (Value.seq [.float x]).encoded (.epsilon .nan) =
      (Value.seq [.float negativeZero]).encoded (.epsilon .nan) := by
  rw [Value.encoded, Value.encoded, Value.fields, Value.fields, List.map_singleton,
    List.map_singleton, Value.digest_float_congr hx]

theorem hashed_seq_float {x : Binary64} (hx : (Digest.Field.float x (.epsilon .nan)).bytes =
    (Digest.Field.float negativeZero (.epsilon .nan)).bytes) :
    (Value.seq [.float x]).Hashed (· ∈ zeroStrings) (.epsilon .nan) := by
  intro u hu
  simp only [Value.parts, Value.itemParts, List.append_nil, List.mem_cons, List.not_mem_nil,
    or_false] at hu
  rcases hu with rfl | rfl
  · exact List.mem_cons_of_mem _ (List.mem_singleton.2 (encoded_seq_float hx))
  · exact List.mem_cons.2 (.inl (Value.encoded_float_congr hx))

/-- A negative zero and then a sequence with a positive one: nothing that is hashed collides. -/
theorem not_collides_run_zeros : ¬ Digest.Collides (· ∈ (((start (.epsilon .nan)).run
    [.intern (.float negativeZero)]).step (.intern (.seq [.float .zero]))).hashed) := by
  have hops : ∀ v, Op.intern v ∈ [Op.intern (.float negativeZero), .intern (.seq [.float .zero])] →
      v.Proper ∧ v.Hashed (· ∈ zeroStrings) (.epsilon .nan) := by
    intro v hm
    simp only [List.mem_cons, Op.intern.injEq, List.not_mem_nil, or_false] at hm
    rcases hm with rfl | rfl
    · exact ⟨proper_float _, (hashed_seq_float rfl).item List.mem_cons_self⟩
    · exact ⟨proper_seq_float .zero, hashed_seq_float zero_bytes⟩
  have hsub := of_mem_hashed_run (sound_start _ (.epsilon .nan)) (by simp [start]) hops
  exact fun h => not_collides_zeroStrings (h.mono hsub)

/-! ## Digests -/

/-- After a run, interning ends with a node for the value, or two of the byte strings hashed so far collide. -/
theorem yields_run (q : Quantization) {ops : List Op} (hp : ∀ op ∈ ops, op.Proper) {v : Value}
    (hv : v.Proper) :
    let c := (start q).run ops
    Store.Yields (· ∈ (c.step (.intern v)).hashed) q c.handles (fun n => [n]) (Represents q v)
      (c.store.intern v) := by
  intro c
  refine Store.intern_yields hv (sound_run (sound_start _ q) hp fun bytes hb => c.hashed_subset_step _ hb) ?_
  intro bytes hb
  rw [hashed_intern]
  exact List.mem_append_right _ hb

/--
In every state that a client can reach, under every policy, what interning a value yields has the digest of
the value. It fails only if two different byte strings that were hashed so far have one digest.
-/
theorem digest_intern (q : Quantization) {ops : List Op} (hp : ∀ op ∈ ops, op.Proper) {v : Value}
    (hv : v.Proper) :
    let c := (start q).run ops
    let hashed := (c.step (.intern v)).hashed
    (∀ {s n}, c.store.intern v = (s, .ok n) → n.digest = v.digest q) ∧
      (∀ {s e}, c.store.intern v = (s, .error e) → Digest.Collides (· ∈ hashed)) ∧
      (¬ Digest.Collides (· ∈ hashed) → ∃ s n, c.store.intern v = (s, .ok n)) := by
  intro c hashed
  have hy : Store.Yields (· ∈ hashed) q c.handles (fun n => [n]) (Represents q v) (c.store.intern v) :=
    yields_run q hp hv
  refine ⟨fun h => ?_, fun h => ?_, hy.exists_ok⟩
  · rw [h] at hy
    cases hy with | ok _ hn => exact hn.digest
  · rw [h] at hy
    cases hy with | error _ hc => exact hc

/-- After a negative zero, a sequence with a positive one, under a width that is no number. -/
theorem digest_intern_zero :
    (∀ op ∈ [Op.intern (.float negativeZero)], op.Proper) ∧ (Value.seq [.float .zero]).Proper ∧
      ∃ s n, ((start (.epsilon .nan)).run [.intern (.float negativeZero)]).store.intern
          (.seq [.float .zero]) = (s, .ok n) ∧
        n.digest = (Value.seq [.float negativeZero]).digest (.epsilon .nan) := by
  have hp : ∀ op ∈ [Op.intern (.float negativeZero)], op.Proper := by
    simp [Op.Proper, proper_float]
  have hv := proper_seq_float .zero
  obtain ⟨hd, -, hok⟩ := digest_intern (.epsilon .nan) hp hv
  obtain ⟨s, n, hr⟩ := hok not_collides_run_zeros
  refine ⟨hp, hv, s, n, hr, (hd hr).trans ?_⟩
  rw [Value.digest_eq_ofValueFields, Value.digest_eq_ofValueFields]
  exact congrArg Digest.ofBytes (encoded_seq_float zero_bytes)

end Client

end ConfigCompiler
