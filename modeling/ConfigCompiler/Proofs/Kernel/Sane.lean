import Mathlib.Data.Multiset.AddSub
import ConfigCompiler.Proofs.Cache.Contents
import ConfigCompiler.Proofs.Kernel.Answers
import ConfigCompiler.Proofs.Kernel.Ledger
import ConfigCompiler.Proofs.Kernel.Policy

/-!
# What a kernel keeps for its callers

`Kernel.Sane`: what a kernel has cached and what its flights have landed with is right for the keys, and a slot
belongs to a flight that still runs. `Kernel.held` are the payloads that a kernel refers to itself: those of
its entries, and for each landed flight one for every caller who has yet to take it.
-/

namespace ConfigCompiler.Kernel

variable {H : Type} {B : List UInt8 → Prop} {q : Quantization} {dest : List CacheKey}
variable {k k' : Kernel H} {key : CacheKey} {f : Nat}

/-! ## Right contents -/

/-- All that calls may be answered with is right; `dest` are the keys of the flights. -/
structure Sane (B : List UInt8 → Prop) (q : Quantization) (dest : List CacheKey) (k : Kernel H) : Prop where
  standard : k.policy.Standard
  size : dest.length = k.cache.flights.size
  /-- No producer unwinds. -/
  kept : ∀ f < k.cache.flights.size, k.cache.landing f ≠ .abandoned
  entries : ∀ e ∈ k.cache.entries, Right H B q e.key (.ok e.value)
  slots : ∀ {key f}, (key, f) ∈ k.cache.slots → dest[f]? = some key ∧ k.cache.landing f = .running
  landed : ∀ {f res}, k.cache.landing f = .landed res → ∃ key, dest[f]? = some key ∧ Right H B q key res

theorem Sane.congr (h : k.Sane B q dest) (hp : k'.policy = k.policy) (hc : k'.cache = k.cache) :
    k'.Sane B q dest where
  standard := hp ▸ h.standard
  size := hc ▸ h.size
  kept := hc ▸ h.kept
  entries := hc ▸ h.entries
  slots := hc ▸ h.slots
  landed := hc ▸ h.landed

/-- Entries may be lost or used. -/
theorem Sane.entries_subset (h : k.Sane B q dest) {cache : Cache CacheKey KernelError Payload}
    (he : ∀ e ∈ cache.entries, e ∈ k.cache.entries) (hs : cache.slots = k.cache.slots)
    (hf : cache.flights = k.cache.flights) : ({ k with cache } : Kernel H).Sane B q dest := by
  have hl (f : Nat) : cache.landing f = k.cache.landing f := by
    rw [Cache.landing, hf]
    rfl
  exact
    { standard := h.standard
      size := hf ▸ h.size
      kept := fun f hlt => by
        change cache.landing f ≠ _
        rw [hl]
        exact h.kept f (hf ▸ hlt)
      entries := fun e hm => h.entries e (he e hm)
      slots := fun {key f} hm => by
        obtain ⟨hd, hr⟩ := h.slots (hs ▸ hm)
        exact ⟨hd, (hl f).trans hr⟩
      landed := fun {f res} hm => h.landed ((hl f).symm.trans hm) }

theorem landing_lt {c : Cache CacheKey KernelError Payload} {res : Except KernelError Payload}
    (h : c.landing f = .landed res) : f < c.flights.size := by
  refine Classical.byContradiction fun hge => ?_
  rw [Cache.landing, Array.getElem?_eq_none (by omega)] at h
  cases h

theorem landing_push (c : Cache CacheKey KernelError Payload) (f : Nat)
    {c' : Cache CacheKey KernelError Payload} (hf : c'.flights = c.flights.push .takeOff) :
    c'.landing f = if f = c.flights.size then .running else c.landing f := by
  rw [Cache.landing, hf, Array.getElem?_push]
  split
  · rfl
  · rfl

theorem landing_modify (c : Cache CacheKey KernelError Payload) {f : Nat} (g : Nat)
    {res : Except KernelError Payload} {c' : Cache CacheKey KernelError Payload}
    (hf : c'.flights = c.flights.modify f (·.land res)) (hlt : f < c.flights.size) :
    c'.landing g = if g = f then .landed res else c.landing g := by
  rw [Cache.landing, hf, Array.getElem?_modify]
  by_cases hg : f = g
  · subst hg
    rw [if_pos rfl, if_pos rfl, Array.getElem?_eq_getElem hlt]
    rfl
  · rw [if_neg hg, if_neg (Ne.symm hg)]
    rfl

/-- A flight takes off. -/
theorem Sane.takeOff (h : k.Sane B q dest) {cache : Cache CacheKey KernelError Payload}
    (he : cache.entries = k.cache.entries) (hs : cache.slots = (key, k.cache.flights.size) :: k.cache.slots)
    (hf : cache.flights = k.cache.flights.push .takeOff) :
    ({ k with cache } : Kernel H).Sane B q (dest ++ [key]) where
  standard := h.standard
  size := by
    change (dest ++ [key]).length = cache.flights.size
    rw [hf, List.length_append, Array.size_push, h.size, List.length_singleton]
  kept := fun f hlt => by
    change f < cache.flights.size at hlt
    change cache.landing f ≠ _
    rw [landing_push k.cache f hf]
    split
    · nofun
    · rw [hf, Array.size_push] at hlt
      exact h.kept f (by omega)
  entries := fun e hm => h.entries e (he ▸ hm)
  slots := fun {key' f} hm => by
    change (key', f) ∈ cache.slots at hm
    change (dest ++ [key])[f]? = some key' ∧ cache.landing f = .running
    rw [landing_push k.cache f hf]
    rw [hs] at hm
    rcases List.mem_cons.1 hm with hm | hm
    · cases hm
      rw [if_pos rfl, ← h.size, List.getElem?_concat_length]
      exact ⟨rfl, rfl⟩
    · obtain ⟨hd, hr⟩ := h.slots hm
      refine ⟨getElem?_of_append hd _, ?_⟩
      split
      · rfl
      · exact hr
  landed := fun {f res} hm => by
    change cache.landing f = .landed res at hm
    rw [landing_push k.cache f hf] at hm
    split at hm
    · cases hm
    · obtain ⟨key', hd, hr⟩ := h.landed hm
      exact ⟨key', getElem?_of_append hd _, hr⟩

/-- A flight lands with a result that is right for its key. -/
theorem Sane.land (h : k.Sane B q dest) (hd : dest[f]? = some key) {res : Except KernelError Payload}
    (hr : Right H B q key res) :
    ({ k with cache := (k.cache.finish key f res).1 } : Kernel H).Sane B q dest := by
  have hlt : f < k.cache.flights.size := by
    rw [← h.size]
    exact (List.getElem?_eq_some_iff.1 hd).1
  have hl (g : Nat) := landing_modify k.cache g (Cache.finish_flights k.cache key f res) hlt
  exact
    { standard := h.standard
      size := by
        change dest.length = (k.cache.finish key f res).1.flights.size
        rw [Cache.finish_flights, Array.size_modify]
        exact h.size
      kept := fun g hg => by
        change g < (k.cache.finish key f res).1.flights.size at hg
        change (k.cache.finish key f res).1.landing g ≠ _
        rw [hl]
        split
        · nofun
        · rw [Cache.finish_flights, Array.size_modify] at hg
          exact h.kept g hg
      entries := fun e hm => by
        rcases Cache.mem_finish hm with hm | ⟨rfl, he⟩
        · exact h.entries e hm
        · exact he ▸ hr
      slots := fun {key' g} hm => by
        change (key', g) ∈ (k.cache.finish key f res).1.slots at hm
        rw [Cache.finish_slots, List.mem_filter] at hm
        obtain ⟨hg, hrun⟩ := h.slots hm.1
        refine ⟨hg, (hl g).trans ?_⟩
        rw [if_neg]
        · exact hrun
        · rintro rfl
          cases hg.symm.trans hd
          simp at hm
      landed := fun {g res'} hm => by
        have hm' := (hl g).symm.trans hm
        split at hm'
        · rename_i hg
          cases hm'
          exact ⟨key, hg ▸ hd, hr⟩
        · exact h.landed hm' }

theorem size_foldl_markStale (slots : List (CacheKey × Nat)) (flights : Array (Flight KernelError Payload)) :
    (slots.foldl (fun flights slot => flights.modify slot.2 Flight.markStale) flights).size = flights.size := by
  induction slots generalizing flights with
  | nil => rfl
  | cons slot slots ih => rw [List.foldl_cons, ih, Array.size_modify]

theorem landing_invalidate (c : Cache CacheKey KernelError Payload) (doomed : CacheKey → Bool) (f : Nat) :
    (c.invalidate doomed).1.landing f = c.landing f := by
  rw [Cache.landing, Cache.getElem?_invalidate_flights, Cache.landing, Option.map_map]
  cases c.flights[f]? with
  | none => rfl
  | some fl =>
    simp only [Option.map_some, Function.comp_apply, Option.getD_some]
    split <;> rfl

theorem Sane.invalidate (h : k.Sane B q dest) (doomed : CacheKey → Bool) :
    ({ k with cache := (k.cache.invalidate doomed).1 } : Kernel H).Sane B q dest where
  standard := h.standard
  size := by
    change dest.length = (List.foldl _ k.cache.flights _).size
    rw [size_foldl_markStale]
    exact h.size
  kept := fun f hlt => by
    change f < (List.foldl _ k.cache.flights _).size at hlt
    rw [size_foldl_markStale] at hlt
    change (k.cache.invalidate doomed).1.landing f ≠ _
    rw [landing_invalidate]
    exact h.kept f hlt
  entries := fun e hm => h.entries e (Cache.mem_invalidate hm)
  slots := fun {key' f} hm => by
    change (key', f) ∈ (k.cache.invalidate doomed).1.slots at hm
    rw [Cache.invalidate_slots, List.mem_filter] at hm
    obtain ⟨hd, hr⟩ := h.slots hm.1
    exact ⟨hd, (landing_invalidate _ _ _).trans hr⟩
  landed := fun {f res} hm => h.landed ((landing_invalidate _ _ _).symm.trans hm)

/-! ## Payloads that are held -/

/-- What a flight holds for those who wait for it. -/
def share (k : Kernel H) (f : Nat) : List Payload :=
  match k.cache.landing f with
  | .landed (.ok p) => List.replicate (k.waiting.getD f 0) p
  | _ => []

def shares (k : Kernel H) : List Payload := (List.range k.cache.flights.size).flatMap k.share

/-- The payloads that a kernel refers to. -/
def held (k : Kernel H) : List Payload := k.cache.values ++ k.shares

theorem shares_congr (hs : k'.cache.flights.size = k.cache.flights.size) (h : ∀ f, k'.share f = k.share f) :
    k'.shares = k.shares := by
  rw [shares, shares, hs, funext h]

theorem shares_eq (hf : k'.cache.flights = k.cache.flights) (hw : k'.waiting = k.waiting) :
    k'.shares = k.shares := by
  refine shares_congr (by rw [hf]) fun f => ?_
  rw [share, share, Cache.landing, Cache.landing, hf, hw]

theorem held_eq (hc : k'.cache = k.cache) (hw : k'.waiting = k.waiting) : k'.held = k.held := by
  rw [held, held, shares_eq (by rw [hc]) hw, hc]

/-- Only one flight's share changes. -/
theorem exists_shares (h : ∀ g, g ≠ f → k'.share g = k.share g)
    (hs : k'.cache.flights.size = k.cache.flights.size) (hf : f < k.cache.flights.size) :
    ∃ rest, k.shares.Perm (k.share f ++ rest) ∧ k'.shares.Perm (k'.share f ++ rest) := by
  have hrange := List.perm_cons_erase (List.mem_range.2 hf)
  have hne : ∀ g ∈ (List.range k.cache.flights.size).erase f, k'.share g = k.share g := fun g hg =>
    h g ((List.nodup_range).mem_erase_iff.1 hg).1
  refine ⟨((List.range k.cache.flights.size).erase f).flatMap k.share, hrange.flatMap_right _, ?_⟩
  rw [shares, hs, ← List.flatMap_congr hne]
  exact hrange.flatMap_right _

end ConfigCompiler.Kernel
