import ConfigCompiler.Proofs.Kernel.Once

/-!
# Who leads which flight

Each flight is led by one call until it lands, and has its slot until then unless it has become stale
(`Crewed`); whoever waits for a flight waits for a call that leads it, or for what it has landed with
(`Manned`). Every act keeps this (`Shared.manned_play`), whatever is hashed and invalidated meanwhile.

An invalidation sets the flights of the keys that match adrift, and they stay so (`Shared.adrift_play`). When they
land, the rest of the cache stays as it is.
-/

namespace ConfigCompiler

variable {H : Type}

namespace Kernel

/-! ## Flights -/

section
variable {c c' : Cache CacheKey KernelError Payload} {led led' : List (CacheKey × Nat)} {key : CacheKey} {f : Nat}

/-- Those who lead flights, each with the key that it is to land for, lead all that have not landed. -/
structure Crewed (led : List (CacheKey × Nat)) (c : Cache CacheKey KernelError Payload) : Prop where
  once : (led.map Prod.snd).Nodup
  running : ∀ slot ∈ led, c.landing slot.2 = .running
  slotted : ∀ slot ∈ led, slot ∈ c.slots ∨ c.isStale slot.2 = true
  slots : ∀ slot ∈ c.slots, slot ∈ led
  landed : ∀ f < c.flights.size, f ∈ led.map Prod.snd ∨ ∃ res, c.landing f = .landed res

theorem lt_of_running (h : c.landing f = .running) : f < c.flights.size := by
  refine Classical.byContradiction fun hge => ?_
  rw [Cache.landing, Array.getElem?_eq_none (by omega)] at h
  cases h

theorem crewed_empty (capacity : Capacity) : Crewed [] (.empty capacity) where
  once := List.nodup_nil
  running slot hm := by cases hm
  slotted slot hm := by cases hm
  slots slot hm := by cases hm
  landed f hf := by cases hf

/-- No two lead the same flight. -/
theorem Crewed.unique (h : Crewed led c) {slot slot' : CacheKey × Nat} (hm : slot ∈ led) (hm' : slot' ∈ led)
    (hf : slot.2 = slot'.2) : slot = slot' :=
  List.inj_on_of_nodup_map h.once hm hm' hf

theorem Crewed.perm (h : Crewed led c) (hp : led.Perm led') : Crewed led' c where
  once := (hp.map Prod.snd).nodup_iff.1 h.once
  running slot hm := h.running slot (hp.mem_iff.2 hm)
  slotted slot hm := h.slotted slot (hp.mem_iff.2 hm)
  slots slot hm := hp.mem_iff.1 (h.slots slot hm)
  landed f hf := (h.landed f hf).imp_left (hp.map Prod.snd).mem_iff.1

theorem Crewed.congr (h : Crewed led c) (hs : c'.slots = c.slots) (hf : c'.flights = c.flights) : Crewed led c' := by
  have hlanding (g : Nat) : c'.landing g = c.landing g := by rw [Cache.landing, Cache.landing, hf]
  refine ⟨h.once, fun slot hm => ?_, fun slot hm => ?_, fun slot hm => ?_, fun g hg => ?_⟩
  · rw [hlanding]
    exact h.running slot hm
  · rw [hs, Cache.isStale, hf]
    exact h.slotted slot hm
  · exact h.slots slot (hs ▸ hm)
  · rw [hlanding]
    exact h.landed g (hf ▸ hg)

theorem Crewed.takeOff (h : Crewed led c) (key : CacheKey) :
    Crewed ((key, c.flights.size) :: led) (c.takeOff key) := by
  have hlanding (g : Nat) : (c.takeOff key).landing g = if g = c.flights.size then .running else c.landing g :=
    landing_push c g rfl
  have hlt : ∀ slot ∈ led, slot.2 < c.flights.size := fun slot hm => lt_of_running (h.running slot hm)
  refine ⟨List.nodup_cons.2 ⟨fun hm => ?_, h.once⟩, fun slot hm => ?_, fun slot hm => ?_, fun slot hm => ?_,
    fun g hg => ?_⟩
  · obtain ⟨slot, hslot, heq⟩ := List.mem_map.1 hm
    exact Nat.lt_irrefl _ (heq ▸ hlt slot hslot)
  · rw [hlanding]
    split
    · rfl
    · rename_i hne
      rcases List.mem_cons.1 hm with rfl | hm
      · exact absurd rfl hne
      · exact h.running slot hm
  · rcases List.mem_cons.1 hm with rfl | hm
    · exact .inl List.mem_cons_self
    · refine (h.slotted slot hm).imp (List.mem_cons_of_mem _) fun hst => ?_
      change (c.flights.push .takeOff)[slot.2]?.any Flight.stale = true
      rw [Array.getElem?_push, if_neg (Nat.ne_of_lt (hlt slot hm))]
      exact hst
  · exact List.mem_cons.2 ((List.mem_cons.1 hm).imp_right (h.slots slot))
  · rw [hlanding]
    split
    · rename_i heq
      exact .inl (heq ▸ List.mem_cons_self)
    · rename_i hne
      change g < (c.flights.push .takeOff).size at hg
      rw [Array.size_push] at hg
      exact (h.landed g (by omega)).imp_left (List.mem_cons_of_mem _)

theorem Crewed.finish (h : Crewed ((key, f) :: led) c) (res : Except KernelError Payload) :
    Crewed led (c.finish key f res).1 := by
  have hflights := Cache.finish_flights c key f res
  have hlanding (g : Nat) := landing_modify c g hflights (lt_of_running (h.running _ List.mem_cons_self))
  obtain ⟨hnew, honce⟩ := List.nodup_cons.1 h.once
  have hne : ∀ slot ∈ led, slot.2 ≠ f := by
    rintro slot hm rfl
    exact hnew (List.mem_map.2 ⟨slot, hm, rfl⟩)
  refine ⟨honce, fun slot hm => ?_, fun slot hm => ?_, fun slot hm => ?_, fun g hg => ?_⟩
  · rw [hlanding, if_neg (hne slot hm)]
    exact h.running slot (List.mem_cons_of_mem _ hm)
  · rw [Cache.finish_slots, Cache.isStale_modify (·.land res) (fun _ => rfl) hflights]
    refine (h.slotted slot (List.mem_cons_of_mem _ hm)).imp_left fun hs => List.mem_filter.2 ⟨hs, ?_⟩
    have hslot : slot ≠ (key, f) := fun heq => hne slot hm (congrArg Prod.snd heq)
    simpa using hslot
  · rw [Cache.finish_slots] at hm
    obtain ⟨hs, hslot⟩ := List.mem_filter.1 hm
    exact (List.mem_cons.1 (h.slots slot hs)).resolve_left (by simpa using hslot)
  · rw [hlanding]
    rw [hflights, Array.size_modify] at hg
    split
    · exact .inr ⟨res, rfl⟩
    · rename_i hgf
      exact (h.landed g hg).imp_left fun hm => (List.mem_cons.1 hm).resolve_left hgf

theorem Crewed.invalidate (h : Crewed led c) (doomed : CacheKey → Bool) : Crewed led (c.invalidate doomed).1 := by
  have hstale {g : Nat} (hlt : g < c.flights.size) :
      (c.invalidate doomed).1.isStale g = true ↔
        c.isStale g = true ∨ g ∈ (c.slots.filter (doomed ·.1)).map Prod.snd := by
    rw [Cache.isStale, Cache.isStale, Cache.getElem?_invalidate_flights, Array.getElem?_eq_getElem hlt]
    simp only [Option.map_some, Option.any_some]
    split
    · rename_i hm
      simp [Flight.markStale, hm]
    · rename_i hm
      simp [hm]
  refine ⟨h.once, fun slot hm => ?_, fun slot hm => ?_, fun slot hm => ?_, fun g hg => ?_⟩
  · rw [landing_invalidate]
    exact h.running slot hm
  · rw [hstale (lt_of_running (h.running slot hm)), Cache.invalidate_slots]
    rcases h.slotted slot hm with hs | hst
    · cases hd : doomed slot.1 with
      | true => exact .inr (.inr (List.mem_map_of_mem (List.mem_filter.2 ⟨hs, hd⟩)))
      | false => exact .inl (List.mem_filter.2 ⟨hs, by simp [hd]⟩)
    · exact .inr (.inl hst)
  · rw [Cache.invalidate_slots] at hm
    exact h.slots slot (List.mem_filter.1 hm).1
  · rw [landing_invalidate]
    refine h.landed g ?_
    change g < (List.foldl _ c.flights _).size at hg
    rwa [size_foldl_markStale] at hg

/-! ## Flights adrift -/

/-- A flight has no slot, and what it lands with is not kept. -/
structure Adrift (f : Nat) (c : Cache CacheKey KernelError Payload) : Prop where
  lt : f < c.flights.size
  slotless : ∀ key, (key, f) ∉ c.slots
  stale : c.isStale f = true

/-- An invalidation sets the flights adrift of the keys that match. -/
theorem Crewed.adrift (h : Crewed led c) (hm : (key, f) ∈ led) {doomed : CacheKey → Bool} (hd : doomed key = true) :
    Adrift f (c.invalidate doomed).1 := by
  have h' := h.invalidate doomed
  have hslotless : ∀ key', (key', f) ∉ (c.invalidate doomed).1.slots := by
    intro key' hs
    obtain rfl : key' = key := congrArg Prod.fst (h'.unique (h'.slots _ hs) hm rfl)
    rw [Cache.invalidate_slots] at hs
    simp [hd] at hs
  exact ⟨lt_of_running (h'.running _ hm), hslotless, (h'.slotted _ hm).resolve_left (hslotless key)⟩

theorem Adrift.congr (h : Adrift f c) (hs : c'.slots = c.slots) (hf : c'.flights = c.flights) : Adrift f c' where
  lt := by
    rw [hf]
    exact h.lt
  slotless key := by
    rw [hs]
    exact h.slotless key
  stale := by
    rw [Cache.isStale, hf]
    exact h.stale

theorem Adrift.takeOff (h : Adrift f c) (key : CacheKey) : Adrift f (c.takeOff key) where
  lt := by
    change f < (c.flights.push .takeOff).size
    rw [Array.size_push]
    exact Nat.lt_succ_of_lt h.lt
  slotless key' hm := by
    rcases List.mem_cons.1 hm with heq | hm
    · exact Nat.ne_of_lt h.lt (congrArg Prod.snd heq)
    · exact h.slotless key' hm
  stale := by
    change (c.flights.push .takeOff)[f]?.any Flight.stale = true
    rw [Array.getElem?_push, if_neg (Nat.ne_of_lt h.lt)]
    exact h.stale

theorem Adrift.finish (h : Adrift f c) (key : CacheKey) (g : Nat) (res : Except KernelError Payload) :
    Adrift f (c.finish key g res).1 where
  lt := by
    rw [Cache.finish_flights, Array.size_modify]
    exact h.lt
  slotless key' hm := by
    rw [Cache.finish_slots] at hm
    exact h.slotless key' (List.mem_filter.1 hm).1
  stale := by
    rw [Cache.isStale_modify (·.land res) (fun _ => rfl) (Cache.finish_flights c key g res)]
    exact h.stale

theorem Adrift.invalidate (h : Adrift f c) (doomed : CacheKey → Bool) : Adrift f (c.invalidate doomed).1 where
  lt := by
    change f < (List.foldl _ c.flights _).size
    rw [size_foldl_markStale]
    exact h.lt
  slotless key hm := by
    rw [Cache.invalidate_slots] at hm
    exact h.slotless key (List.mem_filter.1 hm).1
  stale := by
    have hstale := h.stale
    rw [Cache.isStale, Array.getElem?_eq_getElem h.lt] at hstale
    rw [Cache.isStale, Cache.getElem?_invalidate_flights, Array.getElem?_eq_getElem h.lt, Option.map_some, if_neg]
    · exact hstale
    · intro hm
      obtain ⟨slot, hslot, rfl⟩ := List.mem_map.1 hm
      exact h.slotless slot.1 (List.mem_filter.1 hslot).1

end

/-! ## Calls -/

end Kernel

/-- The flight that a goal waits for, and the key. -/
def Goal.awaits? : Goal H → Option (CacheKey × Nat)
  | .wait key flight _ _ => some (key, flight)
  | _ => none

namespace Kernel

def Stage.awaits? : Stage H → Option (CacheKey × Nat)
  | going t => t.goal.awaits?
  | done _ _ => none

/-- The flights that are led, each with the key that it is to land for. -/
def ledBy (calls : List (Call H)) : List (CacheKey × Nat) := calls.flatMap (·.stage.led)

/-- Flights are led by calls, and whoever waits for one waits for its leader or has only to take its result. -/
structure Manned (k : Kernel H) (calls : List (Call H)) : Prop where
  crewed : Crewed (ledBy calls) k.cache
  waits : ∀ c ∈ calls, ∀ slot, c.stage.awaits? = some slot → slot ∈ ledBy calls ∨ k.Ended slot.2

section
variable {k k' : Kernel H} {calls calls' others : List (Call H)} {request : Request} {began : Snapshot H}
variable {stage stage' : Stage H} {t : Task H} {key : CacheKey} {f : Nat}

theorem Manned.perm (h : Manned k calls) (hp : calls.Perm calls') : Manned k calls' where
  crewed := h.crewed.perm (hp.flatMap_right _)
  waits c hc slot hw := (h.waits c (hp.mem_iff.2 hc) slot hw).imp_left (hp.flatMap_right _).mem_iff.1

/-- The kernel changes and one call goes on, without taking off or landing. -/
theorem Manned.replace (h : Manned k (⟨request, began, stage⟩ :: others)) (hk : k.cache.Keeps k'.cache)
    (hled : stage'.led = stage.led) (hwaits : ∀ slot, stage'.awaits? = some slot →
      stage.awaits? = some slot ∨ slot ∈ k.cache.slots) :
    Manned k' (⟨request, began, stage'⟩ :: others) := by
  have hledBy : ledBy (⟨request, began, stage'⟩ :: others) = ledBy (⟨request, began, stage⟩ :: others) := by
    rw [ledBy, List.flatMap_cons, hled]
    rfl
  have hended {g : Nat} : k.Ended g → k'.Ended g := ended_congr hk.flights
  refine ⟨?_, ?_⟩
  · rw [hledBy]
    exact h.crewed.congr hk.slots hk.flights
  · rw [hledBy]
    intro c hc slot hw
    rcases List.mem_cons.1 hc with rfl | hc
    · rcases hwaits slot hw with hw | hs
      · exact (h.waits _ List.mem_cons_self slot hw).imp_right hended
      · exact .inl (h.crewed.slots slot hs)
    · exact (h.waits c (List.mem_cons_of_mem _ hc) slot hw).imp_right hended

theorem Manned.change (h : Manned k calls) (hk : k.cache.Keeps k'.cache) : Manned k' calls where
  crewed := h.crewed.congr hk.slots hk.flights
  waits c hc slot hw := (h.waits c hc slot hw).imp_right (ended_congr hk.flights)

theorem Manned.call (h : Manned k calls) (hled : stage.led = []) (hwaits : stage.awaits? = none) :
    Manned k (⟨request, began, stage⟩ :: calls) := by
  have hledBy : ledBy (⟨request, began, stage⟩ :: calls) = ledBy calls := by
    rw [ledBy, List.flatMap_cons, hled]
    rfl
  refine ⟨hledBy ▸ h.crewed, fun c hc slot hw => ?_⟩
  rw [hledBy]
  rcases List.mem_cons.1 hc with rfl | hc
  · rw [hwaits] at hw
    cases hw
  · exact h.waits c hc slot hw

/-- A flight takes off. -/
theorem Manned.takeOff (h : Manned k (⟨request, began, stage⟩ :: others))
    (hk : ({ k with cache := k.cache.takeOff key } : Kernel H).Still k')
    (hled : stage'.led = (key, k.cache.flights.size) :: stage.led) (hwaits : stage'.awaits? = none) :
    Manned k' (⟨request, began, stage'⟩ :: others) := by
  have hledBy : ledBy (⟨request, began, stage'⟩ :: others) =
      (key, k.cache.flights.size) :: ledBy (⟨request, began, stage⟩ :: others) := by
    rw [ledBy, List.flatMap_cons, hled]
    rfl
  have hended {g : Nat} (hg : k.Ended g) : k'.Ended g := by
    obtain ⟨res, hl⟩ := hg
    refine ⟨res, ?_⟩
    rw [landing_push k.cache g hk.cache.flights, if_neg (Nat.ne_of_lt (landing_lt hl))]
    exact hl
  refine ⟨?_, fun c hc slot hw => ?_⟩
  · rw [hledBy]
    exact (h.crewed.takeOff key).congr hk.cache.slots hk.cache.flights
  · rw [hledBy]
    rcases List.mem_cons.1 hc with rfl | hc
    · rw [hwaits] at hw
      cases hw
    · exact (h.waits c (List.mem_cons_of_mem _ hc) slot hw).imp (List.mem_cons_of_mem _) hended

/-- A flight lands. -/
theorem Manned.land (h : Manned k (⟨request, began, stage⟩ :: others)) {res : Except KernelError Payload}
    (hk : ({ k with cache := (k.cache.finish key f res).1 } : Kernel H).Still k')
    (hled : stage.led = (key, f) :: stage'.led) (hwaits : stage'.awaits? = none) :
    Manned k' (⟨request, began, stage'⟩ :: others) := by
  have hledBy : ledBy (⟨request, began, stage⟩ :: others) =
      (key, f) :: ledBy (⟨request, began, stage'⟩ :: others) := by
    rw [ledBy, List.flatMap_cons, hled]
    rfl
  obtain ⟨hcrewed, hall⟩ := h
  rw [hledBy] at hcrewed hall
  have hflights := hk.cache.flights.trans (Cache.finish_flights k.cache key f res)
  have hlanding (g : Nat) := landing_modify k.cache g hflights
    (lt_of_running (hcrewed.running _ List.mem_cons_self))
  refine ⟨(hcrewed.finish res).congr hk.cache.slots hk.cache.flights, fun c hc slot hw => ?_⟩
  rcases List.mem_cons.1 hc with rfl | hc
  · rw [hwaits] at hw
    cases hw
  · have hended : slot.2 = f → k'.Ended slot.2 := by
      intro heq
      exact ⟨res, by rw [hlanding, if_pos heq]⟩
    rcases hall c (List.mem_cons_of_mem _ hc) slot hw with hm | ⟨res', hl⟩
    · rcases List.mem_cons.1 hm with rfl | hm
      · exact .inr (hended rfl)
      · exact .inl hm
    · by_cases heq : slot.2 = f
      · exact .inr (hended heq)
      · exact .inr ⟨res', by rw [hlanding, if_neg heq, hl]⟩

/-- Who waits after a step has waited before, or has found a slot. -/
theorem awaits_of_step (k : Kernel H) (t : Task H) {slot : CacheKey × Nat}
    (h : (Stage.ofProgress (t.step k).2).awaits? = some slot) :
    t.goal.awaits? = some slot ∨ slot ∈ k.cache.slots := by
  have hturn := t.step_turn k
  generalize hp : (t.step k).2 = progress at h hturn
  cases hturn with
  | @joined key deadline? production flight hg hk =>
    cases h
    simp only [Task.step, hg, Task.ask] at hp
    rcases Cache.enter_cases k.cache key with ⟨e, -, he⟩ | ⟨f, -, hslot, he⟩ | ⟨-, -, he⟩
    · simp only [he] at hp
      cases hp
    · simp only [he] at hp
      cases hp
      exact .inr hslot
    · simp only [he] at hp
      cases production with
      | viewOfCached v params =>
        simp only [Task.produce] at hp
        split at hp <;> cases hp
      | _ => cases hp
  | led hg hkey hslot hb hk => cases hb <;> cases h
  | blocked hg hl hk => exact .inl h
  | _ => cases h

/-- What the calls lead and wait for stays in order with every step. -/
theorem Manned.step (h : Manned k (⟨request, began, .going t⟩ :: others)) :
    Manned (t.step k).1 (⟨request, began, .ofProgress (t.step k).2⟩ :: others) := by
  have hwaits := fun slot => @awaits_of_step H k t slot
  have hturn := t.step_turn k
  generalize (t.step k).2 = progress at hturn hwaits
  cases hturn with
  | found p hg hk => exact h.replace hk.cache rfl hwaits
  | joined flight hg hk => exact h.replace hk.cache rfl hwaits
  | led hg hkey hslot hb hk =>
    refine h.takeOff hk ?_ ?_
    · cases hb <;> rfl
    · cases hb <;> rfl
  | blocked hg hl hk =>
    rw [hk]
    exact h
  | woken hg hl hk => exact h.replace hk.cache rfl hwaits
  | retried hg hl hk => exact h.replace hk.cache rfl hwaits
  | ran hg hr hc hk => exact h.replace hk.cache rfl hwaits
  | hooked name hook hg hr hc hk => exact h.replace hk.cache rfl hwaits
  | failed failure hg hc hk => exact h.replace hk.cache rfl hwaits
  | compiled p hg hc hk =>
    have hk' : k.cache.Keeps (t.step k).1.cache := hk.cache
    exact h.replace hk' rfl hwaits
  | handed res' hg ht hframe hres hk => exact h.replace hk.cache (Task.led_pop ht hframe).symm hwaits
  | @landed res key flight frames hg ht hk =>
    refine h.land hk ?_ rfl
    rw [Stage.led, Task.led, ht]
    rfl
  | asked hg ht hk => exact h.replace hk.cache (Task.led_pop ht (by simp)).symm hwaits
  | done hg ht hk =>
    rw [hk]
    refine h.replace (.refl _) ?_ hwaits
    change [] = t.frames.filterMap Frame.slot?
    rw [ht]
    rfl

theorem Manned.giveUp (h : Manned k (⟨request, began, .going t⟩ :: others)) :
    Manned (t.giveUp k).1 (⟨request, began, .going (t.giveUp k).2⟩ :: others) := by
  rcases t.giveUp_cases k with ⟨key, flight, deadline, production, hg, -, heq⟩ | heq
  · rw [heq]
    have hk : k.cache.Keeps (Task.stopWaiting k flight).cache := .refl _
    exact h.replace hk rfl (by rintro slot ⟨⟩)
  · rw [heq]
    exact h

theorem Manned.invalidate (h : Manned k calls) {doomed : CacheKey → Bool}
    (hc : k'.cache = (k.cache.invalidate doomed).1) : Manned k' calls where
  crewed := by
    rw [hc]
    exact h.crewed.invalidate doomed
  waits c hm slot hw := by
    refine (h.waits c hm slot hw).imp_right ?_
    rintro ⟨res, hl⟩
    exact ⟨res, by rw [hc, landing_invalidate, hl]⟩

namespace Shared

variable {s : Shared H} {a : Act H}

theorem Change.manned (hc : s.Change a k calls) (h : Manned s.kernel s.calls) : Manned k calls := by
  have happend (c : Call H) : (c :: s.calls).Perm (s.calls ++ [c]) := (List.perm_append_singleton c s.calls).symm
  cases hc with
  | still hk ha => exact h.change hk.cache
  | @began request t ht =>
    have hled : (Stage.going t).led = [] := ht.quiet.led
    exact (h.call hled (by cases ht <;> rfl)).perm (happend _)
  | refused name => exact (h.call rfl rfl).perm (happend _)
  | stepped hi =>
    obtain ⟨others, hp, hset⟩ := exists_others hi
    exact (h.perm hp).step.perm (hset _).symm
  | gaveUp hi =>
    obtain ⟨others, hp, hset⟩ := exists_others hi
    exact (h.perm hp).giveUp.perm (hset _).symm
  | @dropped i request began p hi =>
    obtain ⟨others, hp, hset⟩ := exists_others hi
    have hk := (Still.release s.kernel p).cache
    have hled : (Stage.done (.ok p) false : Stage H).led = [] := rfl
    exact ((h.perm hp).replace hk hled (by rintro slot ⟨⟩)).perm (hset _).symm
  | invalidated doomed he hcache => exact h.invalidate hcache

/-- Whatever happens, flights are led by calls until they land. -/
theorem manned_play (h : Manned s.kernel s.calls) (acts : List (Act H)) :
    Manned (s.play acts).kernel (s.play acts).calls := by
  induction acts generalizing s with
  | nil => exact h
  | cons a acts ih => exact ih ((s.act_change a).manned h)

theorem manned_start {settings : Settings} {hierarchy : Hierarchy} (hk : Kernel.new settings hierarchy = .ok k) :
    Manned (start k).kernel (start k).calls where
  crewed := by
    change Crewed [] k.cache
    rw [new_cache hk]
    exact crewed_empty settings.capacity
  waits c hc := by cases hc

theorem Change.adrift (hc : s.Change a k calls) (h : Adrift f s.kernel.cache) : Adrift f k.cache := by
  cases hc with
  | still hk ha => exact h.congr hk.cache.slots hk.cache.flights
  | began ht => exact h
  | refused name => exact h
  | @stepped i request began t hi =>
    rcases (t.step_turn s.kernel).cache with hk | ⟨key, hk⟩ | ⟨key, flight, res, hk⟩
    · exact h.congr hk.slots hk.flights
    · exact (h.takeOff key).congr hk.slots hk.flights
    · exact (h.finish key flight res).congr hk.slots hk.flights
  | @gaveUp i request began t hi =>
    obtain ⟨waiting, hkernel⟩ := t.giveUp_kernel s.kernel
    rw [hkernel]
    exact h
  | dropped hi =>
    rw [release_cache]
    exact h
  | invalidated doomed he hcache =>
    rw [hcache]
    exact h.invalidate doomed

/-- A flight stays adrift, whatever happens. -/
theorem adrift_play (h : Adrift f s.kernel.cache) (acts : List (Act H)) : Adrift f (s.play acts).kernel.cache := by
  induction acts generalizing s with
  | nil => exact h
  | cons a acts ih => exact ih ((s.act_change a).adrift h)

end Shared

end

end Kernel

end ConfigCompiler
