import ConfigCompiler.Proofs.Kernel.Calls
import ConfigCompiler.Proofs.Kernel.Moves

/-!
# Calls come to their ends

A call that waits for a flight waits for the call that leads it. `Live`: each flight has landed or is led by a
call that goes on, and calls lead flights in one order only: who leads the flight of a view may wait for a
compilation, who leads that of a compilation waits for nobody. So not all calls can be blocked
(`Live.exists_step`), and whoever is not blocked comes nearer to its end with each step.
-/

namespace ConfigCompiler

variable {H : Type}

/-! ## Frames that end flights -/

namespace Kernel

/-- Where another payload is asked for, no flight is led any more. -/
def QuietAfterAsk : List Frame → Prop
  | [] => True
  | .thenAsk _ _ _ :: fs => Quiet fs ∧ QuietAfterAsk fs
  | _ :: fs => QuietAfterAsk fs

theorem QuietAfterAsk.tail {frame : Frame} {fs : List Frame} (h : QuietAfterAsk (frame :: fs)) :
    QuietAfterAsk fs := by
  cases frame with
  | thenAsk key deadline? production => exact h.2
  | _ => exact h

theorem Quiet.tail {frame : Frame} {fs : List Frame} (h : Quiet (frame :: fs)) : Quiet fs :=
  fun key flight hm => h key flight (List.mem_cons_of_mem _ hm)

theorem Quiet.afterAsk {fs : List Frame} (h : Quiet fs) : QuietAfterAsk fs := by
  induction fs with
  | nil => trivial
  | cons frame fs ih =>
    cases frame with
    | thenAsk key deadline? production => exact ⟨h.tail, ih h.tail⟩
    | _ => exact ih h.tail

end Kernel

/-- The production that a goal would begin. -/
def Goal.seeks? : Goal H → Option Production
  | .ask _ _ production => some production
  | .wait _ _ _ production => some production
  | _ => none

/--
A task that may wait leads no flight, or it seeks a compilation and leads the flights of views; `V` tells the keys
of these.
-/
structure Task.Ordered (V : Snapshot H → CacheKey → Prop) (t : Task H) : Prop where
  afterAsk : Kernel.QuietAfterAsk t.frames
  seeks : ∀ {production}, t.goal.seeks? = some production → Kernel.Quiet t.frames ∨
    (∃ raw, production = .compile raw) ∧ ∀ {key flight}, Frame.land key flight ∈ t.frames → V t.snapshot key

/-- A task that may wait leads no flight, or it seeks a compilation and leads the flights of views. -/
structure Task.Orderly (B : List UInt8 → Prop) (q : Quantization) (t : Task H) : Prop where
  afterAsk : Kernel.QuietAfterAsk t.frames
  seeks : ∀ {production}, t.goal.seeks? = some production → Kernel.Quiet t.frames ∨
    (∃ raw, production = .compile raw) ∧ ∀ {key flight}, Frame.land key flight ∈ t.frames →
      ∃ v params, (Want.view v params).IsKey B q t.snapshot key

def Task.Leads (t : Task H) (flight : Nat) : Prop := ∃ key, Frame.land key flight ∈ t.frames

section
variable {B : List UInt8 → Prop} {q : Quantization} {dest : List CacheKey} {k k' : Kernel H}
variable {t t' : Task H} {w : Want} {s : Snapshot H}

theorem Stack.dest_of_land {w w' : Want} {fs : List Frame} (h : Stack B q dest s w fs w')
    {key : CacheKey} {flight : Nat} (hm : Frame.land key flight ∈ fs) : dest[flight]? = some key := by
  induction h with
  | nil => cases hm
  | loosen _ ih => exact ih hm
  | expectCompiled _ _ ih | expectSome _ _ ih | expectView _ _ ih | thenAsk _ _ _ ih =>
    exact ih (List.mem_of_ne_of_mem (by simp) hm)
  | materialize _ _ _ ih => exact ih (List.mem_of_ne_of_mem (by simp) hm)
  | land _ _ hd _ ih =>
    rcases List.mem_cons.1 hm with heq | hm
    · cases heq
      exact hd
    · exact ih hm

/-- A compilation is asked for by the key of a compilation. -/
theorem Asks.compiled_key {key : CacheKey} {deadline? : Option Deadline} {raw : Value}
    (h : Asks B q s key deadline? (.compile raw) w) : Want.someCompiled.IsKey B q s key := by
  cases h with
  | compile hk => exact ⟨hk.1, hk.2.1⟩
  | compileUntil _ hk => exact ⟨hk.1, hk.2.1⟩

/-- A production for a view leads to the view's key. -/
theorem Asks.view_key {key : CacheKey} {deadline? : Option Deadline} {v : View} {params : Params}
    {raw : Value} (h : Asks B q s key deadline? (.view v params raw) w) :
    (Want.view v params).IsKey B q s key := by
  cases h with | view _ hk _ => exact hk

section
variable {V : Snapshot H → CacheKey → Prop}

/-- A task that seeks nothing is in order. -/
theorem Task.Ordered.idle (h : Kernel.QuietAfterAsk t.frames) (hg : t.goal.seeks? = none) : t.Ordered V :=
  ⟨h, fun hp => by rw [hg] at hp; cases hp⟩

/-- Tasks stay in order, if a view is asked for under the key of a view. -/
theorem Task.Ordered.move (h : t.Ordered V) (hview : ∀ {key deadline? v params raw},
    t.goal = .ask key deadline? (.view v params raw) → V t.snapshot key) (hm : t.Move k k' t') :
    t'.Ordered V := by
  cases hm with
  | answered res hg hf => exact .idle h.afterAsk rfl
  | joined flight hg hf => exact ⟨h.afterAsk, fun hp => h.seeks (by rw [hg]; exact hp)⟩
  | retried hg ha hf => exact ⟨h.afterAsk, fun hp => h.seeks (by rw [hg]; exact hp)⟩
  | @led key deadline? production goal frames hg hb hf =>
    cases hb with
    | compile raw => exact .idle h.afterAsk rfl
    | cached v params p => exact .idle h.afterAsk rfl
    | missing v params => exact .idle h.afterAsk rfl
    | view v params raw =>
      refine ⟨h.afterAsk, fun hp => .inr ⟨⟨raw, by cases hp; rfl⟩, fun {key' flight} hland => ?_⟩⟩
      rcases List.mem_cons.1 (List.mem_of_ne_of_mem (by simp) hland) with heq | hland
      · cases heq
        exact hview hg
      · -- who asks for a view leads no flight yet
        rcases h.seeks (by rw [hg]; rfl) with hquiet | ⟨⟨raw', hraw⟩, -⟩
        · exact absurd hland (hquiet _ _)
        · cases hraw
  | ran hg hr hf => exact .idle h.afterAsk rfl
  | popped res' hg hfs hframe hf => exact .idle (Kernel.QuietAfterAsk.tail (hfs ▸ h.afterAsk)) rfl
  | landed hg hfs hf => exact .idle (Kernel.QuietAfterAsk.tail (hfs ▸ h.afterAsk)) rfl
  | asked hg hfs hf =>
    have hafter := hfs ▸ h.afterAsk
    exact ⟨hafter.2, fun _ => .inl hafter.1⟩

end

theorem Task.orderly_iff :
    t.Orderly B q ↔ t.Ordered fun s key => ∃ v params, (Want.view v params).IsKey B q s key :=
  ⟨fun h => ⟨h.afterAsk, h.seeks⟩, fun h => ⟨h.afterAsk, h.seeks⟩⟩

theorem Task.Orderly.move (h : t.Orderly B q) (ht : t.Toward B q dest w) (hm : t.Move k k' t') :
    t'.Orderly B q := by
  refine Task.orderly_iff.2 ((Task.orderly_iff.1 h).move (fun {key deadline? v params raw} hg => ?_) hm)
  obtain ⟨-, w₁, hgoal, -⟩ := ht
  rw [hg] at hgoal
  cases hgoal with | ask ha =>
  exact ⟨v, params, ha.view_key⟩

/-! ## Flights -/

namespace Kernel

def Ended (k : Kernel H) (f : Nat) : Prop := ∃ res, k.cache.landing f = .landed res

theorem ended_congr (hf : k'.cache.flights = k.cache.flights) {f : Nat} (h : k.Ended f) : k'.Ended f := by
  obtain ⟨res, h⟩ := h
  refine ⟨res, ?_⟩
  rw [Cache.landing, hf]
  exact h

end Kernel

/-- A flight that has landed stays so, and a task leads its flight until that has landed. -/
theorem Task.Move.flights (h : t.Move k k' t')
    (hlt : ∀ {key flight}, Frame.land key flight ∈ t.frames → flight < k.cache.flights.size) (f : Nat) :
    (k.Ended f → k'.Ended f) ∧ (t.Leads f → t'.Leads f ∨ k'.Ended f) ∧
      (f < k'.cache.flights.size → f < k.cache.flights.size ∨ t'.Leads f) := by
  cases h with
  | answered res hg hf => exact ⟨Kernel.ended_congr hf, .inl, fun h => .inl (hf ▸ h)⟩
  | joined flight hg hf => exact ⟨Kernel.ended_congr hf, .inl, fun h => .inl (hf ▸ h)⟩
  | retried hg ha hf => exact ⟨Kernel.ended_congr hf, .inl, fun h => .inl (hf ▸ h)⟩
  | ran hg hr hf => exact ⟨Kernel.ended_congr hf, .inl, fun h => .inl (hf ▸ h)⟩
  | @led key deadline? production goal frames hg hb hf =>
    refine ⟨fun ⟨res, hl⟩ => ⟨res, ?_⟩, fun ⟨key', hm⟩ => .inl ⟨key', ?_⟩, fun hfs => ?_⟩
    · rw [Kernel.landing_push k.cache f hf, if_neg (Nat.ne_of_lt (Kernel.landing_lt hl))]
      exact hl
    · exact List.mem_append_right _ (List.mem_cons_of_mem _ hm)
    · rw [hf, Array.size_push] at hfs
      rcases Nat.lt_succ_iff_lt_or_eq.1 hfs with hlt | rfl
      · exact .inl hlt
      · exact .inr ⟨key, List.mem_append_right _ List.mem_cons_self⟩
  | popped res' hg hfs hframe hf =>
    refine ⟨Kernel.ended_congr hf, fun ⟨key, hm⟩ => .inl ⟨key, ?_⟩, fun h => .inl (hf ▸ h)⟩
    exact List.mem_of_ne_of_mem (hframe key f).symm (hfs ▸ hm)
  | @landed res key flight frames hg hfs hf =>
    have hl (g : Nat) := Kernel.landing_modify k.cache g hf (hlt (hfs ▸ List.mem_cons_self))
    refine ⟨fun ⟨res', h⟩ => ?_, fun ⟨key', hm⟩ => ?_, fun h => .inl ?_⟩
    · by_cases hff : f = flight
      · exact ⟨res, by rw [hl, if_pos hff]⟩
      · exact ⟨res', by rw [hl, if_neg hff, h]⟩
    · rcases List.mem_cons.1 (hfs ▸ hm) with heq | hm
      · cases heq
        exact .inr ⟨res, by rw [hl, if_pos rfl]⟩
      · exact .inl ⟨key', hm⟩
    · rwa [hf, Array.size_modify] at h
  | asked hg hfs hf =>
    refine ⟨Kernel.ended_congr hf, fun ⟨key, hm⟩ => .inl ⟨key, ?_⟩, fun h => .inl (hf ▸ h)⟩
    exact List.mem_of_ne_of_mem (by simp) (hfs ▸ hm)

theorem Going.lt_of_land {refs : List Payload} {nodes : List Interned} {waits : Nat → Nat}
    (h : Going B q dest s w refs nodes waits k t) {key : CacheKey} {flight : Nat}
    (hm : Frame.land key flight ∈ t.frames) : flight < k.cache.flights.size := by
  obtain ⟨-, w₁, -, hs⟩ := h.toward
  rw [← h.sound.sane.size]
  exact (List.getElem?_eq_some_iff.1 (hs.dest_of_land hm)).1

/-! ## Calls that go on -/

namespace Kernel

/-- A call that goes on, in good order. -/
def Stage.Orderly (B : List UInt8 → Prop) (q : Quantization) : Stage H → Prop
  | going t => t.Orderly B q
  | _ => True

def Stage.Leads (stage : Stage H) (f : Nat) : Prop :=
  match stage with
  | going t => t.Leads f
  | _ => False

theorem Stage.Leads.exists_going {stage : Stage H} {f : Nat} (h : stage.Leads f) :
    ∃ t, stage = going t ∧ t.Leads f := by
  cases stage with
  | going t => exact ⟨t, rfl, h⟩
  | done res kept => cases h

/-- Each flight has landed or is led, and calls that may wait lead flights in one order only. -/
structure Live (B : List UInt8 → Prop) (q : Quantization) (k : Kernel H) (calls : List (Call H)) :
    Prop where
  led : ∀ f < k.cache.flights.size, k.Ended f ∨ ∃ c ∈ calls, c.stage.Leads f
  orderly : ∀ c ∈ calls, c.stage.Orderly B q

variable {calls calls' : List (Call H)} {request : Request} {began : Snapshot H}

theorem Live.perm (h : Live B q k calls) (hp : calls.Perm calls') : Live B q k calls' where
  led := fun f hf => by
    rcases h.led f hf with he | ⟨c, hc, hl⟩
    · exact .inl he
    · exact .inr ⟨c, hp.mem_iff.1 hc, hl⟩
  orderly := fun c hc => h.orderly c (hp.mem_iff.2 hc)

/-- Changes of the kernel that leave its flights alone. -/
theorem Live.change (h : Live B q k calls) (hs : k'.cache.flights.size = k.cache.flights.size)
    (hl : ∀ f, k'.cache.landing f = k.cache.landing f) : Live B q k' calls where
  led := fun f hf => by
    rcases h.led f (hs ▸ hf) with ⟨res, he⟩ | hc
    · exact .inl ⟨res, (hl f).trans he⟩
    · exact .inr hc
  orderly := h.orderly

/-- One call changes in a way that gives up no flight that has not landed. -/
theorem Live.replace {stage stage' : Stage H} (h : Live B q k (⟨request, began, stage⟩ :: calls))
    (hf : ∀ f, (k.Ended f → k'.Ended f) ∧ (stage.Leads f → stage'.Leads f ∨ k'.Ended f) ∧
      (f < k'.cache.flights.size → f < k.cache.flights.size ∨ stage'.Leads f))
    (ho : stage.Orderly B q → stage'.Orderly B q) :
    Live B q k' (⟨request, began, stage'⟩ :: calls) where
  led := fun f hlt => by
    obtain ⟨hended, hleads, hold⟩ := hf f
    have hthis (hl : stage'.Leads f) : ∃ c ∈ ⟨request, began, stage'⟩ :: calls, c.stage.Leads f :=
      ⟨_, List.mem_cons_self, hl⟩
    rcases hold hlt with hlt | hl
    · rcases h.led f hlt with he | ⟨c, hc, hl⟩
      · exact .inl (hended he)
      · rcases List.mem_cons.1 hc with rfl | hc
        · exact (hleads hl).symm.imp_right hthis
        · exact .inr ⟨c, List.mem_cons_of_mem _ hc, hl⟩
    · exact .inr (hthis hl)
  orderly := by
    obtain ⟨hstage, hothers⟩ := List.forall_mem_cons.1 h.orderly
    exact List.forall_mem_cons.2 ⟨ho hstage, hothers⟩

theorem Live.call (h : Live B q k calls) {t : Task H} (hq : Quiet t.frames) :
    Live B q k (⟨request, began, .going t⟩ :: calls) where
  led := fun f hf => (h.led f hf).imp_right fun ⟨c, hc, hl⟩ => ⟨c, List.mem_cons_of_mem _ hc, hl⟩
  orderly := List.forall_mem_cons.2 ⟨⟨hq.afterAsk, fun _ => .inl hq⟩, h.orderly⟩

theorem Live.refused (h : Live B q k calls) (e : KernelError) :
    Live B q k (⟨request, began, .done (.error e) false⟩ :: calls) where
  led := fun f hf => (h.led f hf).imp_right fun ⟨c, hc, hl⟩ => ⟨c, List.mem_cons_of_mem _ hc, hl⟩
  orderly := List.forall_mem_cons.2 ⟨trivial, h.orderly⟩

theorem Live.step {t : Task H} (hB : ¬ Digest.Collides B) (h : Live B q k (⟨request, began, .going t⟩ :: calls))
    (hi : Inv B q k (⟨request, began, .going t⟩ :: calls)) (hh : ∀ b ∈ t.hashes k, B b) :
    Live B q (t.step k).1 (⟨request, began, .ofProgress (t.step k).2⟩ :: calls) := by
  obtain ⟨dest, w, -, -, hgoing, -⟩ := inv_going_iff.1 hi
  have hstep := t.step_going hB hgoing hh
  rcases hr : t.step k with ⟨k', progress⟩
  rw [hr] at hstep
  cases hstep with
  | next more hnext =>
    have hmove := Task.step_move hr
    exact h.replace (hmove.flights hgoing.lt_of_land) fun ho => ho.move hgoing.toward hmove
  | blocked => exact h
  | done hg hm =>
    refine h.replace (fun f => ⟨id, ?_, .inl⟩) fun _ => trivial
    rintro ⟨key, hland⟩
    rw [Task.frames_of_done hr] at hland
    cases hland

theorem Live.giveUp {t : Task H} (h : Live B q k (⟨request, began, .going t⟩ :: calls)) :
    Live B q (t.giveUp k).1 (⟨request, began, .going (t.giveUp k).2⟩ :: calls) := by
  rcases t.giveUp_cases k with ⟨key, flight, deadline, production, -, -, heq⟩ | heq
  · rw [heq]
    exact h.replace (fun f => ⟨id, .inl, .inl⟩) fun ho => ⟨ho.afterAsk, by rintro _ ⟨⟩⟩
  · rw [heq]
    exact h

theorem Live.release {p : Payload} {res : Except KernelError Payload} {kept kept' : Bool}
    (h : Live B q k (⟨request, began, .done res kept⟩ :: calls)) :
    Live B q (k.release p) (⟨request, began, .done res kept'⟩ :: calls) := by
  have hc := release_cache k p
  have hlive : Live B q k (⟨request, began, .done res kept'⟩ :: calls) :=
    h.replace (fun f => ⟨id, .inl, .inl⟩) id
  exact hlive.change (by rw [hc]) fun f => by rw [hc]

theorem Live.invalidate (h : Live B q k calls) (doomed : CacheKey → Bool) :
    Live B q (k.invalidate doomed).1 calls := by
  have hc : (k.invalidate doomed).1.cache = (k.cache.invalidate doomed).1 := releaseAll_cache _ _
  exact h.change (by rw [hc]; exact size_foldl_markStale _ _) fun f => by
    rw [hc, landing_invalidate]

theorem Live.invalidateSource (h : Live B q k calls) (source : Digest) :
    Live B q (k.invalidateSource source).1 calls := h.invalidate _

theorem Live.replaceHierarchy (h : Live B q k calls) (hierarchy : Hierarchy) :
    Live B q (k.replaceHierarchy hierarchy).1 calls := by
  have hlive : Live B q ({ k with hierarchy } : Kernel H) calls := h.change rfl fun _ => rfl
  exact hlive.invalidate _

theorem Live.setPassList {names : List String} (h : Live B q k calls) (hk : k.setPassList names = .ok k') :
    Live B q k' calls := by
  obtain ⟨pipeline, -, rfl⟩ := setPassList_eq hk
  exact h.change rfl fun _ => rfl

/-! ## Progress -/

def Stage.cost : Stage H → Nat
  | going t => t.cost + 1
  | done _ _ => 0

/-- Whoever is not blocked comes nearer to its end, unless the flight was abandoned that it has waited for. -/
theorem Task.cost_step {t : Task H} (hl : ∀ {key flight deadline? production},
    t.goal = .wait key flight deadline? production → k.cache.landing flight ≠ .abandoned)
    (hn : ∀ t', (t.step k).2 ≠ .blocked t') : (Stage.ofProgress (t.step k).2).cost < (Stage.going t).cost := by
  have hturn := t.step_turn k
  cases hp : (t.step k).2 with
  | next t' =>
    rw [hp] at hturn
    exact Nat.succ_lt_succ (hturn.move.cost_lt hl)
  | blocked t' => exact absurd hp (hn t')
  | hook name hook t' =>
    rw [hp] at hturn
    exact Nat.succ_lt_succ (hturn.move_of_hook.cost_lt hl)
  | done res => exact Nat.succ_pos _

/-- Whoever is not blocked comes nearer to its end. -/
theorem Inv.cost_step {t : Task H} (hi : Inv B q k (⟨request, began, .going t⟩ :: calls))
    (hn : ∀ t', (t.step k).2 ≠ .blocked t') :
    (Stage.ofProgress (t.step k).2).cost < (Stage.going t).cost := by
  obtain ⟨dest, w, -, -, hgoing, -⟩ := inv_going_iff.1 hi
  refine Task.cost_step (fun {key flight deadline? production} hg => ?_) hn
  obtain ⟨-, w₁, hgoal, -⟩ := hgoing.toward
  rw [hg] at hgoal
  cases hgoal with | wait ha hd =>
  refine hgoing.sound.sane.kept flight ?_
  rw [← hgoing.sound.sane.size]
  exact (List.getElem?_eq_some_iff.1 hd).1

/-- A task waits for a call that leads the flight of the key. -/
def AwaitsLeader (calls : List (Call H)) (t : Task H) : Prop :=
  ∃ key flight deadline? production, t.goal = .wait key flight deadline? production ∧
    ∃ c ∈ calls, ∃ t', c.stage = .going t' ∧ Frame.land key flight ∈ t'.frames

/--
If calls go on that are in order, and the keys of compilations are not those of views, one of them is not blocked.
-/
theorem exists_unblocked {V : Snapshot H → CacheKey → Prop}
    (ho : ∀ {c t}, c ∈ calls → c.stage = .going t → t.Ordered V)
    (hleader : ∀ {c t t'}, c ∈ calls → c.stage = .going t → (t.step k).2 = .blocked t' → AwaitsLeader calls t)
    (hne : ∀ {c t key flight deadline? raw}, c ∈ calls → c.stage = .going t →
      t.goal = .wait key flight deadline? (.compile raw) → ∀ s, ¬ V s key)
    {c : Call H} (hc : c ∈ calls) {t : Task H} (ht : c.stage = .going t) :
    ∃ c' ∈ calls, ∃ t', c'.stage = .going t' ∧ ∀ t'', (t'.step k).2 ≠ .blocked t'' := by
  refine Classical.byContradiction fun hnone => ?_
  -- each call that goes on waits for a call that does, too
  have hwaits {c : Call H} (hc : c ∈ calls) {t : Task H} (ht : c.stage = .going t) : AwaitsLeader calls t := by
    obtain ⟨t'', hb⟩ : ∃ t'', (t.step k).2 = .blocked t'' :=
      Classical.byContradiction fun hne => hnone ⟨c, hc, t, ht, fun t'' hb => hne ⟨t'', hb⟩⟩
    exact hleader hc ht hb
  obtain ⟨_, _, _, _, -, c₁, hc₁, t₁, ht₁, hland₁⟩ := hwaits hc ht
  obtain ⟨_, _, _, _, hg₁, c₂, hc₂, t₂, ht₂, hland₂⟩ := hwaits hc₁ ht₁
  obtain ⟨_, _, _, _, hg₂, -⟩ := hwaits hc₂ ht₂
  -- the first leader waits for a compilation, and the second one's flight would be that of a view
  rcases (ho hc₁ ht₁).seeks (by rw [hg₁]; rfl) with hquiet | ⟨⟨raw, rfl⟩, -⟩
  · exact hquiet _ _ hland₁
  rcases (ho hc₂ ht₂).seeks (by rw [hg₂]; rfl) with hquiet | ⟨-, hviews⟩
  · exact hquiet _ _ hland₂
  exact hne hc₁ ht₁ hg₁ _ (hviews hland₂)

/-- If calls go on, one of them is not blocked. -/
theorem Live.exists_step (hB : ¬ Digest.Collides B) (h : Live B q k calls) (hi : Inv B q k calls)
    {c : Call H} (hc : c ∈ calls) {t : Task H} (ht : c.stage = .going t) :
    ∃ c' ∈ calls, ∃ t', c'.stage = .going t' ∧ ∀ t'', (t'.step k).2 ≠ .blocked t'' := by
  obtain ⟨dest, hk, hgood⟩ := hi
  have hasks {c : Call H} (hc : c ∈ calls) {t : Task H} (ht : c.stage = .going t) {key : CacheKey} {flight : Nat}
      {deadline? : Option Deadline} {production : Production} (hg : t.goal = .wait key flight deadline? production) :
      (∃ w, Asks B q t.snapshot key deadline? production w) ∧ dest[flight]? = some key := by
    obtain ⟨w, -, w₁, hgoal, -⟩ := (hgood c hc).toward ht
    rw [hg] at hgoal
    cases hgoal with | wait ha hd =>
    exact ⟨⟨w₁, ha⟩, hd⟩
  refine exists_unblocked (V := fun s key => ∃ v params, (Want.view v params).IsKey B q s key)
    (fun {c t} hc ht => ?_) (fun {c t t'} hc ht hb => ?_)
    (fun {c t key flight deadline? raw} hc ht hg s hview => ?_) hc ht
  · have ho := h.orderly c hc
    rw [ht] at ho
    exact Task.orderly_iff.1 ho
  · obtain ⟨key, flight, deadline?, production, hg, hrun⟩ :=
      Task.wait_of_blocked (show t.step k = ((t.step k).1, .blocked t') by rw [← hb])
    obtain ⟨-, hd⟩ := hasks hc ht hg
    refine ⟨key, flight, deadline?, production, hg, ?_⟩
    have hlt : flight < k.cache.flights.size := by
      rw [← hk.sane.size]
      exact (List.getElem?_eq_some_iff.1 hd).1
    rcases h.led flight hlt with ⟨res, hl⟩ | ⟨c', hc', hleads⟩
    · cases hrun.symm.trans hl
    · obtain ⟨t', ht', key', hland⟩ := hleads.exists_going
      obtain ⟨w', -, w₂, -, hstack⟩ := (hgood c' hc').toward ht'
      cases hd.symm.trans (hstack.dest_of_land hland)
      exact ⟨c', hc', t', ht', hland⟩
  · obtain ⟨⟨w, ha⟩, -⟩ := hasks hc ht hg
    obtain ⟨v, params, hkey, hhashed, hv, -⟩ := hview
    obtain ⟨hkey', hhashed'⟩ := ha.compiled_key
    exact CacheKey.compiled_ne_view hB (View.name_size hv) hhashed' hhashed (hkey'.symm.trans hkey)

end Kernel

end

end ConfigCompiler
