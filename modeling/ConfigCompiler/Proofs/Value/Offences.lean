import ConfigCompiler.Pipeline.Pass
import ConfigCompiler.Proofs.Value.Digest

/-!
# The first offence of a configuration

What stands inside a value has a place, which counts items and entries on the way down, and a path, which names
them (`Value.Inside`). An offence is found at a site: a place, and there the key before the depth and the depth
before the content (`Value.Site`). Sites are in the order of the document.

Each check reports the first offence of what it checks, or finds that there is none (`Value.Reports`): checks
made one after another do so (`Value.reports_each`), hence those of a value, by induction on it
(`Value.checkAt_reports`), and those of a whole configuration (`Action.validate_exact`).
-/

namespace ConfigCompiler.Value

/-! ## Places -/

/-- A value directly inside another one: the `i`-th item, or the value of the `i`-th entry. -/
inductive Child : Value → (i : Nat) → (step : String) → Value → Prop
  | item {items : List Value} {i : Nat} {v : Value} : items[i]? = some v →
      Child (seq items) i ("[" ++ toString i ++ "]") v
  | entry {entries : Entries Value} {i : Nat} {key : String} {v : Value} : entries[i]? = some (key, v) →
      Child (map entries) i ("." ++ key) v

/-- A value itself, and all that is inside it. -/
inductive Inside : Value → (place : List Nat) → (path : String) → Value → Prop
  | self (v : Value) : Inside v [] "" v
  | child {v u w : Value} {i : Nat} {step path : String} {place : List Nat} : Child v i step u →
      Inside u place path w → Inside v (i :: place) (step ++ path) w

/-- What is looked at where a value stands. -/
inductive Aspect where
  /-- The key that the value stands under. -/
  | key
  | depth
  | content

/-- A key comes before the depth of its value, and this before the content. -/
def Aspect.rank : Aspect → Nat
  | key => 0
  | depth => 1
  | content => 2

structure Site where
  place : List Nat
  aspect : Aspect

namespace Site

/-- The order of the document. -/
instance : LT Site where
  lt a b := a.place < b.place ∨ a.place = b.place ∧ a.aspect.rank < b.aspect.rank

/-- A site inside a value, seen from further up. -/
def under (s : Site) (place : List Nat) : Site := ⟨place ++ s.place, s.aspect⟩

variable {s t : Site}

theorem under_lt_under (h : s < t) (i : Nat) : s.under [i] < t.under [i] := by
  rcases h with h | ⟨heq, h⟩
  · exact .inl (List.cons_lt_cons_iff.2 (.inr ⟨rfl, h⟩))
  · exact .inr ⟨congrArg (i :: ·) heq, h⟩

theorem under_lt_of_lt (s t : Site) {i j : Nat} (h : i < j) : s.under [i] < t.under [j] :=
  .inl (List.cons_lt_cons_iff.2 (.inl h))

theorem lt_under (aspect : Aspect) (s : Site) (i : Nat) : ⟨[], aspect⟩ < s.under [i] :=
  .inl (List.nil_lt_cons i s.place)

end Site

/-! ## Offences -/

/-- What is wrong with a value itself. -/
inductive Offends (depth : Nat) : Value → Site → (reason : String) → Prop
  | deep (v : Value) : 64 < depth → Offends depth v ⟨[], .depth⟩ "nesting deeper than 64"
  | float {x : Binary64} : x.isFinite = false →
      Offends depth (float x) ⟨[], .content⟩ ("non-finite float " ++ Layout.message.write x)
  | key {entries : Entries Value} {i : Nat} {v : Value} : entries[i]? = some ("", v) →
      Offends depth (map entries) ⟨[i], .key⟩ "empty map key"

/-- What is wrong with what stands inside a value at a path. -/
def OffendsInside (path : String) (depth : Nat) (v : Value) (site : Site) (e : ValidationError) : Prop :=
  ∃ place rest w own reason, Inside v place rest w ∧ Offends (depth + place.length) w own reason ∧
    site = own.under place ∧ e = ⟨path ++ rest, reason⟩

/-- What is wrong with a configuration. -/
inductive OffendsRoot : Value → Site → ValidationError → Prop
  | root {v : Value} : (∀ entries, v ≠ map entries) →
      OffendsRoot v ⟨[], .content⟩ ⟨"$", "root must be a map, got " ++ v.kind⟩
  | key {entries : Entries Value} {i : Nat} {key : String} {v : Value} {e : PatternError} :
      entries[i]? = some (key, v) → Pattern.parse key = .error e →
      OffendsRoot (map entries) ⟨[i], .key⟩ ⟨key, e.message⟩
  | inside {entries : Entries Value} {i : Nat} {key : String} {v : Value} {site : Site} {e : ValidationError} :
      entries[i]? = some (key, v) → OffendsInside key 1 v site e →
      OffendsRoot (map entries) (site.under [i]) e

/-- Nothing is wrong with the entries of a root, or with what stands inside their values. -/
structure WellFormed (entries : Entries Value) : Prop where
  patterns : ∀ e ∈ entries, ∃ p, Pattern.parse e.1 = .ok p
  finite : ∀ e ∈ entries, ∀ {place path x}, Inside e.2 place path (float x) → x.isFinite = true
  keys : ∀ e ∈ entries, ∀ {place path es}, Inside e.2 place path (map es) → ∀ f ∈ es, f.1 ≠ ""
  shallow : ∀ e ∈ entries, ∀ {place path w}, Inside e.2 place path w → 1 + place.length ≤ 64

theorem offendsInside_iff {path : String} {depth : Nat} {v : Value} {site : Site} {e : ValidationError} :
    OffendsInside path depth v site e ↔ (∃ reason, Offends depth v site reason ∧ e = ⟨path, reason⟩) ∨
      ∃ i step u own, Child v i step u ∧ OffendsInside (path ++ step) (depth + 1) u own e ∧
        site = own.under [i] := by
  constructor
  · rintro ⟨place, rest, w, own, reason, hinside, hoffends, rfl, rfl⟩
    cases hinside with
    | self => exact .inl ⟨reason, hoffends, by rw [String.append_empty]⟩
    | @child _ u _ i step rest place hchild hinside =>
      refine .inr ⟨i, step, u, own.under place, hchild, ⟨place, rest, w, own, reason, hinside, ?_, rfl, ?_⟩, rfl⟩
      · rwa [List.length_cons, Nat.add_comm place.length, ← Nat.add_assoc] at hoffends
      · rw [String.append_assoc]
  · rintro (⟨reason, hoffends, rfl⟩ | ⟨i, step, u, _, hchild, hoffends, rfl⟩)
    · exact ⟨[], "", v, site, reason, .self v, hoffends, rfl, by rw [String.append_empty]⟩
    · obtain ⟨place, rest, w, own, reason, hinside, hoffends, rfl, rfl⟩ := hoffends
      refine ⟨i :: place, step ++ rest, w, own, reason, .child hchild hinside, ?_, rfl, ?_⟩
      · rwa [List.length_cons, Nat.add_comm place.length, ← Nat.add_assoc]
      · rw [String.append_assoc]

/-- The key that a value stands under comes before all that is wrong with the value. -/
theorem OffendsInside.key_lt {path : String} {depth : Nat} {v : Value} {site : Site} {e : ValidationError}
    (h : OffendsInside path depth v site e) : (⟨[], .key⟩ : Site) < site := by
  rcases offendsInside_iff.1 h with ⟨reason, hoffends, -⟩ | ⟨i, step, u, own, -, -, rfl⟩
  · cases hoffends with
    | deep => exact .inr ⟨rfl, by decide⟩
    | float => exact .inr ⟨rfl, by decide⟩
    | key => exact .inl (List.nil_lt_cons ..)
  · exact Site.lt_under ..

/-! ## Reports -/

/-- All others of the offences come later. -/
def First (P : Site → ValidationError → Prop) (site : Site) (e : ValidationError) : Prop :=
  P site e ∧ ∀ site' e', P site' e' → site < site' ∨ site' = site ∧ e' = e

/-- A check reports the first offence, if there is one. -/
def Reports (P : Site → ValidationError → Prop) : Except ValidationError Unit → Prop
  | .ok () => ∀ site e, ¬ P site e
  | .error e => ∃ site, First P site e

section
variable {P Q : Site → ValidationError → Prop} {r r' : Except ValidationError Unit}

theorem Reports.congr (h : Reports P r) (hPQ : ∀ site e, Q site e ↔ P site e) : Reports Q r := by
  have heq : Q = P := funext fun site => funext fun e => propext (hPQ site e)
  rwa [heq]

theorem Reports.under (h : Reports P r) (i : Nat) :
    Reports (fun site e => ∃ own, P own e ∧ site = own.under [i]) r := by
  cases r with
  | ok u =>
    rintro site e ⟨own, hown, -⟩
    exact h own e hown
  | error e =>
    obtain ⟨site, hsite, hfirst⟩ := h
    refine ⟨site.under [i], ⟨site, hsite, rfl⟩, ?_⟩
    rintro _ e' ⟨own, hown, rfl⟩
    rcases hfirst own e' hown with hlt | ⟨rfl, rfl⟩
    · exact .inl (Site.under_lt_under hlt i)
    · exact .inr ⟨rfl, rfl⟩

/-- Checks one after another report the first offence, where those of the first check come first. -/
theorem Reports.bind (h : Reports P r) (h' : Reports Q r')
    (hlt : ∀ site e site' e', P site e → Q site' e' → site < site') :
    Reports (fun site e => P site e ∨ Q site e) (r >>= fun _ => r') := by
  cases r with
  | ok u =>
    refine h'.congr fun site e => ?_
    exact or_iff_right (h site e)
  | error e =>
    obtain ⟨site, hsite, hfirst⟩ := h
    refine ⟨site, .inl hsite, ?_⟩
    rintro site' e' (hP | hQ)
    · exact hfirst site' e' hP
    · exact .inl (hlt site e site' e' hsite hQ)

/-- Where every check of an element reports the first offence of the element, all together do. -/
theorem reports_each {α : Type} (run : Nat → List α → Except ValidationError Unit)
    {check : Nat → α → Except ValidationError Unit} {P : Nat → α → Site → ValidationError → Prop}
    (hnil : ∀ i, run i [] = .ok ()) (hcons : ∀ i a l, run i (a :: l) = check i a >>= fun _ => run (i + 1) l)
    {l : List α} (hl : ∀ a ∈ l, ∀ i, Reports (P i a) (check i a)) (i : Nat) :
    Reports (fun site e => ∃ k a own, l[k]? = some a ∧ P (i + k) a own e ∧ site = own.under [i + k]) (run i l) := by
  induction l generalizing i with
  | nil =>
    rw [hnil]
    rintro site e ⟨k, a, own, hk, -⟩
    cases hk
  | cons a l ih =>
    have hhead := (hl a List.mem_cons_self i).under i
    have htail := ih (fun b hb => hl b (List.mem_cons_of_mem a hb)) (i + 1)
    rw [hcons]
    refine (hhead.bind htail ?_).congr fun site e => ?_
    · -- sites under a place come before those under later places, whatever they are inside
      rintro _ e _ e' ⟨own, -, rfl⟩ ⟨k, b, own', -, -, rfl⟩
      exact Site.under_lt_of_lt own own' (by omega)
    · constructor
      · rintro ⟨k, b, own, hk, hP, rfl⟩
        cases k with
        | zero =>
          cases hk
          exact .inl ⟨own, hP, rfl⟩
        | succ k =>
          rw [← Nat.succ_add_eq_add_succ] at hP ⊢
          exact .inr ⟨k, b, own, hk, hP, rfl⟩
      · rintro (⟨own, hP, rfl⟩ | ⟨k, b, own, hk, hP, rfl⟩)
        · exact ⟨0, a, own, rfl, hP, rfl⟩
        · rw [Nat.succ_add_eq_add_succ] at hP ⊢
          exact ⟨k + 1, b, own, hk, hP, rfl⟩

/-- A key is checked before the value that stands under it. -/
theorem Reports.keyed (h : Reports P r) (hP : ∀ site e, P site e → (⟨[], .key⟩ : Site) < site)
    (error? : Option ValidationError) :
    Reports (fun site e => error? = some e ∧ site = ⟨[], .key⟩ ∨ P site e) (error?.elim r .error) := by
  cases error? with
  | none => exact h.congr fun site e => or_iff_right fun hno => nomatch hno.1
  | some e =>
    refine ⟨⟨[], .key⟩, .inl ⟨rfl, rfl⟩, ?_⟩
    rintro site' e' (⟨he, rfl⟩ | hlater)
    · cases he
      exact .inr ⟨rfl, rfl⟩
    · exact .inl (hP site' e' hlater)

end

/-! ## The checks of a value -/

section
variable {path : String} {depth : Nat} {v : Value}

/-- Too deep a value is reported before all inside it. -/
theorem deep_first (h : 64 < depth) :
    First (OffendsInside path depth v) ⟨[], .depth⟩ ⟨path, "nesting deeper than 64"⟩ := by
  refine ⟨offendsInside_iff.2 (.inl ⟨_, .deep v h, rfl⟩), fun site e hoffends => ?_⟩
  rcases offendsInside_iff.1 hoffends with ⟨reason, hown, rfl⟩ | ⟨i, step, u, own, -, -, rfl⟩
  · cases hown with
    | deep => exact .inr ⟨rfl, rfl⟩
    | float => exact .inl (.inr ⟨rfl, by decide⟩)
    | key => exact .inl (.inl (List.nil_lt_cons ..))
  · exact .inl (Site.lt_under ..)

theorem float_reports {x : Binary64} (h : ¬ 64 < depth) : Reports (OffendsInside path depth (float x))
    (if x.isFinite then .ok () else .error ⟨path, "non-finite float " ++ Layout.message.write x⟩) := by
  have hself {site : Site} {e : ValidationError} (hoffends : OffendsInside path depth (float x) site e) :
      x.isFinite = false ∧ site = ⟨[], .content⟩ ∧
        e = ⟨path, "non-finite float " ++ Layout.message.write x⟩ := by
    rcases offendsInside_iff.1 hoffends with ⟨reason, hown, rfl⟩ | ⟨i, step, u, own, hchild, -⟩
    · cases hown with
      | deep _ hdeep => exact absurd hdeep h
      | float hx => exact ⟨hx, rfl, rfl⟩
    · cases hchild
  split
  · rename_i hx
    intro site e hoffends
    rw [(hself hoffends).1] at hx
    cases hx
  · rename_i hx
    refine ⟨⟨[], .content⟩, offendsInside_iff.2 (.inl ⟨_, .float (by simpa using hx), rfl⟩), ?_⟩
    exact fun site e hoffends => .inr (hself hoffends).2

theorem seq_reports {items : List Value} (h : ¬ 64 < depth)
    (hitems : ∀ v ∈ items, ∀ i, Reports (OffendsInside (itemPath path i) (depth + 1) v)
      (checkAt (itemPath path i) (depth + 1) v)) :
    Reports (OffendsInside path depth (seq items)) (checkItems path (depth + 1) 0 items) := by
  refine (reports_each (checkItems path (depth + 1)) (fun _ => rfl) (fun _ _ _ => rfl) hitems 0).congr fun site e => ?_
  rw [offendsInside_iff]
  constructor
  · rintro (⟨reason, hown, -⟩ | ⟨i, step, u, own, hchild, hoffends, rfl⟩)
    · cases hown with
      | deep _ hdeep => exact absurd hdeep h
    · cases hchild with
      | item hi =>
        rw [← String.append_assoc, ← String.append_assoc] at hoffends
        exact ⟨i, u, own, hi, (Nat.zero_add i).symm ▸ hoffends, by rw [Nat.zero_add]⟩
  · rintro ⟨i, u, own, hi, hoffends, rfl⟩
    rw [Nat.zero_add] at hoffends ⊢
    refine .inr ⟨i, _, u, own, .item hi, ?_, rfl⟩
    rwa [← String.append_assoc, ← String.append_assoc]

theorem checkEntries_cons (f : String × Value) (entries : Entries Value) :
    checkEntries path depth (f :: entries) =
      (if f.1.isEmpty then some (⟨path, "empty map key"⟩ : ValidationError) else none).elim
        (checkAt (entryPath path f.1) depth f.2) .error >>= fun _ => checkEntries path depth entries := by
  rw [checkEntries]
  split <;> rfl

theorem map_reports {entries : Entries Value} (h : ¬ 64 < depth)
    (hentries : ∀ f ∈ entries, Reports (OffendsInside (entryPath path f.1) (depth + 1) f.2)
      (checkAt (entryPath path f.1) (depth + 1) f.2)) :
    Reports (OffendsInside path depth (map entries)) (checkEntries path (depth + 1) entries) := by
  refine (reports_each (fun _ => checkEntries path (depth + 1)) (fun _ => rfl)
    (fun _ => checkEntries_cons) (fun f hf _ => (hentries f hf).keyed (fun _ _ => OffendsInside.key_lt) _) 0).congr
    fun site e => ?_
  rw [offendsInside_iff]
  constructor
  · rintro (⟨reason, hown, rfl⟩ | ⟨i, step, u, own, hchild, hoffends, rfl⟩)
    · cases hown with
      | deep _ hdeep => exact absurd hdeep h
      | @key _ i v hi => exact ⟨i, ("", v), ⟨[], .key⟩, hi, .inl ⟨rfl, rfl⟩, by rw [Nat.zero_add]; rfl⟩
    · cases hchild with
      | @entry _ _ key _ hi =>
        rw [← String.append_assoc] at hoffends
        exact ⟨i, (key, u), own, hi, .inr hoffends, by rw [Nat.zero_add]⟩
  · rintro ⟨i, ⟨key, u⟩, own, hi, ⟨herror, rfl⟩ | hoffends, rfl⟩
    · split at herror
      · rename_i hempty
        cases herror
        rw [String.isEmpty_iff] at hempty
        subst hempty
        exact .inl ⟨_, by rw [Nat.zero_add]; exact .key hi, rfl⟩
      · cases herror
    · rw [Nat.zero_add]
      refine .inr ⟨i, _, u, own, .entry hi, ?_, rfl⟩
      rwa [← String.append_assoc]

theorem scalar_reports (h : ¬ 64 < depth) (hown : ∀ site reason, Offends depth v site reason → 64 < depth)
    (hchild : ∀ i step u, ¬ Child v i step u) : Reports (OffendsInside path depth v) (.ok ()) := by
  intro site e hoffends
  rcases offendsInside_iff.1 hoffends with ⟨reason, hoffends, -⟩ | ⟨i, step, u, own, hc, -⟩
  · exact h (hown site reason hoffends)
  · exact hchild i step u hc

/-- The depth is checked before all else. -/
theorem depth_reports {r : Except ValidationError Unit}
    (h : ¬ 64 < depth → Reports (OffendsInside path depth v) r) :
    Reports (OffendsInside path depth v)
      (if maxDepth < depth then .error ⟨path, "nesting deeper than " ++ toString maxDepth⟩ else r) := by
  split
  · rename_i hdeep
    exact ⟨_, deep_first hdeep⟩
  · rename_i hdeep
    exact h hdeep

/-- The check of a value reports the first of what is wrong with the value and inside it. -/
theorem checkAt_reports (v : Value) (path : String) (depth : Nat) :
    Reports (OffendsInside path depth v) (checkAt path depth v) := by
  induction v using Value.induction generalizing path depth with
  | seq items ih =>
    rw [checkAt]
    exact depth_reports fun h => seq_reports h fun v hv i => ih v hv _ _
  | map entries ih =>
    rw [checkAt]
    exact depth_reports fun h => map_reports h fun f hf => ih f hf _ _
  | float x =>
    rw [checkAt]
    exact depth_reports float_reports
  | _ =>
    rw [checkAt]
    refine depth_reports fun h => scalar_reports h ?_ (fun _ _ _ hchild => nomatch hchild)
    rintro site reason ⟨hdeep⟩
    assumption

end

/-! ## The check of a configuration -/

/-- What is wrong with a key of the root. -/
def patternError? (key : String) : Option ValidationError :=
  match Pattern.parse key with
  | .error e => some ⟨key, e.message⟩
  | .ok _ => none

theorem patternError?_eq_some_iff {key : String} {e : ValidationError} :
    patternError? key = some e ↔ ∃ cause, Pattern.parse key = .error cause ∧ e = ⟨key, cause.message⟩ := by
  unfold patternError?
  cases Pattern.parse key with
  | ok p => exact iff_of_false (fun h => nomatch h) fun h => nomatch h.choose_spec.1
  | error cause => simp [eq_comm]

theorem checkRoot_cons (f : String × Value) (entries : Entries Value) :
    checkRoot (f :: entries) = (patternError? f.1).elim (checkAt f.1 1 f.2) .error >>= fun _ => checkRoot entries := by
  rw [checkRoot, patternError?]
  cases Pattern.parse f.1 <;> rfl

theorem checkRoot_reports (entries : Entries Value) :
    Reports (OffendsRoot (map entries)) (checkRoot entries) := by
  refine (reports_each (fun _ => checkRoot) (fun _ => rfl) (fun _ => checkRoot_cons)
    (fun f _ _ => (checkAt_reports f.2 f.1 1).keyed (fun _ _ => OffendsInside.key_lt) _) 0).congr fun site e => ?_
  constructor
  · intro hoffends
    cases hoffends with
    | root hno => exact absurd rfl (hno entries)
    | @key _ i key v cause hi hparse =>
      refine ⟨i, (key, v), ⟨[], .key⟩, hi, .inl ⟨patternError?_eq_some_iff.2 ⟨cause, hparse, rfl⟩, rfl⟩, ?_⟩
      rw [Nat.zero_add]
      rfl
    | @inside _ i key v site _ hi hoffends => exact ⟨i, (key, v), site, hi, .inr hoffends, by rw [Nat.zero_add]⟩
  · rintro ⟨i, ⟨key, v⟩, own, hi, ⟨herror, rfl⟩ | hoffends, rfl⟩
    · obtain ⟨cause, hparse, rfl⟩ := patternError?_eq_some_iff.1 herror
      rw [Nat.zero_add]
      exact .key hi hparse
    · rw [Nat.zero_add]
      exact .inside hi hoffends

theorem validate_reports (v : Value) : Reports (OffendsRoot v) v.validate := by
  have hroot (hno : ∀ entries, v ≠ map entries) :
      Reports (OffendsRoot v) (.error ⟨"$", "root must be a map, got " ++ v.kind⟩) := by
    refine ⟨⟨[], .content⟩, .root hno, fun site e hoffends => ?_⟩
    cases hoffends with
    | root => exact .inr ⟨rfl, rfl⟩
    | key => exact absurd rfl (hno _)
    | inside => exact absurd rfl (hno _)
  cases v with
  | map entries => exact checkRoot_reports entries
  | _ => exact hroot fun entries h => nomatch h

/-- No offence is left out, and none is made up. -/
theorem wellFormed_iff {entries : Entries Value} :
    WellFormed entries ↔ ∀ site e, ¬ OffendsRoot (map entries) site e := by
  constructor
  · intro hwell site e hoffends
    cases hoffends with
    | root hno => exact hno entries rfl
    | key hi hparse =>
      obtain ⟨p, hp⟩ := hwell.patterns _ (List.mem_of_getElem? hi)
      rw [hp] at hparse
      cases hparse
    | inside hi hoffends =>
      have hmem := List.mem_of_getElem? hi
      obtain ⟨place, rest, w, own, reason, hinside, hown, -, -⟩ := hoffends
      cases hown with
      | deep _ hdeep => exact absurd (hwell.shallow _ hmem hinside) (by omega)
      | float hx => exact absurd (hwell.finite _ hmem hinside) (by simp [hx])
      | key hj => exact hwell.keys _ hmem hinside _ (List.mem_of_getElem? hj) rfl
  · intro hno
    have hinside {f : String × Value} (hf : f ∈ entries) {place : List Nat} {path : String} {w : Value} {own : Site}
        {reason : String} (hw : Inside f.2 place path w) : ¬ Offends (1 + place.length) w own reason := by
      intro hown
      obtain ⟨i, hi⟩ := List.getElem?_of_mem hf
      exact hno _ _ (.inside hi ⟨place, path, w, own, reason, hw, hown, rfl, rfl⟩)
    constructor
    · intro f hf
      cases hparse : Pattern.parse f.1 with
      | ok p => exact ⟨p, rfl⟩
      | error cause =>
        obtain ⟨i, hi⟩ := List.getElem?_of_mem hf
        exact absurd (.key hi hparse) (hno _ _)
    · intro f hf place path x hx
      cases hfinite : x.isFinite with
      | true => rfl
      | false => exact absurd (.float hfinite) (hinside hf hx)
    · rintro f hf place path es hes ⟨key, v⟩ hkey rfl
      obtain ⟨j, hj⟩ := List.getElem?_of_mem hkey
      exact hinside hf hes (.key hj)
    · intro f hf place path w hw
      by_contra hdeep
      exact hinside hf hw (.deep w (by omega))

end ConfigCompiler.Value

namespace ConfigCompiler.Action

open Value

/-- Validation accepts the well-formed sources, and leaves all as it is. Of another source, it reports what comes
first in the order of the document. -/
theorem validate_exact {H : Type} (given : Premises) (store : Store) (d : Draft) :
    ((validate : Action H).transform given store d = (store, .ok d) ↔
      ∃ entries, d.source = .map entries ∧ WellFormed entries) ∧
    ((¬ ∃ entries, d.source = .map entries ∧ WellFormed entries) → ∃ site e,
      First (OffendsRoot d.source) site e ∧
      (validate : Action H).transform given store d = (store, .error (.validation e))) := by
  have hreports := validate_reports d.source
  have hwell : (∃ entries, d.source = .map entries ∧ WellFormed entries) ↔
      ∀ site e, ¬ OffendsRoot d.source site e := by
    constructor
    · rintro ⟨entries, hsource, hwell⟩
      rw [hsource]
      exact wellFormed_iff.1 hwell
    · intro hno
      by_cases hroot : ∃ entries, d.source = .map entries
      · obtain ⟨entries, hsource⟩ := hroot
        rw [hsource] at hno
        exact ⟨entries, hsource, wellFormed_iff.2 hno⟩
      · exact absurd (.root fun entries hsource => hroot ⟨entries, hsource⟩) (hno _ _)
  rw [hwell]
  simp only [transform]
  cases hvalidate : d.source.validate with
  | ok u =>
    rw [hvalidate] at hreports
    exact ⟨iff_of_true rfl hreports, fun hoffends => absurd hreports hoffends⟩
  | error e =>
    rw [hvalidate] at hreports
    obtain ⟨site, hfirst⟩ := hreports
    exact ⟨iff_of_false (fun h => nomatch h) fun hno => hno site e hfirst.1, fun _ => ⟨site, e, hfirst, rfl⟩⟩

/-- A map with an empty key and a float that is not finite, before a key that is no pattern. -/
def crooked : Value := .map [("a", .seq [.int 1, .map [("", .float .nan)]]), ("*b", .int 1)]

/-- The empty key comes before its value, and both before the later entry. -/
theorem validate_exact_crooked :
    (validate : Action Empty).transform ⟨.empty, .none, default, default⟩ (.empty .disabled) (.ofSource crooked) =
      (.empty .disabled, .error (.validation ⟨"a[1]", "empty map key"⟩)) ∧
    ∃ site, First (OffendsRoot crooked) site ⟨"a[1]", "empty map key"⟩ := by
  obtain ⟨hok, herror⟩ := validate_exact (H := Empty) ⟨.empty, .none, default, default⟩ (.empty .disabled)
    (.ofSource crooked)
  have hrun : (validate : Action Empty).transform ⟨.empty, .none, default, default⟩ (.empty .disabled)
      (.ofSource crooked) = (.empty .disabled, .error (.validation ⟨"a[1]", "empty map key"⟩)) := rfl
  rw [hrun] at hok herror
  obtain ⟨site, e, hfirst, heq⟩ := herror fun hwell => nomatch hok.2 hwell
  cases heq
  exact ⟨hrun, site, hfirst⟩

end ConfigCompiler.Action
