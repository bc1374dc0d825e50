import ConfigCompiler.Expansion.Claims

/-!
# Who holds a key

`Claims x entries i key` says that the entry at position `i` claims `key`. A claimant outdoes an earlier
one if it binds another value and its pattern is at least as specific. The first claimant takes a key, and
every claimant that outdoes the holder takes it from the holder (`Takes`, `Holds`); there is one holder at
a time (`Holds.unique`).

`claimAll` stops at the first claimant that clashes with the holder: another value, and the two patterns
are not declared (`claimAll_error`); if no one does, it ends with the holders (`claimAll_ok`).
-/

namespace ConfigCompiler.Expansion

/-- The entry at position `i` claims a key: it is one of those that the entry's pattern stands for. -/
def Claims (x : Expander) (entries : List SourceEntry) (i : Nat) (key : Key) : Prop :=
  ∃ entry keys, entries[i]? = some entry ∧ x.expand entry.pattern = .ok keys ∧ key ∈ keys

/-- The entry at `j` binds another value than the one at `i`, with a pattern at least as specific. -/
def Outdoes (entries : List SourceEntry) (j i : Nat) : Prop :=
  ∃ a b, entries[i]? = some a ∧ entries[j]? = some b ∧ a.value ≠ b.value ∧
    a.pattern.specificity ≤ b.pattern.specificity

/-- The entries at `i` and `j` bind different values, and their patterns are not declared. -/
def Clash (entries : List SourceEntry) (overrides : Overrides) (i j : Nat) : Prop :=
  ∃ a b, entries[i]? = some a ∧ entries[j]? = some b ∧ a.value ≠ b.value ∧
    overrides.allows a.pattern.text b.pattern.text = false

/-- No claimant after position `i` and before position `n` outdoes the one at `i`. -/
def Keeps (x : Expander) (entries : List SourceEntry) (key : Key) (i n : Nat) : Prop :=
  ∀ m, i < m → m < n → Claims x entries m key → ¬ Outdoes entries m i

/-- The entry at a position takes a key: as the first claimant, or from the one that kept it so far. -/
inductive Takes (x : Expander) (entries : List SourceEntry) (key : Key) : Nat → Prop
  | first {i : Nat} : Claims x entries i key → (∀ m < i, ¬ Claims x entries m key) →
      Takes x entries key i
  | takeover {h i : Nat} : Takes x entries key h → h < i → Keeps x entries key h i →
      Claims x entries i key → Outdoes entries i h → Takes x entries key i

/-- The entry at `i` holds a key just before the entry at `n` claims its keys. -/
structure Holds (x : Expander) (entries : List SourceEntry) (key : Key) (i n : Nat) : Prop where
  takes : Takes x entries key i
  lt : i < n
  keeps : Keeps x entries key i n

section
variable {x : Expander} {entries : List SourceEntry} {overrides : Overrides} {key : Key}
variable {i j m n : Nat}

theorem Takes.claims (h : Takes x entries key i) : Claims x entries i key := by
  cases h <;> assumption

theorem Holds.claims (h : Holds x entries key i n) : Claims x entries i key := h.takes.claims

theorem Keeps.mono (h : Keeps x entries key i n) (hmn : m ≤ n) : Keeps x entries key i m :=
  fun p hp hpm => h p hp (by omega)

theorem Holds.mono (h : Holds x entries key i n) (him : i < m) (hmn : m ≤ n) :
    Holds x entries key i m := ⟨h.takes, him, h.keeps.mono hmn⟩

/-- Of two holders at one time, neither is the earlier one. -/
theorem Holds.not_lt (hi : Holds x entries key i n) (hj : Holds x entries key j n) : ¬ i < j := by
  induction n using Nat.strongRecOn generalizing i j with
  | _ n ih =>
    intro hij
    obtain ⟨ht, hjn, -⟩ := hj
    cases ht with
    | first _ hfirst => exact hfirst i hij hi.claims
    | @takeover h _ hh hhj hk hc ho =>
      -- `i` and `h` both hold the key when `j` comes, so they are one
      have hi' : Holds x entries key i j := hi.mono hij (by omega)
      have hh' : Holds x entries key h j := ⟨hh, hhj, hk⟩
      have h₁ := ih j hjn hi' hh'
      have h₂ := ih j hjn hh' hi'
      obtain rfl : i = h := by omega
      exact hi.keeps j hij hjn hc ho

theorem Holds.unique (hi : Holds x entries key i n) (hj : Holds x entries key j n) : i = j := by
  have := hi.not_lt hj
  have := hj.not_lt hi
  omega

/-- Whoever holds a key keeps it for as long as nobody outdoes it. -/
theorem Holds.succ (h : Holds x entries key i n)
    (hn : Claims x entries n key → ¬ Outdoes entries n i) : Holds x entries key i (n + 1) := by
  refine ⟨h.takes, by have := h.lt; omega, fun m him hmn hm => ?_⟩
  rcases Nat.lt_succ_iff_lt_or_eq.1 hmn with hlt | rfl
  · exact h.keeps m him hlt hm
  · exact hn hm

theorem holds_of_takes (h : Takes x entries key n) : Holds x entries key n (n + 1) :=
  ⟨h, by omega, fun m hm hmn => by omega⟩

theorem Holds.of_succ (h : Holds x entries key i (n + 1)) (hi : i ≠ n) : Holds x entries key i n := by
  have := h.lt
  exact h.mono (by omega) (by omega)

/-- A key that has been claimed has a holder. -/
theorem exists_holds (hm : Claims x entries m key) (hmn : m < n) : ∃ i, Holds x entries key i n := by
  induction n generalizing m with
  | zero => omega
  | succ n ih =>
    by_cases hex : ∃ p < n, Claims x entries p key
    · obtain ⟨p, hp, hc⟩ := hex
      obtain ⟨i, hi⟩ := ih hc hp
      by_cases hn : Claims x entries n key ∧ Outdoes entries n i
      · exact ⟨n, holds_of_takes (.takeover hi.takes hi.lt hi.keeps hn.1 hn.2)⟩
      · exact ⟨i, hi.succ fun hc ho => hn ⟨hc, ho⟩⟩
    · obtain rfl : m = n := by
        have : ¬ m < n := fun hlt => hex ⟨m, hlt, hm⟩
        omega
      exact ⟨m, holds_of_takes (.first hm fun p hp hc => hex ⟨p, hp, hc⟩)⟩

end

/-! ## The holders that are computed -/

/-- What is known about the holder of one key before the entry at `n` claims it. -/
def HolderAt (x : Expander) (entries : List SourceEntry) (holders : Holders) (key : Key) (n : Nat) :
    Prop :=
  match holders[key]? with
  | some i => Holds x entries key i n
  | none => ∀ m < n, ¬ Claims x entries m key

section
variable {x : Expander} {entries : List SourceEntry} {overrides : Overrides} {key : Key} {n : Nat}
variable {holders holders' : Holders}

theorem holderAt_zero (x : Expander) (entries : List SourceEntry) (key : Key) :
    HolderAt x entries ∅ key 0 := by
  simp [HolderAt]

theorem HolderAt.of_holds {i : Nat} (hi : holders[key]? = some i) (h : Holds x entries key i n) :
    HolderAt x entries holders key n := by
  rwa [HolderAt, hi]

/-- An entry that does not claim a key leaves its holder as it is. -/
theorem HolderAt.succ_of_not_claims (h : HolderAt x entries holders key n)
    (hn : ¬ Claims x entries n key) : HolderAt x entries holders key (n + 1) := by
  unfold HolderAt at h ⊢
  split at h
  · exact h.succ fun hc => absurd hc hn
  · intro m hm hc
    rcases Nat.lt_succ_iff_lt_or_eq.1 hm with hlt | rfl
    · exact h m hlt hc
    · exact hn hc

/-- What `claim` answers, and when: `h` is the holder before, if any. -/
theorem claim_cases {entry : SourceEntry} {r : Except ExpandError Holders}
    (hr : claim entries.toArray overrides n entry holders key = r)
    (hh : ∀ h, holders[key]? = some h → h < entries.length) :
    (holders[key]? = none ∧ r = .ok (holders.insert key n)) ∨
    ∃ h holder, holders[key]? = some h ∧ entries[h]? = some holder ∧
      ((holder.value = entry.value ∧ r = .ok holders) ∨
      (holder.value ≠ entry.value ∧
          overrides.allows holder.pattern.text entry.pattern.text = false ∧
          r = .error (.patternConflict key.text holder.pattern.text entry.pattern.text)) ∨
      (holder.value ≠ entry.value ∧
          overrides.allows holder.pattern.text entry.pattern.text = true ∧
          (holder.pattern.specificity ≤ entry.pattern.specificity ∧
              r = .ok (holders.insert key n) ∨
            entry.pattern.specificity < holder.pattern.specificity ∧ r = .ok holders))) := by
  subst hr
  unfold claim
  cases hk : holders[key]? with
  | none => exact .inl ⟨rfl, rfl⟩
  | some h =>
    have hlt := hh h hk
    refine .inr ⟨h, entries[h], rfl, List.getElem?_eq_getElem hlt, ?_⟩
    simp only [Option.bind_some, List.getElem?_toArray, List.getElem?_eq_getElem hlt]
    by_cases hv : entries[h].value = entry.value
    · exact .inl ⟨hv, by rw [if_pos hv]⟩
    · rw [if_neg hv]
      cases ha : overrides.allows entries[h].pattern.text entry.pattern.text with
      | false => exact .inr (.inl ⟨hv, rfl, rfl⟩)
      | true =>
        refine .inr (.inr ⟨hv, rfl, ?_⟩)
        by_cases hs : entries[h].pattern.specificity ≤ entry.pattern.specificity
        · exact .inl ⟨hs, by simp [hs]⟩
        · exact .inr ⟨by omega, by simp [hs]⟩

/-- A claim concerns no other key. -/
theorem claim_other {entry : SourceEntry} {key' : Key} (hne : key' ≠ key)
    (h : claim entries.toArray overrides n entry holders key = .ok holders') :
    holders'[key']? = holders[key']? := by
  have hins : (holders.insert key n)[key']? = holders[key']? := by
    rw [Std.HashMap.getElem?_insert, if_neg (by simpa using Ne.symm hne)]
  unfold claim at h
  split at h
  · cases h; exact hins
  · split at h
    · cases h; rfl
    · split at h
      · cases h
      · split at h <;> cases h
        · exact hins
        · rfl

theorem HolderAt.lt_length (h : HolderAt x entries holders key n) {i : Nat}
    (hi : holders[key]? = some i) : i < entries.length := by
  rw [HolderAt, hi] at h
  obtain ⟨entry, -, he, -⟩ := h.claims
  exact (List.getElem?_eq_some_iff.1 he).1

theorem HolderAt.congr (h : HolderAt x entries holders key n) (he : holders'[key]? = holders[key]?) :
    HolderAt x entries holders' key n := by
  rwa [HolderAt, he]

/-- The entry at `n` has claimed a key, and did not clash with its holder. -/
structure Settled (x : Expander) (entries : List SourceEntry) (overrides : Overrides)
    (holders : Holders) (key : Key) (n : Nat) : Prop where
  holder : HolderAt x entries holders key (n + 1)
  no_clash : ∀ i, Holds x entries key i n → ¬ Clash entries overrides i n

theorem not_clash_of_eq {i : Nat} {a b : SourceEntry} (ha : entries[i]? = some a)
    (hb : entries[n]? = some b) (h : a.value = b.value ∨
      overrides.allows a.pattern.text b.pattern.text = true) : ¬ Clash entries overrides i n := by
  rintro ⟨a', b', ha', hb', hv, hc⟩
  cases ha.symm.trans ha'; cases hb.symm.trans hb'
  rcases h with h | h
  · exact hv h
  · rw [hc] at h; cases h

theorem not_outdoes_of_lt {i : Nat} {a b : SourceEntry} (ha : entries[i]? = some a)
    (hb : entries[n]? = some b) (h : a.value = b.value ∨
      b.pattern.specificity < a.pattern.specificity) : ¬ Outdoes entries n i := by
  rintro ⟨a', b', ha', hb', hv, hs⟩
  cases ha.symm.trans ha'; cases hb.symm.trans hb'
  rcases h with h | h
  · exact hv h
  · omega

/-- A first claim of the entry at `n` on a key settles it, or is refused by its holder. -/
theorem HolderAt.settled_or_refused (h : HolderAt x entries holders key n) (hc : Claims x entries n key)
    {entry : SourceEntry} (hn : entries[n]? = some entry) :
    (∃ holders', claim entries.toArray overrides n entry holders key = .ok holders' ∧
      Settled x entries overrides holders' key n) ∨
    ∃ i a, Holds x entries key i n ∧ entries[i]? = some a ∧ Clash entries overrides i n ∧
      claim entries.toArray overrides n entry holders key =
        .error (.patternConflict key.text a.pattern.text entry.pattern.text) := by
  have hins (ht : Takes x entries key n) :
      HolderAt x entries (holders.insert key n) key (n + 1) :=
    .of_holds (by simp) (holds_of_takes ht)
  rcases claim_cases rfl fun i hi => h.lt_length hi with ⟨hk, hr⟩ | ⟨i, a, hk, ha, hr⟩
  · rw [HolderAt, hk] at h
    refine .inl ⟨_, hr, hins (.first hc h), fun i hi => absurd hi.claims (h i hi.lt)⟩
  · rw [HolderAt, hk] at h
    have hone {P : Nat → Prop} (hP : P i) (j : Nat) (hj : Holds x entries key j n) : P j := by
      rwa [hj.unique h]
    rcases hr with ⟨hv, hr⟩ | ⟨hv, ho, hr⟩ | ⟨hv, ho, ⟨hs, hr⟩ | ⟨hs, hr⟩⟩
    · exact .inl ⟨_, hr, .of_holds hk (h.succ fun _ => not_outdoes_of_lt ha hn (.inl hv)),
        hone (not_clash_of_eq ha hn (.inl hv))⟩
    · exact .inr ⟨i, a, h, ha, ⟨a, entry, ha, hn, hv, ho⟩, hr⟩
    · exact .inl ⟨_, hr, hins (.takeover h.takes h.lt h.keeps hc ⟨a, entry, ha, hn, hv, hs⟩),
        hone (not_clash_of_eq ha hn (.inr ho))⟩
    · exact .inl ⟨_, hr, .of_holds hk (h.succ fun _ => not_outdoes_of_lt ha hn (.inr hs)),
        hone (not_clash_of_eq ha hn (.inr ho))⟩

/-- A second claim of the same entry on a key changes nothing. -/
theorem Settled.claim_again (h : Settled x entries overrides holders key n) (hc : Claims x entries n key)
    {entry : SourceEntry} (hn : entries[n]? = some entry) :
    claim entries.toArray overrides n entry holders key = .ok holders := by
  obtain ⟨h, hno⟩ := h
  have hcase := claim_cases (r := claim entries.toArray overrides n entry holders key) rfl
    fun i hi => h.lt_length hi
  rcases hcase with ⟨hk, -⟩ | ⟨i, a, hk, ha, hr⟩
  · rw [HolderAt, hk] at h
    exact absurd hc (h n (by omega))
  · rw [HolderAt, hk] at h
    by_cases hi : i = n
    · obtain rfl : a = entry := by simpa [hi, hn] using ha.symm
      rcases hr with ⟨-, hr⟩ | ⟨hv, -⟩ | ⟨hv, -⟩
      · exact hr
      · exact absurd rfl hv
      · exact absurd rfl hv
    · rcases hr with ⟨-, hr⟩ | ⟨hv, ho, -⟩ | ⟨hv, ho, ⟨hs, -⟩ | ⟨-, hr⟩⟩
      · exact hr
      · exact absurd ⟨a, entry, ha, hn, hv, ho⟩ (hno i (h.of_succ hi))
      · have := h.lt
        exact absurd ⟨a, entry, ha, hn, hv, hs⟩ (h.keeps n (by omega) (by omega) hc)
      · exact hr

/-- What is known about a key while the entry at `n` is claiming its keys. -/
abbrev Ready (x : Expander) (entries : List SourceEntry) (overrides : Overrides) (holders : Holders)
    (key : Key) (n : Nat) : Prop :=
  HolderAt x entries holders key n ∨ Settled x entries overrides holders key n

theorem Settled.congr (h : Settled x entries overrides holders key n)
    (he : holders'[key]? = holders[key]?) : Settled x entries overrides holders' key n :=
  ⟨h.holder.congr he, h.no_clash⟩

/-- A claim settles a key and leaves the others as they are, or its holder refuses it. -/
theorem claim_settles (hr : Ready x entries overrides holders key n)
    (hc : Claims x entries n key) {entry : SourceEntry} (hn : entries[n]? = some entry) :
    (∃ holders', claim entries.toArray overrides n entry holders key = .ok holders' ∧
      Settled x entries overrides holders' key n) ∨
    ∃ i a, Holds x entries key i n ∧ entries[i]? = some a ∧ Clash entries overrides i n ∧
      claim entries.toArray overrides n entry holders key =
        .error (.patternConflict key.text a.pattern.text entry.pattern.text) := by
  rcases hr with hr | hr
  · exact hr.settled_or_refused hc hn
  · exact .inl ⟨holders, hr.claim_again hc hn, hr⟩

theorem Ready.congr (h : Ready x entries overrides holders key n)
    (he : holders'[key]? = holders[key]?) : Ready x entries overrides holders' key n :=
  h.imp (·.congr he) (·.congr he)

/-- The entry at `n` claims its keys one after the other. -/
theorem foldlM_claim {entry : SourceEntry} (hn : entries[n]? = some entry) {keys : List Key}
    (hk : ∀ key ∈ keys, Claims x entries n key)
    (hr : ∀ key, Ready x entries overrides holders key n) :
    (∃ holders', keys.foldlM (claim entries.toArray overrides n entry) holders = .ok holders' ∧
      (∀ key ∈ keys, Settled x entries overrides holders' key n) ∧
      ∀ key, key ∉ keys → holders'[key]? = holders[key]?) ∨
    ∃ key i a, Holds x entries key i n ∧ Claims x entries n key ∧ entries[i]? = some a ∧
      Clash entries overrides i n ∧
      keys.foldlM (claim entries.toArray overrides n entry) holders =
        .error (.patternConflict key.text a.pattern.text entry.pattern.text) := by
  induction keys generalizing holders with
  | nil => exact .inl ⟨holders, rfl, by simp, fun _ _ => rfl⟩
  | cons key keys ih =>
    have hc := hk key List.mem_cons_self
    rw [List.foldlM_cons]
    rcases claim_settles (hr key) hc hn with ⟨holders₁, h₁, hs₁⟩ | ⟨i, a, hi, ha, hcl, h₁⟩
    · have hother {k : Key} (hne : k ≠ key) : holders₁[k]? = holders[k]? := claim_other hne h₁
      have hr₁ (k : Key) : Ready x entries overrides holders₁ k n := by
        by_cases hne : k = key
        · subst hne; exact .inr hs₁
        · exact (hr k).congr (hother hne)
      rw [h₁]
      rcases ih (fun k hm => hk k (List.mem_cons_of_mem _ hm)) hr₁ with
        ⟨holders₂, h₂, hs₂, hout⟩ | hex
      · refine .inl ⟨holders₂, h₂, fun k hm => ?_, fun k hm => ?_⟩
        · by_cases hin : k ∈ keys
          · exact hs₂ k hin
          · obtain rfl : k = key := by simpa [hin] using hm
            exact hs₁.congr (hout k hin)
        · rw [List.mem_cons, not_or] at hm
          rw [hout k hm.2, hother hm.1]
      · exact .inr hex
    · exact .inr ⟨key, i, a, hi, hc, ha, hcl, by rw [h₁]; rfl⟩

/-- Until position `n`, no claimant of a key clashes with its holder. -/
def Peaceful (x : Expander) (entries : List SourceEntry) (overrides : Overrides) (n : Nat) : Prop :=
  ∀ {key i j}, j < n → Holds x entries key i j → Claims x entries j key →
    ¬ Clash entries overrides i j

theorem claims_iff {entry : SourceEntry} {keys : List Key} (hn : entries[n]? = some entry)
    (hx : x.expand entry.pattern = .ok keys) : Claims x entries n key ↔ key ∈ keys := by
  constructor
  · rintro ⟨entry', keys', hn', hx', hm⟩
    cases hn.symm.trans hn'; cases hx.symm.trans hx'
    exact hm
  · exact fun hm => ⟨entry, keys, hn, hx, hm⟩

/--
All entries from `n` on claim their keys, and end with the holders; or a pattern stands for no keys; or a
claimant clashes with the holder of a key.
-/
theorem claimAll_cases {rest : List SourceEntry} (hrest : entries.drop n = rest)
    (hh : ∀ key, HolderAt x entries holders key n) (hp : Peaceful x entries overrides n) :
    (∃ holders', claimAll x entries.toArray overrides n rest holders = .ok holders' ∧
      (∀ key, HolderAt x entries holders' key entries.length) ∧
      Peaceful x entries overrides entries.length ∧
      ∀ entry ∈ rest, ∃ keys, x.expand entry.pattern = .ok keys) ∨
    (∃ e, ∃ entry ∈ rest, x.expand entry.pattern = .error e ∧
      claimAll x entries.toArray overrides n rest holders = .error e) ∨
    ∃ key i j a b, Holds x entries key i j ∧ Claims x entries j key ∧ entries[i]? = some a ∧
      entries[j]? = some b ∧ Clash entries overrides i j ∧
      claimAll x entries.toArray overrides n rest holders =
        .error (.patternConflict key.text a.pattern.text b.pattern.text) := by
  induction rest generalizing n holders with
  | nil =>
    have hle : entries.length ≤ n := List.drop_eq_nil_iff.1 hrest
    refine .inl ⟨holders, rfl, fun key => ?_, fun hj => hp (by omega), by simp⟩
    have h := hh key
    unfold HolderAt at h ⊢
    split at h
    · obtain ⟨entry, -, he, -⟩ := h.claims
      exact h.mono (List.getElem?_eq_some_iff.1 he).1 hle
    · exact fun m hm => h m (by omega)
  | cons entry rest ih =>
    have hn : entries[n]? = some entry := by
      rw [← Nat.add_zero n, ← List.getElem?_drop, hrest]; rfl
    have hrest' : entries.drop (n + 1) = rest := by
      rw [← List.drop_drop, hrest]; rfl
    rw [claimAll]
    cases hx : x.expand entry.pattern with
    | error e => exact .inr (.inl ⟨e, entry, List.mem_cons_self, hx, rfl⟩)
    | ok keys =>
      have hiff (key : Key) : Claims x entries n key ↔ key ∈ keys := claims_iff hn hx
      rcases @foldlM_claim x entries overrides _ _ _ hn _ (fun key => (hiff key).2) (fun key => .inl (hh key))
        with ⟨holders₁, h₁, hs₁, hout⟩ | ⟨key, i, a, hi, hc, ha, hcl, h₁⟩
      · have hh₁ (key : Key) : HolderAt x entries holders₁ key (n + 1) := by
          by_cases hm : key ∈ keys
          · exact (hs₁ key hm).holder
          · exact ((hh key).congr (hout key hm)).succ_of_not_claims (mt (hiff key).1 hm)
        have hp₁ : Peaceful x entries overrides (n + 1) := fun {key i j} hj hi hc => by
          rcases Nat.lt_succ_iff_lt_or_eq.1 hj with hlt | rfl
          · exact hp hlt hi hc
          · exact (hs₁ key ((hiff key).1 hc)).no_clash i hi
        change _ ∨ _ ∨ _
        simp only [bind, Except.bind, h₁]
        rcases ih hrest' hh₁ hp₁ with ⟨holders₂, h₂, hh₂, hp₂, hx₂⟩ | ⟨e, b, hb, hx₂, h₂⟩ | hex
        · refine .inl ⟨holders₂, h₂, hh₂, hp₂, fun b hb => ?_⟩
          rcases List.mem_cons.1 hb with rfl | hb
          · exact ⟨keys, hx⟩
          · exact hx₂ b hb
        · exact .inr (.inl ⟨e, b, List.mem_cons_of_mem _ hb, hx₂, h₂⟩)
        · exact .inr (.inr hex)
      · refine .inr (.inr ⟨key, i, n, a, entry, hi, hc, ha, hn, hcl, ?_⟩)
        simp only [bind, Except.bind, h₁]

end

end ConfigCompiler.Expansion
