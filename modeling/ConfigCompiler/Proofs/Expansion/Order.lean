import Mathlib.Data.Set.Finite.Lemmas
import ConfigCompiler.Proofs.Expansion.Conflict
import ConfigCompiler.Proofs.Expansion.Expander
import ConfigCompiler.Proofs.Key.Segments

/-!
# When the order of the entries does not matter

The claimants of a key decide it (`Decided`) if their patterns are declared wherever values differ, and one
value's patterns are more specific than all others: then that value ends up at the key in every order. Entries
are doomed (`Doomed`) if in every order some claimant clashes with the holder of its key; so they are where
the claimants of a key fall into two camps that nothing declares compatible (`Parted.doomed`). Entries have
one outcome in all orders just if all claimed keys are decided, or they are doomed (`outcome_perm_iff`): in an
order that begins with an undeclared pair there is a conflict (`exists_perm_none`), and where declared
patterns decide some key not, two orders bind it to different values (`exists_perm_ne`). Without declared
pairs the order never matters (`orderFree_none`).
-/

namespace ConfigCompiler.Expansion

/-- An entry claims a key. -/
abbrev Claimant (x : Expander) (entries : List SourceEntry) (key : Key) (a : SourceEntry) : Prop :=
  a ∈ entries ∧ x.Yields a.pattern key

/-- Where values differ the patterns are declared, and those of one value are the more specific ones. -/
def Decided (x : Expander) (entries : List SourceEntry) (overrides : Overrides) (key : Key)
    (value : Digest) : Prop :=
  (∃ a, Claimant x entries key a ∧ a.value = value) ∧
  (∀ a b, Claimant x entries key a → Claimant x entries key b → a.value ≠ b.value →
    overrides.allows a.pattern.text b.pattern.text = true) ∧
  ∀ a b, Claimant x entries key a → Claimant x entries key b → a.value = value → b.value ≠ value →
    b.pattern.specificity < a.pattern.specificity

/-- All claimed keys are decided. -/
def AllDecided (x : Expander) (entries : List SourceEntry) (overrides : Overrides) : Prop :=
  ∀ key a, Claimant x entries key a → ∃ value, Decided x entries overrides key value

/-- In every order of the entries a claimant clashes with the holder of its key. -/
def Doomed (x : Expander) (entries : List SourceEntry) (overrides : Overrides) : Prop :=
  ∀ entries', entries.Perm entries' → Challenged x entries' overrides

/-- If all patterns stand for keys, all keys are decided or the entries are doomed. -/
def OrderFree (x : Expander) (entries : List SourceEntry) (overrides : Overrides) : Prop :=
  AllExpand x entries → AllDecided x entries overrides ∨ Doomed x entries overrides

/-- The claimants of a key are of two camps; any two of different camps bind different values undeclared. -/
structure Parted (x : Expander) (entries : List SourceEntry) (overrides : Overrides) (key : Key)
    (camp : SourceEntry → Prop) : Prop where
  inside : ∃ a, Claimant x entries key a ∧ camp a
  outside : ∃ b, Claimant x entries key b ∧ ¬ camp b
  undeclared : ∀ a b, Claimant x entries key a → Claimant x entries key b → camp a → ¬ camp b →
    a.value ≠ b.value ∧ overrides.allows a.pattern.text b.pattern.text = false

section
variable {x : Expander} {entries : List SourceEntry} {overrides : Overrides} {key : Key}
variable {value : Digest} {camp : SourceEntry → Prop} {i j m n : Nat}

theorem claims_iff_claimant :
    Claims x entries i key ↔ ∃ a, entries[i]? = some a ∧ Claimant x entries key a := by
  constructor
  · rintro ⟨a, keys, ha, hk, hm⟩
    exact ⟨a, ha, List.mem_of_getElem? ha, keys, hk, hm⟩
  · rintro ⟨a, ha, -, keys, hk, hm⟩
    exact ⟨a, keys, ha, hk, hm⟩

theorem Claims.claimant (h : Claims x entries i key) {a : SourceEntry} (ha : entries[i]? = some a) :
    Claimant x entries key a := by
  obtain ⟨a', ha', hclaim⟩ := claims_iff_claimant.1 h
  cases ha.symm.trans ha'
  exact hclaim

theorem Claimant.claims {a : SourceEntry} (h : Claimant x entries key a) :
    ∃ i, entries[i]? = some a ∧ Claims x entries i key := by
  obtain ⟨i, hi⟩ := List.getElem?_of_mem h.1
  exact ⟨i, hi, claims_iff_claimant.2 ⟨a, hi, h⟩⟩

/-- Of the claimants of a key one holds it in the end. -/
theorem Claimant.exists_holder {a : SourceEntry} (h : Claimant x entries key a) :
    ∃ i c, Holds x entries key i entries.length ∧ entries[i]? = some c := by
  obtain ⟨m, -, hm⟩ := h.claims
  obtain ⟨i, hi⟩ := exists_holds hm hm.lt_length
  obtain ⟨c, hc, -⟩ := claims_iff_claimant.1 hi.claims
  exact ⟨i, c, hi, hc⟩

/-! ## Decided keys -/

/-- Nobody clashes with the holder of a decided key. -/
theorem Decided.not_clash (h : Decided x entries overrides key value) (hi : Claims x entries i key)
    (hj : Claims x entries j key) : ¬ Clash entries overrides i j := by
  rintro ⟨a, b, ha, hb, hv, hno⟩
  rw [h.2.1 a b (hi.claimant ha) (hj.claimant hb) hv] at hno
  cases hno

/-- Once an entry with the value of a decided key has come, the holder has that value. -/
theorem Decided.holder (h : Decided x entries overrides key value) (hi : Holds x entries key i n)
    {a c : SourceEntry} (ha : entries[i]? = some a) (hmn : m < n) (hm : Claims x entries m key)
    (hc : entries[m]? = some c) (hv : c.value = value) : a.value = value := by
  have hcc := hm.claimant hc
  induction n using Nat.strongRecOn generalizing i a with
  | _ n ih =>
    have hac := hi.claims.claimant ha
    refine Classical.byContradiction fun hne => ?_
    have hspec := h.2.2 c a hcc hac hv hne
    rcases Nat.lt_trichotomy i m with him | rfl | hmi
    · refine hi.keeps m him hmn hm ⟨a, c, ha, hc, ?_, by omega⟩
      rw [hv]
      exact hne
    · cases ha.symm.trans hc
      exact hne hv
    · cases hi.takes with
      | first _ hfirst => exact hfirst m hmi hm
      | @takeover p _ hp hpi hk _ ho =>
        obtain ⟨b, a', hb, ha', hv', hle⟩ := ho
        cases ha.symm.trans ha'
        have hb' : b.value = value := ih i hi.lt ⟨hp, hpi, hk⟩ hb hmi
        have := h.2.2 b a (hp.claims.claimant hb) hac hb' hne
        omega

theorem Decided.value_eq (h : Decided x entries overrides key value)
    (hi : Holds x entries key i entries.length) {a : SourceEntry} (ha : entries[i]? = some a) :
    a.value = value := by
  obtain ⟨c, hc, hv⟩ := h.1
  obtain ⟨m, hm, hcl⟩ := hc.claims
  exact h.holder hi ha hcl.lt_length hcl hm hv

theorem AllDecided.peaceful (h : AllDecided x entries overrides) : Peaceful x entries overrides n := by
  intro key i j _ hi hj
  obtain ⟨a, -, hac⟩ := claims_iff_claimant.1 hj
  obtain ⟨value, hd⟩ := h key a hac
  exact hd.not_clash hi.claims hj

/-! ## Two camps -/

theorem Parted.clash (h : Parted x entries overrides key camp) (hi : Claims x entries i key)
    (hj : Claims x entries j key) {a b : SourceEntry} (ha : entries[i]? = some a)
    (hb : entries[j]? = some b) (hcamp : ¬ (camp a ↔ camp b)) : Clash entries overrides i j := by
  have hca := hi.claimant ha
  have hcb := hj.claimant hb
  by_cases hac : camp a
  · obtain ⟨hv, hno⟩ := h.undeclared a b hca hcb hac fun hbc => hcamp (iff_of_true hac hbc)
    exact ⟨a, b, ha, hb, hv, hno⟩
  · have hbc : camp b := Classical.byContradiction fun hbc => hcamp (iff_of_false hac hbc)
    obtain ⟨hv, hno⟩ := h.undeclared b a hcb hca hbc hac
    exact ⟨a, b, ha, hb, Ne.symm hv, by rw [Overrides.allows_comm, hno]⟩

/-- As long as nobody clashes, all claimants of a parted key are in the camp of its holder. -/
theorem Parted.same_camp (h : Parted x entries overrides key camp)
    (hp : Peaceful x entries overrides n) (hi : Holds x entries key i n) (hmn : m < n)
    (hm : Claims x entries m key) {a c : SourceEntry} (ha : entries[i]? = some a)
    (hc : entries[m]? = some c) : camp a ↔ camp c := by
  induction n generalizing i m a c with
  | zero => omega
  | succ n ih =>
    have hp' : Peaceful x entries overrides n := fun hj => hp (by omega)
    by_cases hin : i = n
    · subst hin
      by_cases hmi : m = i
      · subst hmi
        cases ha.symm.trans hc
        exact Iff.rfl
      · have hlt : m < i := by omega
        cases hi.takes with
        | first _ hfirst => exact absurd hm (hfirst m hlt)
        | @takeover p _ hh hpi hk hci ho =>
          obtain ⟨b, -, hb, -, -, -⟩ := ho
          have hold : Holds x entries key p i := ⟨hh, hpi, hk⟩
          refine Iff.trans ?_ (ih hp' hold hlt hm hb hc)
          exact Classical.byContradiction fun hv => hp (by omega) hold hci
            (h.clash hold.claims hci hb ha fun hba => hv hba.symm)
    · have hold := hi.of_succ hin
      by_cases hlt : m < n
      · exact ih hp' hold hlt hm ha hc
      · obtain rfl : m = n := by omega
        exact Classical.byContradiction fun hv => hp (by omega) hold hm
          (h.clash hold.claims hm ha hc hv)

theorem Parted.challenged (h : Parted x entries overrides key camp) : Challenged x entries overrides := by
  refine Classical.not_not.1 fun hno => ?_
  have hp : Peaceful x entries overrides entries.length := peaceful_iff.2 hno
  obtain ⟨a, ha, hac⟩ := h.inside
  obtain ⟨b, hb, hbc⟩ := h.outside
  obtain ⟨i, hi, hci⟩ := ha.claims
  obtain ⟨j, hj, hcj⟩ := hb.claims
  obtain ⟨k, c, hk, hc⟩ := ha.exists_holder
  have h₁ := h.same_camp hp hk hci.lt_length hci hc hi
  have h₂ := h.same_camp hp hk hcj.lt_length hcj hc hj
  exact hbc (h₂.1 (h₁.2 hac))

/-- A parted key leaves no order without a conflict. -/
theorem Parted.doomed (h : Parted x entries overrides key camp) : Doomed x entries overrides := by
  intro entries' hp
  have hclaim (a : SourceEntry) : Claimant x entries' key a ↔ Claimant x entries key a := by
    rw [Claimant, Claimant, hp.mem_iff]
  have hparted : Parted x entries' overrides key camp := by
    refine ⟨?_, ?_, ?_⟩ <;> simp only [hclaim]
    · exact h.inside
    · exact h.outside
    · exact h.undeclared
  exact hparted.challenged

/-- There is a conflict in an order that begins with two undeclared claimants of different values. -/
theorem challenged_of_first {a b : SourceEntry} {rest : List SourceEntry} (ha : x.Yields a.pattern key)
    (hb : x.Yields b.pattern key) (hv : a.value ≠ b.value)
    (hno : overrides.allows a.pattern.text b.pattern.text = false) :
    Challenged x (a :: b :: rest) overrides := by
  have hca : Claims x (a :: b :: rest) 0 key := claims_iff_claimant.2 ⟨a, rfl, List.mem_cons_self, ha⟩
  have hcb : Claims x (a :: b :: rest) 1 key :=
    claims_iff_claimant.2 ⟨b, rfl, List.mem_cons_of_mem _ List.mem_cons_self, hb⟩
  exact ⟨key, 0, 1, holds_of_takes (.first hca (by omega)), hcb, a, b, rfl, rfl, hv, hno⟩

end

/-! ## The outcome of an expansion -/

/-- The keys of an expansion with the values that are bound to them. -/
def valued (entries : List SourceEntry) (expansions : List Expansion) : List (Key × Option Digest) :=
  expansions.map fun x => (x.key, entries[x.origin]?.map SourceEntry.value)

/-- The keys with their values, if the expansion succeeds. -/
def outcome (hierarchy : Hierarchy) (entries : List SourceEntry) (overrides : Overrides) :
    Option (List (Key × Option Digest)) :=
  (ofEntries hierarchy entries overrides).toOption.map (valued entries)

section
variable {hierarchy : Hierarchy} {entries : List SourceEntry} {overrides : Overrides}

/-- The expansions of a successful run are the holders after the last claim, in the order of their keys. -/
structure IsOutcome (x : Expander) (entries : List SourceEntry) (expansions : List Expansion) :
    Prop where
  sorted : expansions.Pairwise fun a b => a.key ≤ b.key
  nodup : expansions.Pairwise fun a b => a.key ≠ b.key
  mem_iff : ∀ {key i}, ⟨key, i⟩ ∈ expansions ↔ Holds x entries key i entries.length

theorem ofEntries_spec (hierarchy : Hierarchy) (entries : List SourceEntry) (overrides : Overrides) :
    (AllExpand (expanderOf hierarchy entries) entries ∧
      Peaceful (expanderOf hierarchy entries) entries overrides entries.length ∧
      ∃ expansions, ofEntries hierarchy entries overrides = .ok expansions ∧
        IsOutcome (expanderOf hierarchy entries) entries expansions) ∨
    ¬ (AllExpand (expanderOf hierarchy entries) entries ∧
      Peaceful (expanderOf hierarchy entries) entries overrides entries.length) ∧
      ∃ e, ofEntries hierarchy entries overrides = .error e := by
  have hpeace : Peaceful (expanderOf hierarchy entries) entries overrides 0 := fun hj => by omega
  have hall := claimAll_cases (List.drop_zero (l := entries))
    (holderAt_zero (expanderOf hierarchy entries) entries) hpeace
  rcases hall with ⟨holders, hok, hh, hp, hx⟩ | ⟨e, entry, he, hx, herr⟩ |
    ⟨key, i, j, a, b, hi, hj, ha, hb, hc, herr⟩
  · refine .inl ⟨hx, hp, _, by rw [ofEntries]; simp only [hok]; rfl, ?_, ?_, fun {key i} => ?_⟩
    · exact Key.pairwise_mergeSort Expansion.key _
    · refine (List.mergeSort_perm _ _).pairwise_iff (fun h => Ne.symm h) |>.2 ?_
      rw [List.pairwise_map]
      exact Std.HashMap.distinct_keys_toList.imp fun h => by simpa using h
    · rw [List.mem_mergeSort, List.mem_map]
      have hk := hh key
      rw [HolderAt] at hk
      constructor
      · rintro ⟨⟨k, o⟩, hm, he⟩
        cases he
        rw [Std.HashMap.mem_toList_iff_getElem?_eq_some] at hm
        rwa [hm] at hk
      · intro hi
        refine ⟨(key, i), ?_, rfl⟩
        rw [Std.HashMap.mem_toList_iff_getElem?_eq_some]
        cases ho : holders[key]? with
        | none =>
          rw [ho] at hk
          exact absurd hi.claims (hk i hi.lt)
        | some o =>
          rw [ho] at hk
          rw [hk.unique hi]
  · refine .inr ⟨fun h => ?_, e, by rw [ofEntries]; simp only [herr]; rfl⟩
    obtain ⟨keys, hk⟩ := h.1 entry he
    cases hk.symm.trans hx
  · refine .inr ⟨fun h => h.2 hj.lt_length hi hj hc, _, by rw [ofEntries]; simp only [herr]; rfl⟩

theorem exists_isOutcome (hx : AllExpand (expanderOf hierarchy entries) entries)
    (hp : Peaceful (expanderOf hierarchy entries) entries overrides entries.length) :
    ∃ expansions, ofEntries hierarchy entries overrides = .ok expansions ∧
      IsOutcome (expanderOf hierarchy entries) entries expansions := by
  rcases ofEntries_spec hierarchy entries overrides with ⟨-, -, hok⟩ | ⟨hno, -⟩
  · exact hok
  · exact absurd ⟨hx, hp⟩ hno

theorem isOutcome_of_ok {expansions : List Expansion}
    (h : ofEntries hierarchy entries overrides = .ok expansions) :
    AllExpand (expanderOf hierarchy entries) entries ∧
      IsOutcome (expanderOf hierarchy entries) entries expansions := by
  rcases ofEntries_spec hierarchy entries overrides with ⟨hall, -, xs, hxs, hout⟩ | ⟨-, e, he⟩
  · cases h.symm.trans hxs
    exact ⟨hall, hout⟩
  · cases h.symm.trans he

/-- What stands at a key after a successful run. -/
theorem IsOutcome.mem_valued {x : Expander} {expansions : List Expansion}
    (h : IsOutcome x entries expansions) {key : Key} {v : Option Digest} :
    (key, v) ∈ valued entries expansions ↔
      ∃ i a, Holds x entries key i entries.length ∧ entries[i]? = some a ∧ v = some a.value := by
  simp only [valued, List.mem_map, Prod.mk.injEq]
  constructor
  · rintro ⟨⟨k, i⟩, hm, rfl, rfl⟩
    have hi := h.mem_iff.1 hm
    obtain ⟨a, ha, -⟩ := claims_iff_claimant.1 hi.claims
    exact ⟨i, a, hi, ha, by rw [ha]; rfl⟩
  · rintro ⟨i, a, hi, ha, rfl⟩
    exact ⟨⟨key, i⟩, h.mem_iff.2 hi, rfl, by rw [ha]; rfl⟩

/-- Two outcomes are one if they bind the same keys to the same values. -/
theorem valued_ext {x y : Expander} {entries' : List SourceEntry} {xs ys : List Expansion}
    (hx : IsOutcome x entries xs) (hy : IsOutcome y entries' ys)
    (hmem : ∀ e, e ∈ valued entries xs ↔ e ∈ valued entries' ys) :
    valued entries xs = valued entries' ys := by
  have hnodup {z : Expander} {es : List SourceEntry} {zs : List Expansion} (hz : IsOutcome z es zs) :
      (valued es zs).Pairwise fun a b => a.1 ≠ b.1 := List.pairwise_map.2 hz.nodup
  have hsorted {z : Expander} {es : List SourceEntry} {zs : List Expansion} (hz : IsOutcome z es zs) :
      (valued es zs).Pairwise fun a b => a.1 ≤ b.1 := List.pairwise_map.2 hz.sorted
  have hperm : (valued entries xs).Perm (valued entries' ys) :=
    (List.perm_ext_iff_of_nodup ((hnodup hx).imp fun h he => h (congrArg Prod.fst he))
      ((hnodup hy).imp fun h he => h (congrArg Prod.fst he))).2 hmem
  refine hperm.eq_of_pairwise (fun ⟨k, v⟩ ⟨k', v'⟩ ha hb hab hba => ?_) (hsorted hx) (hsorted hy)
  obtain rfl : k = k' := Key.eq_of_le_of_le hab hba
  obtain ⟨i, a, hi, hia, rfl⟩ := hx.mem_valued.1 ha
  obtain ⟨j, b, hj, hjb, rfl⟩ := hx.mem_valued.1 ((hmem _).2 hb)
  obtain rfl := hi.unique hj
  cases hia.symm.trans hjb
  rfl

/-! ## Permuted entries -/

section
variable {h h' : Hierarchy} {entries' : List SourceEntry}

theorem alike_of_perm (hk : ∀ id, h.kids id = h'.kids id) (hp : entries.Perm entries') :
    Expander.Alike (expanderOf h entries) (expanderOf h' entries') :=
  Expander.alike_ofKeys hk fun _ => (hp.map _).mem_iff

theorem claimant_congr {x y : Expander} (hxy : Expander.Alike x y) (hp : entries.Perm entries')
    (key : Key) (a : SourceEntry) : Claimant x entries key a ↔ Claimant y entries' key a := by
  rw [Claimant, Claimant, hp.mem_iff, hxy.yields]

theorem allExpand_congr {x y : Expander} (hxy : Expander.Alike x y) (hp : entries.Perm entries') :
    AllExpand x entries ↔ AllExpand y entries' := by
  simp only [AllExpand, hp.mem_iff, hxy.exists_expand]

theorem mem_valued_of_decided {x : Expander} {xs : List Expansion} (hx : IsOutcome x entries xs)
    (hd : AllDecided x entries overrides) {key : Key} {v : Option Digest} :
    (key, v) ∈ valued entries xs ↔ ∃ value, Decided x entries overrides key value ∧ v = some value := by
  rw [hx.mem_valued]
  constructor
  · rintro ⟨i, a, hi, ha, rfl⟩
    obtain ⟨c, -, hc⟩ := claims_iff_claimant.1 hi.claims
    obtain ⟨value, hval⟩ := hd key c hc
    exact ⟨value, hval, by rw [hval.value_eq hi ha]⟩
  · rintro ⟨value, hval, rfl⟩
    obtain ⟨c, hc, -⟩ := hval.1
    obtain ⟨i, a, hi, ha⟩ := hc.exists_holder
    exact ⟨i, a, hi, ha, by rw [hval.value_eq hi ha]⟩

theorem takes_congr {x y : Expander} (hc : ∀ {i key}, Claims x entries i key ↔ Claims y entries i key)
    {key : Key} {i : Nat} (hi : Takes x entries key i) : Takes y entries key i := by
  induction hi with
  | first hi hfirst => exact .first (hc.1 hi) fun m hm hcm => hfirst m hm (hc.2 hcm)
  | takeover _ hlt hk hi ho ih =>
    exact .takeover ih hlt (fun m h₁ h₂ hcm => hk m h₁ h₂ (hc.2 hcm)) (hc.1 hi) ho

theorem Challenged.congr {x y : Expander} (hxy : Expander.Alike x y) (h : Challenged x entries overrides) :
    Challenged y entries overrides := by
  have hc {i : Nat} {key : Key} : Claims x entries i key ↔ Claims y entries i key := by
    simp only [claims_iff_claimant, claimant_congr hxy (List.Perm.refl entries)]
  obtain ⟨key, i, j, hi, hj, hcl⟩ := h
  exact ⟨key, i, j, ⟨takes_congr hc hi.takes, hi.lt, fun m h₁ h₂ hcm => hi.keeps m h₁ h₂ (hc.2 hcm)⟩,
    hc.1 hj, hcl⟩

/-- An expansion fails at a pattern that stands for no key, or where a claimant clashes with a holder. -/
theorem outcome_eq_none_iff : outcome h entries overrides = none ↔
    (AllExpand (expanderOf h entries) entries → Challenged (expanderOf h entries) entries overrides) := by
  rcases ofEntries_spec h entries overrides with ⟨hx, hp, xs, hok, -⟩ | ⟨hno, e, herr⟩
  · exact iff_of_false (by simp [outcome, hok, Except.toOption]) fun hc => peaceful_iff.1 hp (hc hx)
  · refine iff_of_true (by simp [outcome, herr, Except.toOption]) fun hx => ?_
    exact Classical.not_not.1 fun hc => hno ⟨hx, peaceful_iff.2 hc⟩

/--
Where the order does not matter, entries in any order have one outcome; and what counts of the hierarchy is
the children of its nodes.
-/
theorem outcome_perm (hk : ∀ id, h.kids id = h'.kids id) (hp : entries.Perm entries')
    (hs : OrderFree (expanderOf h entries) entries overrides) :
    outcome h entries overrides = outcome h' entries' overrides := by
  have hxy := alike_of_perm hk hp
  have hclaim := claimant_congr hxy hp
  have hall := allExpand_congr hxy hp
  by_cases hdecided : AllExpand (expanderOf h entries) entries ∧
      AllDecided (expanderOf h entries) entries overrides
  · obtain ⟨hx, hd⟩ := hdecided
    have hdec (key : Key) (v : Digest) : Decided (expanderOf h entries) entries overrides key v ↔
        Decided (expanderOf h' entries') entries' overrides key v := by
      simp only [Decided, hclaim]
    have hd' : AllDecided (expanderOf h' entries') entries' overrides := fun key a ha =>
      (hd key a ((hclaim key a).2 ha)).imp fun value => (hdec key value).1
    obtain ⟨xs, hok, ho⟩ := exists_isOutcome hx hd.peaceful
    obtain ⟨ys, hok', ho'⟩ := exists_isOutcome (hall.1 hx) hd'.peaceful
    simp only [outcome, hok, hok', Except.toOption, Option.map_some, Option.some.injEq]
    refine valued_ext ho ho' fun ⟨key, v⟩ => ?_
    rw [mem_valued_of_decided ho hd, mem_valued_of_decided ho' hd']
    simp only [hdec]
  · -- the expansion fails in both orders
    have hdoomed (hx : AllExpand (expanderOf h entries) entries) :
        Doomed (expanderOf h entries) entries overrides :=
      (hs hx).resolve_left fun hd => hdecided ⟨hx, hd⟩
    rw [outcome_eq_none_iff.2 fun hx => hdoomed hx entries (.refl _),
      outcome_eq_none_iff.2 fun hx => (hdoomed (hall.2 hx) entries' hp).congr hxy]

end

/-- Without declared pairs, two values of one key part its claimants. -/
theorem parted_none {x : Expander} {entries : List SourceEntry} {key : Key} {a b : SourceEntry}
    (ha : Claimant x entries key a) (hb : Claimant x entries key b) (hne : a.value ≠ b.value) :
    Parted x entries Overrides.none key (·.value = a.value) := by
  refine ⟨⟨a, ha, rfl⟩, ⟨b, hb, Ne.symm hne⟩, fun c d _ _ hc hd => ⟨fun he => hd ?_, rfl⟩⟩
  exact he.symm.trans hc

/-- Without declared pairs, a key is decided by equal values or else parted. -/
theorem orderFree_none (x : Expander) (entries : List SourceEntry) :
    OrderFree x entries Overrides.none := by
  intro _
  by_cases h : ∀ key a b, Claimant x entries key a → Claimant x entries key b → a.value = b.value
  · refine .inl fun key a ha => ⟨a.value, ⟨a, ha, rfl⟩, ?_, ?_⟩
    · exact fun b c hb hc hne => absurd (h key b c hb hc) hne
    · exact fun b c _ hc _ hne => absurd (h key c a hc ha) hne
  · simp only [Classical.not_forall] at h
    obtain ⟨key, a, b, ha, hb, hne⟩ := h
    exact .inr (parted_none ha hb hne).doomed

end

/-! ## Where the order shows -/

/-- Claimants of one key with different values are declared. -/
def Declared (x : Expander) (entries : List SourceEntry) (overrides : Overrides) : Prop :=
  ∀ key a b, Claimant x entries key a → Claimant x entries key b → a.value ≠ b.value →
    overrides.allows a.pattern.text b.pattern.text = true

section
variable {x : Expander} {entries before : List SourceEntry} {overrides : Overrides} {key : Key}
variable {a b c : SourceEntry} {i n : Nat}

theorem Declared.peaceful (h : Declared x entries overrides) : Peaceful x entries overrides n := by
  rintro key i j _ hi hj ⟨a, b, ha, hb, hv, hno⟩
  rw [h key a b (hi.claims.claimant ha) (hj.claimant hb) hv] at hno
  cases hno

/-- The last entry ends up at a key if its pattern is the most specific one there. -/
theorem value_of_last (ha : x.Yields a.pattern key)
    (hmax : ∀ b ∈ before, x.Yields b.pattern key → b.pattern.specificity ≤ a.pattern.specificity)
    (hi : Holds x (before ++ [a]) key i (before ++ [a]).length)
    (hc : (before ++ [a])[i]? = some c) : c.value = a.value := by
  have hlast : (before ++ [a])[before.length]? = some a := by simp
  have hlt := hi.lt
  rw [List.length_append, List.length_singleton] at hlt
  by_cases hie : i = before.length
  · rw [hie] at hc
    cases hlast.symm.trans hc
    rfl
  · refine Classical.byContradiction fun hv => ?_
    have hcm : c ∈ before := by
      rw [List.getElem?_append_left (by omega)] at hc
      exact List.mem_of_getElem? hc
    refine hi.keeps before.length (by omega) (by simp) ?_ ⟨c, a, hc, hlast, hv, hmax c hcm (hi.claims.claimant hc).2⟩
    exact claims_iff_claimant.2 ⟨a, hlast, List.mem_of_getElem? hlast, ha⟩

/-- A value that comes first loses a key to a pattern that is no less specific than the first one. -/
theorem value_of_first {same others : List SourceEntry} (ha : x.Yields a.pattern key)
    (hsame : ∀ c ∈ same, c.value = a.value) (hb : x.Yields b.pattern key) (hv : b.value ≠ a.value)
    (hs : a.pattern.specificity ≤ b.pattern.specificity) (hothers : ∀ c ∈ others, c.value ≠ a.value)
    (hi : Holds x (a :: same ++ b :: others) key i (a :: same ++ b :: others).length)
    (hc : (a :: same ++ b :: others)[i]? = some c) : c.value ≠ a.value := by
  have hblock {j : Nat} {d : SourceEntry} (hj : j < (a :: same).length)
      (hd : (a :: same ++ b :: others)[j]? = some d) : d.value = a.value := by
    rw [List.getElem?_append_left hj] at hd
    rcases List.mem_cons.1 (List.mem_of_getElem? hd) with rfl | hd
    · rfl
    · exact hsame d hd
  have hbi : (a :: same ++ b :: others)[(a :: same).length]? = some b := by simp
  intro hcv
  have hlt : i < (a :: same).length := by
    refine Classical.byContradiction fun hge => ?_
    rw [List.getElem?_append_right (by omega)] at hc
    rcases List.mem_cons.1 (List.mem_of_getElem? hc) with rfl | hc
    · exact hv hcv
    · exact hothers c hc hcv
  -- nobody of the same value outdoes the first entry, so it is the holder
  have hzero : i = 0 := by
    cases hi.takes with
    | first _ hfirst =>
      refine Classical.byContradiction fun hne => hfirst 0 (by omega) ?_
      exact claims_iff_claimant.2 ⟨a, rfl, List.mem_cons_self, ha⟩
    | @takeover h _ _ hhi _ _ ho =>
      obtain ⟨d, c', hd, hc', hdc, -⟩ := ho
      cases hc.symm.trans hc'
      exact absurd ((hblock (by omega) hd).trans hcv.symm) hdc
  subst hzero
  obtain rfl : a = c := Option.some.inj hc
  refine hi.keeps (a :: same).length (by simp) (by simp) ?_ ⟨a, b, hc, hbi, Ne.symm hv, hs⟩
  exact claims_iff_claimant.2 ⟨b, hbi, List.mem_of_getElem? hbi, hb⟩

/-- One of the claimants of a key is the most specific one. -/
theorem exists_most_specific (ha : Claimant x entries key a) : ∃ b, Claimant x entries key b ∧
    ∀ c, Claimant x entries key c → c.pattern.specificity ≤ b.pattern.specificity :=
  Set.exists_max_image {b | Claimant x entries key b} (fun b => b.pattern.specificity)
    ((List.finite_toSet entries).subset fun _ hb => hb.1) ⟨a, ha⟩

end

section
variable {h : Hierarchy} {entries entries' : List SourceEntry} {overrides : Overrides} {key : Key}

theorem alike_perm (h : Hierarchy) (hp : entries.Perm entries') :
    Expander.Alike (expanderOf h entries) (expanderOf h entries') := alike_of_perm (fun _ => rfl) hp

theorem Declared.perm (hd : Declared (expanderOf h entries) entries overrides)
    (hp : entries.Perm entries') : Declared (expanderOf h entries') entries' overrides := by
  have hclaim := claimant_congr (alike_perm h hp) hp
  exact fun key a b ha hb => hd key a b ((hclaim key a).2 ha) ((hclaim key b).2 hb)

theorem Declared.outcome_eq (hd : Declared (expanderOf h entries) entries overrides)
    (hx : AllExpand (expanderOf h entries) entries) :
    ∃ xs, IsOutcome (expanderOf h entries) entries xs ∧
      outcome h entries overrides = some (valued entries xs) := by
  obtain ⟨xs, hok, ho⟩ := exists_isOutcome hx hd.peaceful
  exact ⟨xs, ho, by rw [outcome, hok]; rfl⟩

/-- Two orders in which the holders of a key end up with different values have different outcomes. -/
theorem outcome_ne (hd : Declared (expanderOf h entries) entries overrides)
    (hx : AllExpand (expanderOf h entries) entries) (hp : entries.Perm entries') {a : SourceEntry}
    (ha : Claimant (expanderOf h entries) entries key a) {value : Digest}
    (heq : ∀ {i c}, Holds (expanderOf h entries) entries key i entries.length →
      entries[i]? = some c → c.value = value)
    (hne : ∀ {i c}, Holds (expanderOf h entries') entries' key i entries'.length →
      entries'[i]? = some c → c.value ≠ value) :
    outcome h entries overrides ≠ outcome h entries' overrides := by
  obtain ⟨xs, hxs, ho⟩ := hd.outcome_eq hx
  obtain ⟨ys, hys, ho'⟩ := (hd.perm hp).outcome_eq ((allExpand_congr (alike_perm h hp) hp).1 hx)
  rw [ho, ho']
  intro he
  obtain ⟨i, c, hi, hc⟩ := ha.exists_holder
  have hmem : (key, some value) ∈ valued entries xs :=
    hxs.mem_valued.2 ⟨i, c, hi, hc, by rw [heq hi hc]⟩
  rw [Option.some.inj he] at hmem
  obtain ⟨j, d, hj, hdj, hv⟩ := hys.mem_valued.1 hmem
  exact hne hj hdj (Option.some.inj hv).symm

/-- If all entries are for one key alone, the outcome is the value of its holder. -/
theorem outcome_singleton {value : Digest}
    (hx : ∀ a ∈ entries, (expanderOf h entries).expand a.pattern = .ok [key])
    (hd : Declared (expanderOf h entries) entries overrides) (hne : entries ≠ [])
    (hv : ∀ {i c}, Holds (expanderOf h entries) entries key i entries.length →
      entries[i]? = some c → c.value = value) :
    outcome h entries overrides = some [(key, some value)] := by
  obtain ⟨xs, hxs, ho⟩ := hd.outcome_eq fun a ha => ⟨_, hx a ha⟩
  have hkey {i : Nat} {k : Key} (hi : Claims (expanderOf h entries) entries i k) : k = key := by
    obtain ⟨a, -, ha, keys, hk, hmem⟩ := claims_iff_claimant.1 hi
    cases (hx a ha).symm.trans hk
    exact List.mem_singleton.1 hmem
  have hmem : ∀ e, e ∈ valued entries xs ↔ e ∈ [(key, some value)] := by
    rintro ⟨k, w⟩
    rw [hxs.mem_valued, List.mem_singleton, Prod.mk.injEq]
    constructor
    · rintro ⟨i, a, hi, ha, rfl⟩
      obtain rfl := hkey hi.claims
      exact ⟨rfl, congrArg some (hv hi ha)⟩
    · rintro ⟨rfl, rfl⟩
      obtain ⟨a, ha⟩ := List.exists_mem_of_ne_nil entries hne
      obtain ⟨i, c, hi, hc⟩ := Claimant.exists_holder ⟨ha, _, hx a ha, List.mem_singleton_self _⟩
      exact ⟨i, c, hi, hc, by rw [hv hi hc]⟩
  have hnodup : (valued entries xs).Nodup :=
    (List.pairwise_map.2 hxs.nodup : (valued entries xs).Pairwise fun a b => a.1 ≠ b.1).imp
      fun h he => h (congrArg Prod.fst he)
  rw [ho, List.perm_singleton.1 ((List.perm_ext_iff_of_nodup hnodup (List.nodup_singleton _)).2 hmem)]

theorem declared_pair {x : Expander} {a b : SourceEntry}
    (hallow : overrides.allows a.pattern.text b.pattern.text = true) : Declared x [a, b] overrides := by
  rintro k c d ⟨hc, -⟩ ⟨hd, -⟩ hne
  simp only [List.mem_cons, List.not_mem_nil, or_false] at hc hd
  rcases hc with rfl | rfl <;> rcases hd with rfl | rfl
  · exact absurd rfl hne
  · exact hallow
  · rw [Overrides.allows_comm]
    exact hallow
  · exact absurd rfl hne

/-- The later one of two declared entries ends up at their key if it is no less specific. -/
theorem outcome_pair {a b : SourceEntry} (ha : (expanderOf h [a, b]).expand a.pattern = .ok [key])
    (hb : (expanderOf h [a, b]).expand b.pattern = .ok [key])
    (hallow : overrides.allows a.pattern.text b.pattern.text = true)
    (hs : a.pattern.specificity ≤ b.pattern.specificity) :
    outcome h [a, b] overrides = some [(key, some b.value)] := by
  refine outcome_singleton (List.forall_mem_cons.2 ⟨ha, List.forall_mem_singleton.2 hb⟩)
    (declared_pair hallow) (List.cons_ne_nil _ _) fun hi hc => ?_
  have hlast : ∀ c ∈ [a], (expanderOf h [a, b]).Yields c.pattern key →
      c.pattern.specificity ≤ b.pattern.specificity := List.forall_mem_singleton.2 fun _ => hs
  exact value_of_last ⟨_, hb, List.mem_singleton_self _⟩ hlast hi hc

theorem claimants_pair {x : Expander} {a b : SourceEntry} (ha : x.expand a.pattern = .ok [key])
    (hb : x.expand b.pattern = .ok [key]) : Claimant x [a, b] key a ∧ Claimant x [a, b] key b :=
  ⟨⟨List.mem_cons_self, _, ha, List.mem_singleton_self _⟩,
    List.mem_cons_of_mem _ List.mem_cons_self, _, hb, List.mem_singleton_self _⟩

/-- A tie of two entries with different values decides nothing. -/
theorem not_allDecided_pair {x : Expander} {a b : SourceEntry} (ha : Claimant x [a, b] key a)
    (hb : Claimant x [a, b] key b) (hv : a.value ≠ b.value)
    (hs : a.pattern.specificity = b.pattern.specificity) : ¬ AllDecided x [a, b] overrides := by
  intro hall
  obtain ⟨value, ⟨c, ⟨hc, -⟩, rfl⟩, -, hspec⟩ := hall key a ha
  simp only [List.mem_cons, List.not_mem_nil, or_false] at hc
  rcases hc with rfl | rfl
  · have := hspec c b ha hb rfl (Ne.symm hv)
    omega
  · have := hspec c a hb ha rfl hv
    omega

/-- The other elements that pass a filter. -/
theorem of_mem_filter_split {α : Type} {p : α → Bool} {l xs ys : List α} {a c : α}
    (h : l.filter p = xs ++ a :: ys) (hc : c ∈ xs ++ ys) : p c = true := by
  have hmem : c ∈ l.filter p := by
    rw [h]
    rcases List.mem_append.1 hc with hc | hc
    · exact List.mem_append_left _ hc
    · exact List.mem_append_right _ (List.mem_cons_of_mem _ hc)
  exact (List.mem_filter.1 hmem).2

/--
Where all differing claimants are declared, a key that is not decided gets different values in some two
orders of the entries.
-/
theorem exists_perm_ne (hx : AllExpand (expanderOf h entries) entries)
    (hd : Declared (expanderOf h entries) entries overrides) {a : SourceEntry}
    (ha : Claimant (expanderOf h entries) entries key a)
    (hno : ¬ ∃ value, Decided (expanderOf h entries) entries overrides key value) :
    ∃ entries', entries.Perm entries' ∧
      outcome h entries overrides ≠ outcome h entries' overrides := by
  obtain ⟨m, hm, hmax⟩ := exists_most_specific ha
  have hthird : ∃ a b, Claimant (expanderOf h entries) entries key a ∧
      Claimant (expanderOf h entries) entries key b ∧ a.value = m.value ∧ b.value ≠ m.value ∧
      a.pattern.specificity ≤ b.pattern.specificity := by
    refine Classical.byContradiction fun hnone => hno ⟨m.value, ⟨m, hm, rfl⟩, hd key, ?_⟩
    intro a b ha hb hav hbv
    refine Classical.byContradiction fun hle => hnone ⟨a, b, ha, hb, hav, hbv, by omega⟩
  obtain ⟨a', b, ha', hb, hav, hbv, hs⟩ := hthird
  -- one order ends with the most specific entry
  obtain ⟨before, after, hsplit⟩ := List.append_of_mem hm.1
  have h₁ : entries.Perm (before ++ after ++ [m]) := by
    rw [hsplit]
    exact List.perm_middle.trans (List.perm_append_singleton m _).symm
  -- another one has all entries of its value first, and after them the one that they cannot ward off
  obtain ⟨same, same', hsame⟩ := List.append_of_mem (List.mem_filter (p := (·.value = m.value)).2
    ⟨ha'.1, by simpa using hav⟩)
  obtain ⟨others, others', hothers⟩ := List.append_of_mem (List.mem_filter
    (p := fun c => !decide (c.value = m.value)).2 ⟨hb.1, by simpa using hbv⟩)
  have h₂ : entries.Perm (a' :: (same ++ same') ++ b :: (others ++ others')) := by
    refine (List.filter_append_perm (·.value = m.value) entries).symm.trans ?_
    rw [hsame, hothers]
    exact List.perm_middle.append List.perm_middle
  have hvalue {c : SourceEntry} (hc : c ∈ same ++ same') : c.value = a'.value := by
    rw [hav]
    simpa using of_mem_filter_split hsame hc
  have hvalue' {c : SourceEntry} (hc : c ∈ others ++ others') : c.value ≠ a'.value := by
    rw [hav]
    simpa using of_mem_filter_split hothers hc
  have hclaim₁ := claimant_congr (alike_perm h h₁) h₁
  have hyield {c : SourceEntry} (hc : Claimant (expanderOf h entries) entries key c)
      {es : List SourceEntry} (hp : entries.Perm es) : (expanderOf h es).Yields c.pattern key :=
    ((claimant_congr (alike_perm h hp) hp key c).1 hc).2
  have hne := outcome_ne (hd.perm h₁) ((allExpand_congr (alike_perm h h₁) h₁).1 hx) (h₁.symm.trans h₂)
    ((hclaim₁ key m).1 hm)
    (fun hi hc => value_of_last (hyield hm h₁) (fun c hcm hy => hmax c ((hclaim₁ key c).2
      ⟨List.mem_append_left _ hcm, hy⟩)) hi hc)
    (fun hi hc => hav ▸ value_of_first (hyield ha' h₂) (fun _ => hvalue) (hyield hb h₂) (hav ▸ hbv) hs
      (fun _ => hvalue') hi hc)
  by_cases he : outcome h entries overrides = outcome h (before ++ after ++ [m]) overrides
  · exact ⟨_, h₂, he ▸ hne⟩
  · exact ⟨_, h₁, he⟩

/-- Where some differing claimants are not declared, there is an order in which the expansion fails. -/
theorem exists_perm_none (hno : ¬ Declared (expanderOf h entries) entries overrides) :
    ∃ entries', entries.Perm entries' ∧ outcome h entries' overrides = none := by
  simp only [Declared, Classical.not_forall] at hno
  obtain ⟨key, a, b, ha, hb, hv, hno⟩ := hno
  obtain ⟨before, after, hsplit⟩ := List.append_of_mem ha.1
  have hmem : b ∈ before ++ after := by
    have hb := hb.1
    rw [hsplit, List.mem_append, List.mem_cons] at hb
    rcases hb with hb | rfl | hb
    · exact List.mem_append_left _ hb
    · exact absurd rfl hv
    · exact List.mem_append_right _ hb
  obtain ⟨others, others', hothers⟩ := List.append_of_mem hmem
  have hp : entries.Perm (a :: b :: (others ++ others')) := by
    rw [hsplit]
    refine List.perm_middle.trans (List.Perm.cons a ?_)
    rw [hothers]
    exact List.perm_middle
  refine ⟨_, hp, outcome_eq_none_iff.2 fun _ => Challenged.congr (alike_perm h hp) ?_⟩
  exact challenged_of_first ha.2 hb.2 hv (Bool.eq_false_iff.2 hno)

/-- Entries have one outcome in all orders just if all their keys are decided, or they are doomed. -/
theorem outcome_perm_iff : (∀ entries', entries.Perm entries' →
      outcome h entries' overrides = outcome h entries overrides) ↔
    OrderFree (expanderOf h entries) entries overrides := by
  constructor
  · intro hsame hx
    refine Classical.or_iff_not_imp_right.2 fun hdoomed => ?_
    simp only [Doomed, Classical.not_forall] at hdoomed
    obtain ⟨entries', hp, hno⟩ := hdoomed
    -- there is an order that succeeds, and so all of them do
    have hsome : outcome h entries overrides ≠ none := by
      rw [← hsame entries' hp]
      intro hnone
      have hx' := (allExpand_congr (alike_perm h hp) hp).1 hx
      exact hno ((outcome_eq_none_iff.1 hnone hx').congr (alike_perm h hp).symm)
    have hd : Declared (expanderOf h entries) entries overrides := by
      refine Classical.not_not.1 fun hno => ?_
      obtain ⟨entries'', hp', hnone⟩ := exists_perm_none hno
      exact hsome ((hsame entries'' hp').symm.trans hnone)
    intro key a ha
    refine Classical.not_not.1 fun hundecided => ?_
    obtain ⟨entries'', hp', hne⟩ := exists_perm_ne hx hd ha hundecided
    exact hne (hsame entries'' hp').symm
  · exact fun hfree entries' hp => (outcome_perm (fun _ => rfl) hp hfree).symm

end

end ConfigCompiler.Expansion
