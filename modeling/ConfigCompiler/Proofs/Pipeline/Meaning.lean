import ConfigCompiler.Proofs.Expansion.Segments
import ConfigCompiler.Proofs.Pipeline.Defaults
import ConfigCompiler.Proofs.Pipeline.Trace

/-!
# What a compilation means

A compilation binds just the keys that the patterns of the root stand for, each of them to the node of the
value of some root entry whose pattern stands for it (`Compilation.Traced.means`). So does every
compilation that the default passes make (`Run.defaults_mean`).
-/

namespace ConfigCompiler

open Store (Sound Represents Live)

/-- The root entry's pattern stands for a key, among the other keys of the root. -/
def Stands (hierarchy : Hierarchy) (root : Entries Value) (r : String × Value) (key : Key) : Prop :=
  r ∈ root ∧ ∃ keys, (Expander.ofKeys hierarchy (root.map (·.1))).expandText r.1 = .ok keys ∧ key ∈ keys

/-- A node stands for a value, is found by the value's digest, and is what the value is interned to. -/
structure Store.IsNodeOf (s : Store) (q : Quantization) (v : Value) (n : Interned) : Prop where
  digest : n.digest = v.digest q
  represents : Represents q v n
  lookup : s.lookup (v.digest q) = some n
  intern : ∃ s', s.intern v = (s', .ok n)

section
variable {q : Quantization} {given : Premises} {root : Entries Value} {entries : List SourceEntry}

/-! ## Root entries and source entries -/

/-- The source entries of root entries: the pattern of each key, and the digest of each value. -/
abbrev SourceEntries (q : Quantization) (root : Entries Value) (entries : List SourceEntry) : Prop :=
  List.Forall₂ (fun r a => SourceEntry.ofText r.1 (r.2.digest q) = .ok a) root entries

theorem SourceEntry.of_ofText {text : String} {d : Digest} {a : SourceEntry}
    (h : SourceEntry.ofText text d = .ok a) :
    a.pattern.text = text ∧ ∀ x : Expander, x.expandText text = x.expand a.pattern := by
  unfold SourceEntry.ofText at h
  cases hp : Pattern.parse text with
  | error e =>
    rw [hp] at h
    cases h
  | ok p =>
    rw [hp] at h
    cases h
    refine ⟨Pattern.text_of_parse hp, fun x => ?_⟩
    unfold Expander.expandText
    rw [hp]
    rfl

theorem SourceEntries.texts (h : SourceEntries q root entries) :
    entries.map (·.pattern.text) = root.map (·.1) := by
  induction h with
  | nil => rfl
  | cons ha _ ih => rw [List.map_cons, List.map_cons, (SourceEntry.of_ofText ha).1, ih]

theorem SourceEntries.expanderOf_eq (h : SourceEntries q root entries) (hierarchy : Hierarchy) :
    Expansion.expanderOf hierarchy entries = Expander.ofKeys hierarchy (root.map (·.1)) :=
  congrArg (Expander.ofKeys hierarchy) h.texts

/-- A source entry claims the keys that the pattern of its root entry stands for. -/
theorem SourceEntries.claims_iff (h : SourceEntries q root entries) {hierarchy : Hierarchy} {i : Nat}
    {r : String × Value} (hr : root[i]? = some r) {key : Key} :
    Expansion.Claims (Expansion.expanderOf hierarchy entries) entries i key ↔
      Stands hierarchy root r key := by
  obtain ⟨a, ha, hra⟩ := Store.exists_getElem? h hr
  unfold Expansion.Claims Stands
  rw [h.expanderOf_eq, (SourceEntry.of_ofText hra).2]
  constructor
  · rintro ⟨b, keys, hb, hkeys⟩
    cases ha.symm.trans hb
    exact ⟨List.mem_of_getElem? hr, keys, hkeys⟩
  · rintro ⟨-, keys, hkeys⟩
    exact ⟨a, keys, ha, hkeys⟩

theorem SourceEntries.exists_root (h : SourceEntries q root entries) {i : Nat} {a : SourceEntry}
    (ha : entries[i]? = some a) : ∃ r, root[i]? = some r := by
  obtain ⟨r, hr, -⟩ := Store.exists_getElem? h.flip ha
  exact ⟨r, hr⟩

/-- What is known of the expansions of a root. -/
structure RootExpansions (hierarchy : Hierarchy) (root : Entries Value) (xs : List Expansion) : Prop where
  sorted : xs.Pairwise fun a b => a.key.text < b.key.text
  /-- Each key is bound to a root entry whose pattern stands for it. -/
  origin : ∀ {x}, x ∈ xs → ∃ r, root[x.origin]? = some r ∧ Stands hierarchy root r x.key
  /-- No key that a pattern stands for is missing. -/
  complete : ∀ {r key}, Stands hierarchy root r key → ∃ x ∈ xs, x.key = key
  /-- Every pattern stands for some key. -/
  inhabited : ∀ {r}, r ∈ root → ∃ key, Stands hierarchy root r key

theorem exists_sourceEntries {xs : List Expansion} (h : Action.expansions q given root = .ok xs) :
    ∃ entries, SourceEntries q root entries ∧
      Expansion.ofEntries given.hierarchy entries given.overrides = .ok xs := by
  unfold Action.expansions at h
  cases hm : root.mapM fun e => SourceEntry.ofText e.1 (e.2.digest q) with
  | error e =>
    rw [hm] at h
    cases h
  | ok entries =>
    rw [hm] at h
    exact ⟨entries, mapM_eq_ok_iff.1 hm, h⟩

theorem rootExpansions_of_ok {xs : List Expansion} (h : Action.expansions q given root = .ok xs) :
    RootExpansions given.hierarchy root xs := by
  obtain ⟨entries, hentries, hof⟩ := exists_sourceEntries h
  obtain ⟨hall, hout⟩ := Expansion.isOutcome_of_ok hof
  exact
    { sorted := by
        refine (hout.sorted.and hout.nodup).imp fun {a b} hab => ?_
        refine String.not_le.1 fun hba => hab.2 ?_
        exact Key.eq_of_le_of_le hab.1 hba
      origin := by
        intro x hx
        have hclaims := (hout.mem_iff.1 hx).claims
        obtain ⟨a, -, ha, -⟩ := hclaims
        obtain ⟨r, hr⟩ := hentries.exists_root ha
        exact ⟨r, hr, (hentries.claims_iff hr).1 (hout.mem_iff.1 hx).claims⟩
      complete := by
        intro r key hr
        obtain ⟨i, hi⟩ := List.getElem?_of_mem hr.1
        have hclaims := (hentries.claims_iff hi).2 hr
        have hlt : i < entries.length := by
          rw [← hentries.length_eq]
          exact (List.getElem?_eq_some_iff.1 hi).1
        obtain ⟨j, hj⟩ := Expansion.exists_holds hclaims hlt
        exact ⟨⟨key, j⟩, hout.mem_iff.2 hj, rfl⟩
      inhabited := by
        intro r hr
        obtain ⟨i, hi⟩ := List.getElem?_of_mem hr
        obtain ⟨a, ha, hra⟩ := Store.exists_getElem? hentries hi
        obtain ⟨keys, hkeys⟩ := hall a (List.mem_of_getElem? ha)
        obtain ⟨key, hkey⟩ := List.exists_mem_of_ne_nil keys (Expander.expand_ne_nil hkeys)
        exact ⟨key, (hentries.claims_iff hi).1 ⟨a, keys, ha, hkeys, hkey⟩⟩ }

/-! ## Compilations -/

/-- What the entries of a compilation are, in terms of the root that was compiled. -/
structure Compilation.Means (q : Quantization) (hierarchy : Hierarchy) (root : Entries Value) (s : Store)
    (c : Compilation) : Prop where
  sorted : c.entries.toList.Pairwise fun e f => e.1.text < f.1.text
  /-- The keys are those that the patterns of the root stand for. -/
  mem_keys : ∀ {key}, key ∈ c.keys ↔ ∃ r, Stands hierarchy root r key
  /-- Every pattern stands for some key. -/
  inhabited : ∀ {r}, r ∈ root → ∃ key ∈ c.keys, Stands hierarchy root r key
  /-- A key is bound to the node of a value that is bound to a pattern for it. -/
  value : ∀ {key n}, (key, n) ∈ c.entries.toList →
    ∃ r, Stands hierarchy root r key ∧ s.IsNodeOf q r.2 n
  /-- Where all patterns for a key bind values of one digest, it is the node of each of these values. -/
  common : ∀ {key n d}, (key, n) ∈ c.entries.toList →
    (∀ r, Stands hierarchy root r key → r.2.digest q = d) →
    n.digest = d ∧ ∀ r, Stands hierarchy root r key →
      s.IsNodeOf q r.2 n ∨ Digest.Collides ((Value.map root).hashes q)

theorem Store.Represents.isNodeOf {B : List UInt8 → Prop} {s : Store} {handles : List Interned} {v : Value}
    {n : Interned} (hr : Represents q v n) (hs : Sound B q s handles) (hn : Live handles n) :
    s.IsNodeOf q v n where
  digest := hr.digest
  represents := hr
  lookup := hs.lookup_iff.2 ⟨hn, hr.digest⟩
  intern := (Store.intern_represented v hr hs hn).imp fun _ h => h.1

/-- The keys that expansions are bound under are those that the patterns of the root stand for. -/
theorem RootExpansions.mem_keys {xs : List Expansion} {es : List (Key × Interned)}
    (h : RootExpansions given.hierarchy root xs) (hbinds : List.Forall₂ (Binds q root) xs es) {key : Key} :
    key ∈ es.map Prod.fst ↔ ∃ r, Stands given.hierarchy root r key := by
  rw [keys_of_binds hbinds, List.mem_map]
  constructor
  · rintro ⟨x, hx, rfl⟩
    obtain ⟨r, -, hr⟩ := h.origin hx
    exact ⟨r, hr⟩
  · rintro ⟨r, hr⟩
    exact h.complete hr

/-- A key is bound to a node that stands for the value of a pattern for the key. -/
theorem RootExpansions.represents {xs : List Expansion} {es : List (Key × Interned)}
    (h : RootExpansions given.hierarchy root xs) (hbinds : List.Forall₂ (Binds q root) xs es) {key : Key}
    {n : Interned} (hn : (key, n) ∈ es) : ∃ r, Stands given.hierarchy root r key ∧ Represents q r.2 n := by
  obtain ⟨x, hx, hb⟩ := exists_of_forall₂_mem hbinds hn
  obtain ⟨r, hr, hrep⟩ := hb.value
  obtain ⟨r', hr', hstands⟩ := h.origin hx
  cases hr.symm.trans hr'
  have hkey : key = x.key := hb.key
  exact ⟨r, hkey ▸ hstands, hrep⟩

/-- A compilation that can be traced to a root means what the root says. -/
theorem Compilation.Traced.means {source : Value} {c : Compilation} {s : Store} {handles : List Interned}
    (hc : c.Traced q given source) (hp : source.Proper)
    (hs : Sound (fun _ => True) q s (c.nodes ++ handles)) :
    ∃ root, source = .map root ∧ c.Means q given.hierarchy root s := by
  obtain ⟨root, xs, es, stats, hexpanded, hbinds, rfl⟩ := hc
  have hroot := rootExpansions_of_ok hexpanded.expansions
  have hlive {key : Key} {n : Interned} (hn : (key, n) ∈ es) : Live (es.map Prod.snd ++ handles) n :=
    .held (List.mem_append_left handles (List.mem_map_of_mem hn))
  have hproper {r : String × Value} {key : Key} (hr : Stands given.hierarchy root r key) :
      r.2.Proper ∧ r.2.Hashed ((Value.map root).hashes q) q := by
    have hsource := hexpanded.source
    exact ⟨(hsource ▸ hp).entry hr.1, (Value.hashed_hashes q (.map root)).entry hr.1⟩
  refine ⟨root, hexpanded.source, ?_⟩
  exact
    { sorted := by
        have hsorted : (es.map Prod.fst).Pairwise fun a b => a.text < b.text := by
          rw [keys_of_binds hbinds]
          exact List.pairwise_map.2 hroot.sorted
        rw [List.pairwise_map] at hsorted
        exact hsorted
      mem_keys := hroot.mem_keys hbinds
      inhabited := by
        intro r hr
        obtain ⟨key, hkey⟩ := hroot.inhabited hr
        exact ⟨key, (hroot.mem_keys hbinds).2 ⟨r, hkey⟩, hkey⟩
      value := by
        intro key n hn
        obtain ⟨r, hr, hrep⟩ := hroot.represents hbinds hn
        exact ⟨r, hr, hrep.isNodeOf hs (hlive hn)⟩
      common := by
        intro key n d hn hd
        obtain ⟨r, hr, hrep⟩ := hroot.represents hbinds hn
        refine ⟨hrep.digest.trans (hd r hr), fun r' hr' => ?_⟩
        refine Classical.or_iff_not_imp_right.2 fun hB => ?_
        have hsame : Value.Same q r.2 r'.2 := Value.same_of_digest_eq hB (hproper hr).1 (hproper hr').1
          (hproper hr).2 (hproper hr').2 ((hd r hr).trans (hd r' hr').symm)
        exact (hrep.same (hproper hr).1 hsame).isNodeOf hs (hlive hn) }

/--
Where the default passes succeed, the compilation binds just the keys that the root entries stand for, in
strictly ascending order, and each of them to the node of the value of a root entry that stands for it.
-/
theorem Run.defaults_mean {H : Type} {source : Value} {s s' : Store} {handles : List Interned}
    {transitions : List Transition} {c : Compilation} (hp : source.Proper)
    (hs : Sound (fun _ => True) q s handles)
    (h : Run.all given s (Pass.builtins : List (Pass H)) source = (s', transitions, .ok c)) :
    ∃ root, source = .map root ∧ c.Means q given.hierarchy root s' := by
  obtain ⟨hs', hc⟩ := Run.all_traced isStep_builtins hp hs h
  exact hc.means hp hs'

end

/-- Of the two values for `east.x`, the second one is bound to it. -/
theorem Run.defaults_mean_tied : (Value.map tied).Proper ∧
    Sound (fun _ => True) .disabled (.empty .disabled) [] ∧
    ∃ s transitions c n, Run.all (tiedPremises tiedPair) (.empty .disabled)
        (Pass.builtins : List (Pass Empty)) (.map tied) = (s, transitions, .ok c) ∧
      c.entries.toList = [(⟨"east.x"⟩, n)] ∧ s.IsNodeOf .disabled (.int 2) n := by
  have hs : Sound (fun _ => True) .disabled (.empty .disabled) [] := ⟨[], Store.inv_empty _ _⟩
  obtain ⟨hedge, hzone⟩ := expand_edge_zone ((Value.int 1).digest .disabled)
    ((Value.int 2).digest .disabled)
  obtain ⟨c, hc, hentries, -⟩ := Run.defaults_singleton (H := Empty) not_collides_tied
    (valid_tied (tiedPremises tiedPair)) (by rfl) sourceEntries?_tied
    (Expansion.outcome_pair hedge hzone (by decide) (by decide))
  cases hrun : Run.all (tiedPremises tiedPair) (.empty .disabled)
    (Pass.builtins : List (Pass Empty)) (.map tied) with | mk s rest =>
  obtain ⟨transitions, result⟩ := rest
  have hresult : result = .ok c := (congrArg (fun r => r.2.2) hrun).symm.trans hc
  subst hresult
  obtain ⟨e, he⟩ := List.map_eq_singleton_iff.1 hentries
  obtain ⟨root, hroot, hmeans⟩ := Run.defaults_mean proper_tied hs hrun
  obtain ⟨key, n⟩ := e
  obtain ⟨rfl, hn⟩ := Prod.mk.inj he.2
  obtain ⟨r, hr, hnode⟩ := hmeans.value (he.1 ▸ List.mem_singleton_self _)
  refine ⟨proper_tied, hs, s, transitions, c, n, rfl, he.1, ?_⟩
  -- the node has the digest of the second value, so it is not that of the first one
  cases hroot
  have hmem : r ∈ tied := hr.1
  simp only [tied, List.mem_cons, List.not_mem_nil, or_false] at hmem
  rcases hmem with rfl | rfl
  · exact absurd (hnode.digest.symm.trans hn) int_digest_ne
  · exact hnode

end ConfigCompiler
