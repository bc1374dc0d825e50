import ConfigCompiler.Proofs.Compilation.PathIndex
import ConfigCompiler.Proofs.Value.Search
import ConfigCompiler.View.Basic

/-!
# Lookup in a compilation

A compilation finds a key by its table of positions and what is below a path by its index; a result that has
entries is searched by halves. On entries in ascending order of their keys, each of these answers as a
scan of all entries does (`Compilation.lookups_agree`).
-/

namespace ConfigCompiler

namespace Key

instance : Std.OrientedOrd Key where
  eq_swap := Std.OrientedOrd.eq_swap (α := String)

instance : Std.LawfulEqOrd Key where
  compare_self {a} := Std.ReflOrd.compare_self (a := a.text)
  eq_of_compare h := congrArg Key.mk (Std.LawfulEqOrd.eq_of_compare h)

theorem compare_eq_lt {a b : Key} (h : a.text < b.text) : compare a b = .lt := by
  show String.compare a.text b.text = .lt
  rw [String.compare, compareOfLessAndEq, if_pos h]

end Key

namespace Compilation

/-- A slice with just the elements that have a property is what the property leaves of the list. -/
theorem take_drop_eq_filter {α : Type} {l : List α} {p : α → Bool} (first last : Nat)
    (h : ∀ i x, l[i]? = some x → (p x = true ↔ first ≤ i ∧ i < last)) :
    (l.drop first).take (last - first) = l.filter p := by
  induction l generalizing first last with
  | nil => simp
  | cons x l ih =>
    have hx : p x = true ↔ first ≤ 0 ∧ 0 < last := h 0 x rfl
    have hl (i : Nat) (y : α) (hy : l[i]? = some y) : p y = true ↔ first ≤ i + 1 ∧ i + 1 < last :=
      h (i + 1) y hy
    cases first with
    | zero =>
      cases last with
      | zero =>
        -- nothing has the property
        have hp : ¬ p x = true := by simp [hx]
        rw [List.filter_cons_of_neg hp, ← ih 0 0]
        · simp
        · intro i y hy
          simp [hl i y hy]
      | succ last =>
        have hp : p x = true := by simp [hx]
        rw [List.filter_cons_of_pos hp, ← ih 0 last]
        · simp
        · intro i y hy
          simp [hl i y hy]
    | succ first =>
      have hp : ¬ p x = true := by simp [hx]
      rw [List.filter_cons_of_neg hp, ← ih first (last - 1)]
      · rw [List.drop_succ_cons]
        congr 1
        omega
      · intro i y hy
        rw [hl i y hy]
        omega

/-! ## The table of positions -/

theorem getElem?_positionsOf {es : List (Key × Interned)} (hn : (es.map Prod.fst).Nodup)
    (position : Nat) (positions : Std.HashMap Key Nat) (key : Key) :
    (positionsOf position es positions)[key]? =
      ((es.findIdx? fun e => e.1 == key).map (position + ·)).or positions[key]? := by
  induction es generalizing position positions with
  | nil => rfl
  | cons e es ih =>
    rw [List.map_cons, List.nodup_cons] at hn
    rw [positionsOf, ih hn.2, Std.HashMap.getElem?_insert, List.findIdx?_cons]
    split
    · rename_i hkey
      -- the key does not come again, so nothing is written over its position
      have hnone : (es.findIdx? fun f => f.1 == key) = none := by
        refine List.findIdx?_eq_none_iff.2 fun f hf => ?_
        refine beq_eq_false_iff_ne.2 fun hfk => hn.1 ?_
        rw [beq_iff_eq.1 hkey, ← hfk]
        exact List.mem_map_of_mem hf
      rw [hnone]
      rfl
    · rw [Option.map_map]
      congr 2
      funext i
      simp only [Function.comp_apply]
      omega

variable {es : List (Key × Interned)}

theorem nodup_keys (hs : es.Pairwise fun e f => e.1.text < f.1.text) : (es.map Prod.fst).Nodup := by
  refine List.pairwise_map.2 (hs.imp fun {e f} hlt heq => ?_)
  rw [heq] at hlt
  exact String.lt_irrefl _ hlt

/-- A key is compared by its text. -/
theorem beq_mk (k : Key) (s : String) : (k == ⟨s⟩) = (k.text == s) := by
  cases k
  simp only [Bool.beq_eq_decide_eq, Key.mk.injEq]

theorem get?_assemble (hs : es.Pairwise fun e f => e.1.text < f.1.text) (x : PathIndex)
    (source passSet : Digest) (stats : Store.Stats) (s : String) :
    (assemble es x source passSet stats).get? s = (es.find? fun e => e.1.text == s).map Prod.snd := by
  unfold get? assemble
  rw [getElem?_positionsOf (nodup_keys hs)]
  simp only [Nat.zero_add, Option.map_id', Std.HashMap.getElem?_empty, Option.or_none,
    List.getElem?_toArray, ← List.find?_eq_bind_findIdx?_getElem?, beq_mk]

theorem contains_assemble (hs : es.Pairwise fun e f => e.1.text < f.1.text) (x : PathIndex)
    (source passSet : Digest) (stats : Store.Stats) (s : String) :
    (assemble es x source passSet stats).contains s = (es.find? fun e => e.1.text == s).isSome := by
  unfold contains assemble
  rw [Std.HashMap.contains_eq_isSome_getElem?, getElem?_positionsOf (nodup_keys hs)]
  simp [beq_mk, List.isSome_find?]

/-! ## Search by halves -/

theorem entry?_eq_scan (hs : es.Pairwise fun e f => e.1.text < f.1.text) (s : String) :
    Search.entry? es.toArray ⟨s⟩ = (es.find? fun e => e.1.text == s).map Prod.snd := by
  rw [Search.entry?_eq_find? (hs.imp Key.compare_eq_lt)]
  simp only [beq_mk]

theorem scan_eq_some_iff (hs : es.Pairwise fun e f => e.1.text < f.1.text) {s : String} {n : Interned} :
    (es.find? fun e => e.1.text == s).map Prod.snd = some n ↔ (⟨s⟩, n) ∈ es := by
  constructor
  · intro h
    obtain ⟨⟨k, m⟩, he, rfl⟩ := Option.map_eq_some_iff.1 h
    have hk := List.find?_some he
    rw [beq_iff_eq] at hk
    subst hk
    exact List.mem_of_find?_eq_some he
  · intro h
    rw [← entry?_eq_scan hs]
    exact Search.entry?_eq_some (hs.imp Key.compare_eq_lt) h

/-! ## What is below a path -/

theorem under_assemble (hs : es.Pairwise fun e f => e.1.text < f.1.text) (source passSet : Digest)
    (stats : Store.Stats) (s : String) :
    (assemble es (.build (es.map Prod.fst)) source passSet stats).under s =
      es.filter fun e => decide (e.1.IsBelow s) := by
  have hcovers := PathIndex.covers_build (es.map Prod.fst) s
  unfold under assemble
  cases hspan : (PathIndex.build (es.map Prod.fst)).span? s with
  | none =>
    refine (List.filter_eq_nil_iff.2 fun e he => ?_).symm
    rw [decide_eq_true_iff]
    exact hcovers.none_below hspan e.1 (List.mem_map_of_mem he)
  | some span =>
    have h := hcovers.isSpan hspan
    have hlast : span.2 ≤ es.toArray.size := by
      have hlen := h.last_le_length
      rwa [List.length_map] at hlen
    show (if span.1 ≤ span.2 ∧ span.2 ≤ es.toArray.size then
      (es.toArray.extract span.1 span.2).toList else []) = _
    rw [if_pos ⟨h.first_le_last, hlast⟩, Array.toList_extract, List.extract_eq_take_drop]
    refine take_drop_eq_filter _ _ fun i e he => ?_
    rw [decide_eq_true_iff]
    refine h.isBelow_iff (List.pairwise_map.2 hs) ?_
    rw [List.getElem?_map, he]
    rfl

section
variable {c : Compilation} {p : Params} {s : String} (hp : p.get? "prefix" = some (.str s))
include hp

theorem requireStr_eq : p.requireStr "prefix" = .ok s := by
  unfold Params.requireStr Params.str?
  rw [hp]
  rfl

theorem scope_eq : View.scope c p = .ok (c.under s) := by
  unfold View.scope Params.str?
  rw [hp]
  rfl

theorem below_materialize : View.below.materialize c p = .ok (.entries (c.under s)) := by
  unfold View.below
  simp only [requireStr_eq hp]
  rfl

theorem keys_materialize : View.keys.materialize c p = .ok (.keys ((c.under s).map Prod.fst)) := by
  unfold View.keys
  simp only [scope_eq hp]
  rfl

theorem count_materialize : View.count.materialize c p = .ok (.count (c.under s).length) := by
  unfold View.count
  simp only [scope_eq hp]
  rfl

end

/-! ## Lookup and scan -/

/-- Every lookup in a compilation of entries in ascending order answers as a scan of the entries does: of a
key there is the entry with this key, and below a path there are, in order, the entries whose keys
begin with the path and a dot. -/
theorem lookups_agree (hs : es.Pairwise fun e f => e.1.text < f.1.text) (source passSet : Digest)
    (stats : Store.Stats) (s : String) :
    let c := assemble es (.build (es.map Prod.fst)) source passSet stats
    let found := es.find? fun e => e.1.text == s
    let below := es.filter fun e => decide (e.1.IsBelow s)
    (c.get? s = found.map Prod.snd ∧ ∀ n, c.get? s = some n ↔ (⟨s⟩, n) ∈ es) ∧
    (c.contains s = found.isSome ∧ (c.contains s = true ↔ ∃ n, (⟨s⟩, n) ∈ es)) ∧
    (∀ p, ∃ r, View.all.materialize c p = .ok r ∧ r.get? s = found.map Prod.snd) ∧
    c.under s = below ∧
    below = es.filter (fun e => e.1.text != s && e.1.isAtOrBelow s) ∧
    ∀ p : Params, p.get? "prefix" = some (.str s) →
      View.below.materialize c p = .ok (.entries below) ∧
      View.keys.materialize c p = .ok (.keys (below.map Prod.fst)) ∧
      View.count.materialize c p = .ok (.count below.length) := by
  intro c found below
  have hget : c.get? s = found.map Prod.snd := get?_assemble hs ..
  have hcontains : c.contains s = found.isSome := contains_assemble hs ..
  have hunder : c.under s = below := under_assemble hs ..
  have hfound (n : Interned) : found.map Prod.snd = some n ↔ (⟨s⟩, n) ∈ es := scan_eq_some_iff hs
  refine ⟨⟨hget, fun n => hget ▸ hfound n⟩, ⟨hcontains, ?_⟩, ?_, hunder, ?_, ?_⟩
  · rw [hcontains, ← Option.isSome_map (f := Prod.snd), Option.isSome_iff_exists]
    exact exists_congr hfound
  · intro p
    exact ⟨.entries es, rfl, entry?_eq_scan hs s⟩
  · refine List.filter_congr fun e _ => ?_
    rw [Bool.eq_iff_iff, decide_eq_true_iff, Bool.and_eq_true, bne_iff_ne, Key.isAtOrBelow_iff]
    constructor
    · intro h
      exact ⟨h.ne, .inr h⟩
    · intro h
      exact h.2.resolve_left h.1
  · intro p hp
    rw [below_materialize hp, keys_materialize hp, count_materialize hp, hunder]
    exact ⟨rfl, rfl, rfl⟩

/-- Keys that go on after `a` with a character below the dot, with a dot, and with one above it. -/
def neighbours : List (Key × Interned) :=
  ["a", "a b", "a-b.c", "a.b", "a.b-c", "a.b.c", "ab"].map fun s =>
    (⟨s⟩, .node 0 (Value.null.digest .disabled) .null)

theorem lookups_agree_neighbours :
    let d := Value.null.digest .disabled
    let p := Params.empty.set "prefix" (.str "a")
    (neighbours.Pairwise fun e f => e.1.text < f.1.text) ∧ p.get? "prefix" = some (.str "a") ∧
    View.keys.materialize
        (assemble neighbours (.build (neighbours.map Prod.fst)) d d ⟨0, 0, 0, 0, 0, 0⟩) p =
      .ok (.keys [⟨"a.b"⟩, ⟨"a.b-c"⟩, ⟨"a.b.c"⟩]) := by
  intro d p
  have hs : neighbours.Pairwise fun e f => e.1.text < f.1.text := by decide
  have hp : p.get? "prefix" = some (.str "a") := by
    simp [p, Params.empty, Params.set, Params.get?, Entries.insert, Entries.sorted, Entries.get?,
      Value.canonical]
  refine ⟨hs, hp, ?_⟩
  obtain ⟨-, -, -, -, -, h⟩ := lookups_agree hs d d ⟨0, 0, 0, 0, 0, 0⟩ "a"
  rw [(h p hp).2.1]
  rfl

end Compilation

end ConfigCompiler
