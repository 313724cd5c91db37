/-
`std::map` over the extensional tree map.

A `std::map<K,V>` is an ordered finite map: two maps with the same entries are
equal, iteration visits the keys in increasing order, and `m[k]` creates a
missing entry.  `Std.ExtTreeMap` gives the first two; this file adds the last
(`bracket`) together with the lookup lemmas the clients use:

* `getElem?_insert_eq`, `getD_insert_eq` — one-point updates, stated with `=`;
* `getElem?_touchAll` — what a loop of such accesses leaves behind;
* `getElem?_foldl_insert` — inserting the entries of a map one after another,
  each changed by a function, gives the changed map;
* `sum_map_getD_le` — a sum over looked-up keys is bounded by the one over all
  entries.
-/
import Mathlib

open Std

namespace StdMap

/-- `std::map<K,V>` with the default ordering of the keys. -/
abbrev Map (K V : Type) [Ord K] : Type := ExtTreeMap K V compare

instance lawfulEqOrd_lex {α β : Type} [Ord α] [Ord β] [LawfulEqOrd α] [LawfulEqOrd β] :
    LawfulEqOrd (α ×ₗ β) where
  compare_self {a} := by
    rw [Prod.Lex.compare_def]
    simp [compareLex, compareOn]
  eq_of_compare {a b} h := by
    have h' : compare (ofLex a).1 (ofLex b).1 = .eq ∧ compare (ofLex a).2 (ofLex b).2 = .eq := by
      rw [Prod.Lex.compare_def] at h
      simpa [compareLex, compareOn, Ordering.then_eq_eq] using h
    obtain ⟨h1, h2⟩ := h'
    exact ofLex.injective
      (Prod.ext (LawfulEqCmp.eq_of_compare h1) (LawfulEqCmp.eq_of_compare h2))

section lookup
variable {K V : Type} [Ord K] [TransOrd K]

theorem getD_eq (m : Map K V) (k : K) (d : V) : m.getD k d = m[k]?.getD d :=
  ExtTreeMap.getD_eq_getD_getElem?

theorem mem_iff_getElem? (m : Map K V) (k : K) : k ∈ m ↔ ∃ v, m[k]? = some v := by
  rw [ExtTreeMap.mem_iff_isSome_getElem?, Option.isSome_iff_exists]

theorem mem_of_getElem? {m : Map K V} {k : K} {v : V} (h : m[k]? = some v) : k ∈ m :=
  (mem_iff_getElem? m k).mpr ⟨v, h⟩

variable [LawfulEqOrd K]

theorem getElem?_insert_eq [DecidableEq K] (m : Map K V) (k k' : K) (v : V) :
    (m.insert k v)[k']? = if k' = k then some v else m[k']? := by
  rw [ExtTreeMap.getElem?_insert]
  by_cases h : k' = k
  · rw [if_pos h, if_pos (LawfulEqCmp.compare_eq_iff_eq.mpr h.symm)]
  · rw [if_neg h, if_neg fun hc => h (LawfulEqCmp.compare_eq_iff_eq.mp hc).symm]

theorem getD_insert_eq [DecidableEq K] (m : Map K V) (k k' : K) (v d : V) :
    (m.insert k v).getD k' d = if k' = k then v else m.getD k' d := by
  rw [getD_eq, getD_eq, getElem?_insert_eq]
  by_cases h : k' = k
  · rw [if_pos h, if_pos h, Option.getD_some]
  · rw [if_neg h, if_neg h]

theorem mem_insert_eq (m : Map K V) (k k' : K) (v : V) :
    k' ∈ m.insert k v ↔ k' = k ∨ k' ∈ m := by
  rw [ExtTreeMap.mem_insert, LawfulEqCmp.compare_eq_iff_eq, eq_comm]

/-! ### `operator[]` -/

variable [Inhabited V]

/-- `m[k]`: the value found and the map afterwards, in which a missing `k` has
been created with a value-initialised entry. -/
def bracket (m : Map K V) (k : K) : V × Map K V :=
  (m.getD k default, m.insertIfNew k default)

theorem getElem?_bracket [DecidableEq K] (m : Map K V) (k k' : K) :
    (bracket m k).2[k']? = if k' = k ∧ k ∉ m then some default else m[k']? := by
  have h : compare k k' = .eq ↔ k' = k := by
    rw [LawfulEqCmp.compare_eq_iff_eq, eq_comm]
  rw [bracket, ExtTreeMap.getElem?_insertIfNew]
  simp only [h]

theorem mem_bracket (m : Map K V) (k k' : K) : k' ∈ (bracket m k).2 ↔ k' = k ∨ k' ∈ m := by
  rw [bracket, ExtTreeMap.mem_insertIfNew, LawfulEqCmp.compare_eq_iff_eq, eq_comm]

/-- The map after `m[k]` for each of the keys in turn. -/
def touchAll (m : Map K V) (ks : List K) : Map K V := ks.foldl (fun m k => (bracket m k).2) m

/-- Touching creates the missing keys and changes no other entry. -/
theorem getElem?_touchAll [DecidableEq K] (m : Map K V) (ks : List K) (k : K) :
    (touchAll m ks)[k]? = if k ∈ ks ∧ k ∉ m then some default else m[k]? := by
  induction ks generalizing m with
  | nil =>
    rw [if_neg fun hc => List.not_mem_nil hc.1]
    rfl
  | cons a ks ih =>
    have hcons : touchAll m (a :: ks) = touchAll (bracket m a).2 ks := rfl
    rw [hcons, ih, getElem?_bracket]
    simp only [mem_bracket]
    -- only the first access to a missing key creates it
    by_cases hk : k ∈ m
    · rw [if_neg fun hc => hc.2 (.inr hk), if_neg fun hc => hc.2 (hc.1 ▸ hk),
        if_neg fun hc => hc.2 hk]
    · by_cases ha : k = a
      · rw [if_neg fun hc => hc.2 (.inl ha), if_pos ⟨ha, ha ▸ hk⟩, if_pos ⟨by simp [ha], hk⟩]
      · by_cases hks : k ∈ ks
        · rw [if_pos ⟨hks, not_or.mpr ⟨ha, hk⟩⟩, if_pos ⟨List.mem_cons_of_mem _ hks, hk⟩]
        · rw [if_neg fun hc => hks hc.1, if_neg fun hc => ha hc.1,
            if_neg fun hc => hc.1 |> List.mem_cons.mp |>.elim ha hks]

theorem touchAll_of_getElem? {m : Map K V} {k : K} {v : V} (h : m[k]? = some v) (ks : List K) :
    (touchAll m ks)[k]? = some v := by
  classical
  rw [getElem?_touchAll, if_neg fun hc => hc.2 (mem_of_getElem? h)]
  exact h

/-- What `operator[]` finds is not changed by it. -/
theorem getD_bracket (m : Map K V) (k k' : K) :
    (bracket m k).2.getD k' default = m.getD k' default := by
  classical
  rw [getD_eq, getD_eq, getElem?_bracket]
  split
  · rename_i hk
    rw [hk.1, (getElem?_eq_none_iff m k).mpr hk.2]
    rfl
  · rfl

theorem getD_touchAll (m : Map K V) (ks : List K) (k : K) :
    (touchAll m ks).getD k default = m.getD k default := by
  induction ks generalizing m with
  | nil => rfl
  | cons a ks ih => exact (ih (bracket m a).2).trans (getD_bracket m a k)

/-- Touching keys that are there changes nothing. -/
theorem touchAll_of_mem {m : Map K V} {ks : List K} (h : ∀ k ∈ ks, k ∈ m) : touchAll m ks = m := by
  classical
  refine ExtTreeMap.ext_getElem? fun k => ?_
  rw [getElem?_touchAll, if_neg fun hc => hc.2 (h k hc.1)]

omit [LawfulEqOrd K] in
theorem touchAll_append (m : Map K V) (ks ks' : List K) :
    touchAll m (ks ++ ks') = touchAll (touchAll m ks) ks' := List.foldl_append

theorem mem_touchAll (m : Map K V) (ks : List K) (k : K) :
    k ∈ touchAll m ks ↔ k ∈ ks ∨ k ∈ m := by
  classical
  rw [mem_iff_getElem?, getElem?_touchAll]
  by_cases hk : k ∈ m
  · rw [if_neg fun hc => hc.2 hk, ← mem_iff_getElem?]
    exact ⟨fun h => .inr h, fun _ => hk⟩
  · by_cases hks : k ∈ ks
    · rw [if_pos ⟨hks, hk⟩]
      exact ⟨fun _ => .inl hks, fun _ => ⟨default, rfl⟩⟩
    · rw [if_neg fun hc => hks hc.1, ← mem_iff_getElem?]
      exact ⟨fun h => .inr h, fun h => h.resolve_left hks⟩

end lookup

/-! ### Iteration -/

/-- Inserting the entries of a map in iteration order, each changed by `g`. -/
theorem getElem?_foldl_insert {K V W : Type} [Ord K] [TransOrd K] [LawfulEqOrd K] (m : Map K V)
    (g : V → W) (k : K) :
    (m.toList.foldl (fun (acc : Map K W) e => acc.insert e.1 (g e.2)) ∅)[k]? = m[k]?.map g := by
  classical
  have hkeys : (m.toList.map fun e => (e.1, g e.2)).map Prod.fst = m.keys := by
    rw [List.map_map]
    exact ExtTreeMap.map_fst_toList_eq_keys
  have hlist : m.toList.foldl (fun (acc : Map K W) e => acc.insert e.1 (g e.2)) ∅ =
      ExtTreeMap.ofList (m.toList.map fun e => (e.1, g e.2)) := by
    rw [ExtTreeMap.ofList_eq_foldl, List.foldl_map]
  rw [hlist]
  -- inserting in any order gives the map of the list, whose keys are distinct
  cases h : m[k]? with
  | none =>
    refine ExtTreeMap.getElem?_ofList_of_contains_eq_false ?_
    rw [hkeys, ExtTreeMap.contains_keys]
    exact Bool.eq_false_iff.mpr fun hc =>
      (getElem?_eq_none_iff m k).mp h (ExtTreeMap.mem_iff_contains.mpr hc)
  | some v =>
    refine ExtTreeMap.getElem?_ofList_of_mem (LawfulEqCmp.compare_eq_iff_eq.mpr rfl)
      (List.pairwise_map.mpr ExtTreeMap.distinct_keys_toList) ?_
    exact List.mem_map.mpr ⟨(k, v), ExtTreeMap.mem_toList_iff_getElem?_eq_some.mpr h, rfl⟩

/-- Looking up distinct keys counts no entry twice. -/
theorem sum_map_getD_le {K V M : Type} [Ord K] [TransOrd K] [LawfulEqOrd K] [AddCommMonoid M]
    [PartialOrder M] [IsOrderedAddMonoid M] (m : Map K V) {d : V} {f : V → M} (hd : f d = 0)
    (hf : ∀ p ∈ m.toList, 0 ≤ f p.2) {l : List K} (hl : l.Nodup) :
    (l.map fun k => f (m.getD k d)).sum ≤ (m.toList.map fun p => f p.2).sum := by
  classical
  have hget : ∀ p ∈ m.toList, f (m.getD p.1 d) = f p.2 := by
    intro p hp
    rw [getD_eq, ExtTreeMap.mem_toList_iff_getElem?_eq_some.mp hp, Option.getD_some]
  have hkeys : (m.toList.map fun p => f p.2) = m.keys.map fun k => f (m.getD k d) := by
    rw [← ExtTreeMap.map_fst_toList_eq_keys, List.map_map]
    exact List.map_congr_left fun p hp => (hget p hp).symm
  rw [hkeys, ← List.sum_toFinset _ hl, ← List.sum_toFinset _ ExtTreeMap.nodup_keys]
  -- keys that the map has not add nothing
  have hknown : ∀ k ∈ l.toFinset, f (m.getD k d) ≠ 0 → k ∈ m := by
    intro k _ hk
    by_contra hnot
    rw [getD_eq, (getElem?_eq_none_iff m k).mpr hnot, Option.getD_none] at hk
    exact hk hd
  rw [← Finset.sum_filter_of_ne hknown]
  refine Finset.sum_le_sum_of_subset_of_nonneg (fun k hk => ?_) fun k hk _ => ?_
  · rw [List.mem_toFinset, ExtTreeMap.mem_keys]
    exact (Finset.mem_filter.mp hk).2
  · rw [List.mem_toFinset, ← ExtTreeMap.map_fst_toList_eq_keys, List.mem_map] at hk
    obtain ⟨p, hp, rfl⟩ := hk
    rw [hget p hp]
    exact hf p hp

end StdMap
