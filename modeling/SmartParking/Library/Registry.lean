/-
Tables of records with distinct keys, which only grow.

A `Registry key` is a list of records, in the order in which they came, no two
of which have the same key.  `enroll` adds a record unless its key is taken.

* `find?_eq_some_iff` — looking up the first match is membership, for a test
  that fixes the key;
* `enroll_of_taken`, `enroll_of_free` — a record whose key is taken is refused, any
  other is added at the end;
* `enrollAll_snoc` — enrolling one record after another, from the last.
-/
import Mathlib

/-- Records in the order of their arrival, with distinct keys. -/
structure Registry {ρ κ : Type} (key : ρ → κ) where
  records : List ρ
  distinct : (records.map key).Nodup

namespace Registry

variable {ρ κ : Type} [DecidableEq κ] {key : ρ → κ}

/-- The key belongs to a record. -/
def Taken (t : Registry key) (k : κ) : Prop := k ∈ t.records.map key

instance (t : Registry key) (k : κ) : Decidable (t.Taken k) :=
  inferInstanceAs (Decidable (k ∈ t.records.map key))

omit [DecidableEq κ] in
theorem taken_iff {t : Registry key} {k : κ} : t.Taken k ↔ ∃ r ∈ t.records, key r = k :=
  List.mem_map

/-- Add a record, unless its key is taken. -/
def enroll (t : Registry key) (r : ρ) : Bool × Registry key :=
  if h : t.Taken (key r) then (false, t)
  else (true,
    { records := t.records ++ [r]
      distinct := by
        rw [List.map_append, List.map_singleton, List.nodup_append]
        refine ⟨t.distinct, List.nodup_singleton _, ?_⟩
        rintro k hk k' hk' rfl
        rw [List.mem_singleton.mp hk'] at hk
        exact h hk })

theorem enroll_of_taken {t : Registry key} {r : ρ} (h : t.Taken (key r)) :
    t.enroll r = (false, t) := by
  rw [enroll, dif_pos h]

theorem enroll_of_free {t : Registry key} {r : ρ} (h : ¬ t.Taken (key r)) :
    (t.enroll r).1 = true ∧ (t.enroll r).2.records = t.records ++ [r] := by
  rw [enroll, dif_neg h]
  exact ⟨rfl, rfl⟩

omit [DecidableEq κ] in
/-- Records with one key are one record. -/
theorem eq_of_key_eq (t : Registry key) {r s : ρ} (hr : r ∈ t.records) (hs : s ∈ t.records)
    (h : key r = key s) : r = s :=
  List.inj_on_of_nodup_map t.distinct hr hs h

omit [DecidableEq κ] in
/-- The first match of a test that fixes the key is the only one. -/
theorem find?_eq_some_iff (t : Registry key) {p : ρ → Bool} {k : κ}
    (hp : ∀ r, p r = true → key r = k) {r : ρ} :
    t.records.find? p = some r ↔ r ∈ t.records ∧ p r = true := by
  constructor
  · intro h
    exact ⟨List.mem_of_find?_eq_some h, List.find?_some h⟩
  · rintro ⟨hr, hpr⟩
    obtain ⟨s, hs⟩ := Option.isSome_iff_exists.mp (List.find?_isSome.mpr ⟨r, hr, hpr⟩)
    have hkey : key s = key r := (hp s (List.find?_some hs)).trans (hp r hpr).symm
    rw [hs, t.eq_of_key_eq (List.mem_of_find?_eq_some hs) hr hkey]

/-- Enroll the records one after another. -/
def enrollAll (t : Registry key) (rs : List ρ) : Registry key :=
  rs.foldl (fun t r => (t.enroll r).2) t

theorem enrollAll_snoc (t : Registry key) (rs : List ρ) (r : ρ) :
    t.enrollAll (rs ++ [r]) = ((t.enrollAll rs).enroll r).2 := by
  rw [enrollAll, List.foldl_append]
  rfl

end Registry
