/-
The state at start-up.

`loadNodes` enters the records of the file one after another, so a later record
replaces an earlier one of the same id, while the slots of the earlier one stay
if the later one opens none.  Where the ids are distinct (`DistinctIds`) each
record is found as it was read:

* `exists_record` — for every file, each node is that of a record;
* `getElem?_loadNodes`, `slot?_loadNodes`, `mem_slots_loadNodes` — for distinct
  ids, the two tables entry by entry;
* `slotsAgree_iff` — the two tables agree exactly when an id that a record opens is
  opened by its last record.
-/
import SmartParking.State

open StdMap TextStream

namespace SmartParking

variable {D : Type}

/-- No two records of the nodes file have the same id. -/
def DistinctIds (D : Type) [StreamDouble D] (file : Text) : Prop :=
  ((nodeRecords file : List (NodeRecord D)).map NodeRecord.id).Nodup

/-- A record that opens slots: not a ghost, with a positive capacity. -/
def NodeRecord.Opens (r : NodeRecord D) : Prop := r.node.ghost = false ∧ 0 < r.cap

instance (r : NodeRecord D) : Decidable r.Opens :=
  inferInstanceAs (Decidable (r.node.ghost = false ∧ 0 < r.cap))

theorem loadRecord_slots (t : Map ℤ (Node D) × Slots) (r : NodeRecord D) :
    (r.Opens → (loadRecord t r).2 = openSlots t.2 r.id r.cap) ∧
      (¬ r.Opens → (loadRecord t r).2 = t.2) := by
  rw [loadRecord, NodeRecord.Opens]
  constructor
  · rintro ⟨hg, hc⟩
    simp [hg, hc]
  · intro h
    simp only [ite_eq_right_iff, Bool.and_eq_true, Bool.not_eq_true', decide_eq_true_eq]
    exact fun hc => absurd hc h

section fold
variable {rs : List (NodeRecord D)}

/-- The tables after the given records. -/
def loadAll (rs : List (NodeRecord D)) : Map ℤ (Node D) × Slots := rs.foldl loadRecord (∅, ∅)

theorem loadAll_snoc (rs : List (NodeRecord D)) (r : NodeRecord D) :
    loadAll (rs ++ [r]) = loadRecord (loadAll rs) r := by
  rw [loadAll, List.foldl_append]
  rfl

theorem getElem?_loadAll_snoc (rs : List (NodeRecord D)) (r : NodeRecord D) (k : ℤ) :
    (loadAll (rs ++ [r])).1[k]? = if k = r.id then some r.node else (loadAll rs).1[k]? := by
  rw [loadAll_snoc, loadRecord, getElem?_insert_eq]

theorem exists_record_loadAll {k : ℤ} {n : Node D} (h : (loadAll rs).1[k]? = some n) :
    ∃ r ∈ rs, r.id = k ∧ r.node = n := by
  induction rs using List.reverseRecOn with
  | nil => simp [loadAll] at h
  | append_singleton rs r ih =>
    rw [getElem?_loadAll_snoc] at h
    by_cases hk : k = r.id
    · rw [if_pos hk, Option.some_inj] at h
      exact ⟨r, by simp, hk.symm, h⟩
    · rw [if_neg hk] at h
      obtain ⟨r', hr', h'⟩ := ih h
      exact ⟨r', by simp [hr'], h'⟩

theorem mem_slots_loadAll (k : ℤ) : k ∈ (loadAll rs).2 ↔ ∃ r ∈ rs, r.id = k ∧ r.Opens := by
  induction rs using List.reverseRecOn with
  | nil => simp [loadAll]
  | append_singleton rs r ih =>
    obtain ⟨hopen, hclosed⟩ := loadRecord_slots (loadAll rs) r
    rw [loadAll_snoc]
    by_cases hr : r.Opens
    · rw [hopen hr, mem_openSlots, ih]
      constructor
      · rintro (rfl | ⟨r', hr', h⟩)
        · exact ⟨r, by simp, rfl, hr⟩
        · exact ⟨r', by simp [hr'], h⟩
      · rintro ⟨r', hr', hid, ho⟩
        rcases List.mem_append.mp hr' with hr' | hr'
        · exact .inr ⟨r', hr', hid, ho⟩
        · rw [List.mem_singleton] at hr'
          exact .inl (hr' ▸ hid.symm)
    · -- the slots opened under this id by an earlier record stay
      rw [hclosed hr, ih]
      constructor
      · rintro ⟨r', hr', h⟩
        exact ⟨r', by simp [hr'], h⟩
      · rintro ⟨r', hr', hid, ho⟩
        rcases List.mem_append.mp hr' with hr' | hr'
        · exact ⟨r', hr', hid, ho⟩
        · rw [List.mem_singleton] at hr'
          exact absurd (hr' ▸ ho) hr

/-- Whatever the ids, the slots that are opened are positive. -/
theorem slot?_loadAll_pos {id h v : ℤ} (hv : slot? (loadAll rs).2 id h = some v) : 0 < v := by
  induction rs using List.reverseRecOn with
  | nil => simp [loadAll, slot?] at hv
  | append_singleton rs r ih =>
    obtain ⟨hopen, hclosed⟩ := loadRecord_slots (loadAll rs) r
    rw [loadAll_snoc] at hv
    by_cases ho : r.Opens
    · rw [hopen ho, slot?_openSlots] at hv
      split at hv
      · rw [Option.some_inj] at hv
        exact hv ▸ ho.2
      · exact ih hv
    · rw [hclosed ho] at hv
      exact ih hv

/-- For distinct ids every record is found as it was read. -/
theorem getElem?_loadAll (hnd : (rs.map NodeRecord.id).Nodup) {r : NodeRecord D} (hr : r ∈ rs) :
    (loadAll rs).1[r.id]? = some r.node := by
  induction rs using List.reverseRecOn with
  | nil => simp at hr
  | append_singleton rs r' ih =>
    rw [List.map_append, List.nodup_append] at hnd
    obtain ⟨hnd', _, hne⟩ := hnd
    rw [getElem?_loadAll_snoc]
    rcases List.mem_append.mp hr with hr | hr
    · rw [if_neg (hne r.id (List.mem_map_of_mem hr) r'.id (by simp))]
      exact ih hnd' hr
    · rw [List.mem_singleton] at hr
      rw [hr, if_pos rfl]

/-- The slots of a record, for distinct ids. -/
theorem slot?_loadAll (hnd : (rs.map NodeRecord.id).Nodup) {r : NodeRecord D} (hr : r ∈ rs)
    (h : ℤ) :
    slot? (loadAll rs).2 r.id h =
      if r.node.ghost = false ∧ 0 < r.cap ∧ 0 ≤ h ∧ h < 24 then some r.cap else none := by
  induction rs using List.reverseRecOn with
  | nil => simp at hr
  | append_singleton rs r' ih =>
    rw [List.map_append, List.nodup_append] at hnd
    obtain ⟨hnd', _, hne⟩ := hnd
    obtain ⟨hopen, hclosed⟩ := loadRecord_slots (loadAll rs) r'
    rw [loadAll_snoc]
    rcases List.mem_append.mp hr with hr | hr
    · have hid := hne r.id (List.mem_map_of_mem hr) r'.id (by simp)
      by_cases ho : r'.Opens
      · rw [hopen ho, slot?_openSlots, if_neg fun hc => hid hc.1]
        exact ih hnd' hr
      · rw [hclosed ho]
        exact ih hnd' hr
    · rw [List.mem_singleton] at hr
      subst hr
      -- no record before it has this id
      have hnone : slot? (loadAll rs).2 r.id h = none := by
        cases hs : slot? (loadAll rs).2 r.id h with
        | none => rfl
        | some v =>
          obtain ⟨r', hr', hid, _⟩ := (mem_slots_loadAll r.id).mp (mem_of_slot? hs)
          exact absurd hid (hne r'.id (List.mem_map_of_mem hr') r.id (by simp))
      by_cases ho : r.Opens
      · rw [hopen ho, slot?_openSlots, hnone]
        simp [ho.1, ho.2]
      · rw [hclosed ho, hnone, if_neg fun hc => ho ⟨hc.1, hc.2.1⟩]

/-- The node under an id is that of its last record. -/
theorem getElem?_loadAll_last (rs : List (NodeRecord D)) (k : ℤ) :
    (loadAll rs).1[k]? = ((rs.filter fun r => r.id = k).getLast?).map NodeRecord.node := by
  induction rs using List.reverseRecOn with
  | nil => simp [loadAll]
  | append_singleton rs r ih =>
    rw [getElem?_loadAll_snoc, List.filter_append, List.filter_singleton]
    by_cases hk : k = r.id
    · simp [hk]
    · have hk' : ¬ r.id = k := fun hc => hk hc.symm
      simp [hk, hk', ih]

/-- The slots under an id are those of the last record that opens any. -/
theorem slot?_loadAll_last (rs : List (NodeRecord D)) (id h : ℤ) :
    slot? (loadAll rs).2 id h =
      if 0 ≤ h ∧ h < 24 then
        ((rs.filter fun r => r.id = id ∧ r.Opens).getLast?).map NodeRecord.cap
      else none := by
  induction rs using List.reverseRecOn with
  | nil => simp [loadAll, slot?]
  | append_singleton rs r ih =>
    obtain ⟨hopen, hclosed⟩ := loadRecord_slots (loadAll rs) r
    rw [loadAll_snoc, List.filter_append, List.filter_singleton]
    by_cases ho : r.Opens
    · rw [hopen ho, slot?_openSlots, ih]
      by_cases hid : id = r.id
      · by_cases hh : 0 ≤ h ∧ h < 24 <;> simp [hid, ho, hh]
      · have hid' : ¬ r.id = id := fun hc => hid hc.symm
        simp [hid, hid']
    · rw [hclosed ho, ih]
      simp [ho]

/-- If the last record of an id opens slots, these are the slots under the id. -/
theorem slot?_loadAll_of_last {id : ℤ} {last : NodeRecord D}
    (hlast : (rs.filter fun r => r.id = id).getLast? = some last) (ho : last.Opens) {h : ℤ}
    (h0 : 0 ≤ h) (h24 : h < 24) : slot? (loadAll rs).2 id h = some last.cap := by
  obtain ⟨init, hinit⟩ := List.getLast?_eq_some_iff.mp hlast
  have hopening : (rs.filter fun r => r.id = id ∧ r.Opens).getLast? = some last := by
    have hfilter : (rs.filter fun r => r.id = id ∧ r.Opens) =
        (rs.filter fun r => r.id = id).filter fun r => r.Opens := by
      rw [List.filter_filter]
      refine List.filter_congr fun r _ => ?_
      rw [Bool.and_comm, Bool.decide_and]
    rw [hfilter, hinit, List.filter_append, List.filter_singleton]
    simp [ho]
  rw [slot?_loadAll_last, if_pos ⟨h0, h24⟩, hopening, Option.map_some]

end fold

/-! ### The tables of `loadNodes` -/

variable [StreamDouble D] {file : Text}

theorem exists_record {k : ℤ} {n : Node D} (h : (loadNodes file).1[k]? = some n) :
    ∃ r ∈ nodeRecords file, r.id = k ∧ r.node = n :=
  exists_record_loadAll h

theorem getElem?_loadNodes (hd : DistinctIds D file) {r : NodeRecord D}
    (hr : r ∈ nodeRecords file) : (loadNodes file).1[r.id]? = some r.node :=
  getElem?_loadAll hd hr

theorem mem_slots_loadNodes (k : ℤ) :
    k ∈ (loadNodes (D := D) file).2 ↔
      ∃ r ∈ (nodeRecords file : List (NodeRecord D)), r.id = k ∧ r.Opens :=
  mem_slots_loadAll k

theorem slot?_loadNodes (hd : DistinctIds D file) {r : NodeRecord D}
    (hr : r ∈ nodeRecords file) (h : ℤ) :
    slot? (loadNodes (D := D) file).2 r.id h =
      if r.node.ghost = false ∧ 0 < r.cap ∧ 0 ≤ h ∧ h < 24 then some r.cap else none :=
  slot?_loadAll hd hr h

theorem slotAt_loadNodes_nonneg (id h : ℤ) : 0 ≤ slotAt (loadNodes (D := D) file).2 id h := by
  rw [slotAt]
  cases hv : slot? (loadNodes (D := D) file).2 id h with
  | none => exact le_rfl
  | some v => exact (slot?_loadAll_pos hv).le

/-- The node loaded under an id carries that id. -/
theorem id_loadNodes {k : ℤ} {n : Node D} (h : (loadNodes file).1[k]? = some n) : n.id = k := by
  obtain ⟨r, _, hid, rfl⟩ := exists_record h
  exact hid

/-- The last record that the loader's scan of the fields reads under an id. -/
def lastRecord? (file : Text) (id : ℤ) : Option (NodeRecord D) :=
  ((nodeRecords file).filter fun r => r.id = id).getLast?

/-- The node loaded under an id is that of the last record read. -/
theorem getElem?_loadNodes_last (file : Text) (k : ℤ) :
    (loadNodes (D := D) file).1[k]? = (lastRecord? file k).map NodeRecord.node :=
  getElem?_loadAll_last _ k

/-! ### Nodes and slots -/

omit [StreamDouble D] in
/-- An id has slots exactly when its node is a place with a positive capacity, and
then every hour holds the capacity. -/
structure SlotsAgree (t : Map ℤ (Node D) × Slots) : Prop where
  keys : ∀ id, id ∈ t.2 ↔ ∃ n, t.1[id]? = some n ∧ n.ghost = false ∧ 0 < n.capacity
  hours : ∀ id n, id ∈ t.2 → t.1[id]? = some n →
    ∀ h, 0 ≤ h → h < 24 → slot? t.2 id h = some n.capacity

theorem exists_lastRecord {r : NodeRecord D} (hr : r ∈ nodeRecords file) :
    ∃ last : NodeRecord D, lastRecord? file r.id = some last := by
  rw [lastRecord?, ← Option.isSome_iff_exists, List.getLast?_isSome]
  exact List.ne_nil_of_mem (List.mem_filter.mpr ⟨hr, by simp⟩)

/-- **Nodes and slots agree** after loading exactly when the last record of every id
that opens slots in some record opens them too. -/
theorem slotsAgree_iff (file : Text) :
    SlotsAgree (loadNodes (D := D) file) ↔
      ∀ r ∈ (nodeRecords file : List (NodeRecord D)), r.Opens →
        ∀ last : NodeRecord D, lastRecord? file r.id = some last → last.Opens := by
  constructor
  · intro h r hr ho last hlast
    obtain ⟨n, hn, hplace⟩ := (h.keys r.id).mp
      ((mem_slots_loadNodes (D := D) r.id).mpr ⟨r, hr, rfl, ho⟩)
    rw [getElem?_loadNodes_last, hlast, Option.map_some, Option.some_inj] at hn
    rw [← hn] at hplace
    exact hplace
  · intro h
    have hlast : ∀ id, id ∈ (loadNodes (D := D) file).2 →
        ∃ last : NodeRecord D, lastRecord? file id = some last ∧ last.Opens := by
      intro id hid
      obtain ⟨r, hr, rfl, ho⟩ := (mem_slots_loadNodes (D := D) id).mp hid
      obtain ⟨last, hlast⟩ := exists_lastRecord hr
      exact ⟨last, hlast, h r hr ho last hlast⟩
    refine ⟨fun id => ⟨fun hid => ?_, ?_⟩, fun id n hid hn k h0 h24 => ?_⟩
    · obtain ⟨last, hlast, ho⟩ := hlast id hid
      refine ⟨last.node, ?_, ho⟩
      rw [getElem?_loadNodes_last, hlast, Option.map_some]
    · rintro ⟨n, hn, hplace⟩
      obtain ⟨r, hr, hid, rfl⟩ := exists_record hn
      exact (mem_slots_loadNodes (D := D) id).mpr ⟨r, hr, hid, hplace⟩
    · obtain ⟨last, hlast, ho⟩ := hlast id hid
      rw [getElem?_loadNodes_last, hlast, Option.map_some, Option.some_inj] at hn
      rw [← hn]
      exact slot?_loadAll_of_last hlast ho h0 h24

/-- A node that a second record closes keeps the slots that the first has opened. -/
theorem redefined_keeps_slots :
    ¬ SlotsAgree (loadNodes (D := ℤ) "1 A 5 0 0 0\n1 A 0 0 0 0\n".toList) := by
  intro h
  have hslots : (1 : ℤ) ∈ (loadNodes (D := ℤ) "1 A 5 0 0 0\n1 A 0 0 0 0\n".toList).2 := by decide
  obtain ⟨n, hn, _, hcap⟩ := (h.keys 1).mp hslots
  have hnode : (loadNodes (D := ℤ) "1 A 5 0 0 0\n1 A 0 0 0 0\n".toList).1[(1 : ℤ)]? = some
      { id := 1, name := ['A'], capacity := 0, x := 0, y := 0, ghost := false } := by decide
  rw [hnode, Option.some_inj] at hn
  rw [← hn] at hcap
  exact absurd hcap (by decide)

end SmartParking
