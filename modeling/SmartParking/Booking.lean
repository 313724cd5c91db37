/-
Availability, reservation, fallback and capacity changes.

The four operations the handlers run on the shared tables, with one
specification each:

* `availableAtTime_iff` — a free place in every hour of the window;
* `slot?_reserveSlot`, `mem_reserveSlot` — one place less in the hours of the
  window that still have one;
* `fallbackParking_cases` — the last available node of the route, or -1;
* `slot?_updateCapacity`, `mem_updateCapacity` — the places that remain when the
  capacity changes (`placesLeft`).
-/
import SmartParking.State

open StdMap TextStream

namespace SmartParking

variable {D : Type}

/-! ### The operations -/

def availableAtTime (sys : SmartParking D) (node startH endH : ℤ) : Bool :=
  if startH < 0 ∨ endH > 24 ∨ startH ≥ endH then false
  else if !isPlace sys.nodes node then false
  else
    match sys.slots[node]? with
    | none => false
    | some nodeSlots =>
      (hours startH endH).all fun h =>
        match nodeSlots[h]? with
        | none => false
        | some free => 0 < free

/-- The body of the loop of `reserveSlot`. -/
def takePlace (node : ℤ) (slots : Slots) (h : ℤ) : Slots :=
  match slot? slots node h with
  | none => slots
  | some free => if 0 < free then setSlot slots node h (free - 1) else slots

def reserveSlot (sys : SmartParking D) (node startH endH : ℤ) : SmartParking D :=
  if startH < 0 ∨ endH > 24 ∨ startH ≥ endH then sys
  else if !sys.slots.contains node then sys
  else { sys with slots := (hours startH endH).foldl (takePlace node) sys.slots }

/-- The scan from the end of the route; -1 if no node of it is available. -/
def fallbackParking (sys : SmartParking D) (realPath : List ℤ) (startH endH : ℤ) : ℤ :=
  (realPath.reverse.find? fun id =>
    isPlace sys.nodes id && sys.availableAtTime id startH endH).getD (-1)

/-- What an `int` holds of the result of a subtraction: an overflow wraps around. -/
def wrapInt (n : ℤ) : ℤ := n.bmod (2 ^ 32)

/-- The body of the loop of `updateCapacity`. -/
def adjustSlot (id oldCap newCap : ℤ) (slots : Slots) (h : ℤ) : Slots :=
  -- reading `slots[id][h]` may create it with 0; it is written at once
  let reserved := wrapInt (oldCap - slotAt slots id h)
  let reserved := max 0 reserved
  -- no overflow here, of two numbers that are not negative
  setSlot slots id h (max 0 (newCap - reserved))

def updateCapacity [StreamDouble D] (sys : SmartParking D) (id newCap : ℤ) : SmartParking D :=
  match sys.nodes[id]? with
  | none => sys
  | some n =>
    saveNodes
      { sys with
        nodes := sys.nodes.insert id { n with capacity := newCap }
        slots := (hours 0 24).foldl (adjustSlot id n.capacity newCap) sys.slots }

/-! ### Availability -/

/-- A window the operations accept. -/
def ValidWindow (startH endH : ℤ) : Prop := 0 ≤ startH ∧ endH ≤ 24 ∧ startH < endH

theorem validWindow_iff {startH endH : ℤ} :
    ValidWindow startH endH ↔ ¬ (startH < 0 ∨ endH > 24 ∨ startH ≥ endH) := by
  rw [ValidWindow]
  omega

/-- Every hour of the window has a free place in the table. -/
def FreeIn (slots : Slots) (node startH endH : ℤ) : Prop :=
  ∀ h, startH ≤ h → h < endH → ∃ free, slot? slots node h = some free ∧ 0 < free

theorem availableAtTime_iff {sys : SmartParking D} {node startH endH : ℤ} :
    sys.availableAtTime node startH endH = true ↔
      ValidWindow startH endH ∧ isPlace sys.nodes node = true ∧
        FreeIn sys.slots node startH endH := by
  rw [availableAtTime, validWindow_iff]
  by_cases hw : startH < 0 ∨ endH > 24 ∨ startH ≥ endH
  · simp [hw]
  · rw [if_neg hw]
    cases hp : isPlace sys.nodes node with
    | false => simp
    | true =>
      simp only [Bool.not_true, Bool.false_eq_true, if_false, hw, not_false_eq_true, true_and]
      cases hs : sys.slots[node]? with
      | none =>
        -- the window has at least one hour, and it has no entry
        simp only [Bool.false_eq_true, false_iff]
        intro hfree
        obtain ⟨free, hf, _⟩ := hfree startH le_rfl (by omega)
        simp [slot?, hs] at hf
      | some nodeSlots =>
        simp only [List.all_eq_true, mem_hours, FreeIn, slot?, hs, Option.bind_some, and_imp]
        refine forall_congr' fun h => forall_congr' fun _ => forall_congr' fun _ => ?_
        cases nodeSlots[h]? <;> simp

/-- Availability reads the ghost flags and the slots of the window only. -/
theorem availableAtTime_congr {sys sys' : SmartParking D} {node startH endH : ℤ}
    (hplace : isPlace sys'.nodes node = isPlace sys.nodes node)
    (hslots : ∀ h, startH ≤ h → h < endH → slot? sys'.slots node h = slot? sys.slots node h) :
    sys'.availableAtTime node startH endH = sys.availableAtTime node startH endH := by
  rw [Bool.eq_iff_iff, availableAtTime_iff, availableAtTime_iff, hplace]
  have hfree : FreeIn sys'.slots node startH endH ↔ FreeIn sys.slots node startH endH := by
    refine forall_congr' fun h => forall_congr' fun h1 => forall_congr' fun h2 => ?_
    rw [hslots h h1 h2]
  rw [hfree]

/-! ### Reservation -/

/-- An hour of the window with a free place loses one; any other entry stays. -/
def afterTake (old : Option ℤ) : Option ℤ :=
  old.map fun free => if 0 < free then free - 1 else free

theorem slot?_takePlace (node : ℤ) (slots : Slots) (h id' h' : ℤ) :
    slot? (takePlace node slots h) id' h' =
      if id' = node ∧ h' = h then afterTake (slot? slots node h) else slot? slots id' h' := by
  rw [takePlace]
  cases hs : slot? slots node h with
  | none =>
    by_cases hc : id' = node ∧ h' = h
    · obtain ⟨rfl, rfl⟩ := hc
      simp [hs, afterTake]
    · rw [if_neg hc]
  | some free =>
    by_cases hpos : 0 < free
    · simp only [if_pos hpos, slot?_setSlot, afterTake, Option.map_some]
    · simp only [if_neg hpos, afterTake, Option.map_some]
      by_cases hc : id' = node ∧ h' = h
      · obtain ⟨rfl, rfl⟩ := hc
        simp [hs]
      · rw [if_neg hc]

theorem mem_takePlace (node : ℤ) (slots : Slots) (h id' : ℤ) :
    id' ∈ takePlace node slots h ↔ id' ∈ slots := by
  rw [takePlace]
  cases hs : slot? slots node h with
  | none => exact Iff.rfl
  | some free =>
    have hnode := mem_of_slot? hs
    by_cases hpos : 0 < free
    · simp only [if_pos hpos, mem_setSlot]
      constructor
      · rintro (rfl | h')
        · exact hnode
        · exact h'
      · exact .inr
    · simp only [if_neg hpos]

theorem slot?_eq_none {slots : Slots} {id : ℤ} (hid : id ∉ slots) (h : ℤ) :
    slot? slots id h = none := by
  have hnone : slots[id]? = none := (getElem?_eq_none_iff slots id).mpr hid
  rw [slot?, hnone, Option.bind_none]

theorem reserveSlot_frame (sys : SmartParking D) (node startH endH : ℤ) :
    sys.reserveSlot node startH endH =
      { sys with slots := (sys.reserveSlot node startH endH).slots } := by
  rw [reserveSlot]
  split
  · rfl
  · split <;> rfl

@[simp] theorem nodes_reserveSlot (sys : SmartParking D) (node startH endH : ℤ) :
    (sys.reserveSlot node startH endH).nodes = sys.nodes := by
  rw [reserveSlot_frame]

@[simp] theorem visualPaths_reserveSlot (sys : SmartParking D) (node startH endH : ℤ) :
    (sys.reserveSlot node startH endH).visualPaths = sys.visualPaths := by
  rw [reserveSlot_frame]

/-- The slot table after a reservation. -/
theorem slot?_reserveSlot {sys : SmartParking D} {node startH endH : ℤ}
    (hw : ValidWindow startH endH) (id' h' : ℤ) :
    slot? (sys.reserveSlot node startH endH).slots id' h' =
      if id' = node ∧ startH ≤ h' ∧ h' < endH then afterTake (slot? sys.slots node h')
      else slot? sys.slots id' h' := by
  rw [reserveSlot, if_neg (validWindow_iff.mp hw)]
  cases hc : sys.slots.contains node with
  | false =>
    -- a node without slots: there is no entry to take a place from
    have hnot : node ∉ sys.slots := by
      rw [← Std.ExtTreeMap.contains_iff_mem, hc]
      simp
    simp only [Bool.not_false, if_true]
    by_cases hif : id' = node ∧ startH ≤ h' ∧ h' < endH
    · rw [if_pos hif, hif.1, slot?_eq_none hnot]
      rfl
    · rw [if_neg hif]
  | true =>
    have h := slot?_foldl_hours (slot?_takePlace node) (hours startH endH)
      (nodup_hours startH endH) sys.slots id' h'
    simpa only [Bool.not_true, Bool.false_eq_true, if_false, mem_hours] using h

/-- The free places after a reservation. -/
theorem slotAt_reserveSlot (sys : SmartParking D) (node : ℤ) {startH endH : ℤ}
    (hw : ValidWindow startH endH) (id h : ℤ) :
    slotAt (sys.reserveSlot node startH endH).slots id h =
      if (id = node ∧ startH ≤ h ∧ h < endH) ∧ 0 < slotAt sys.slots id h then
        slotAt sys.slots id h - 1
      else slotAt sys.slots id h := by
  rw [slotAt, slot?_reserveSlot hw, slotAt]
  by_cases hin : id = node ∧ startH ≤ h ∧ h < endH
  · rw [if_pos hin, hin.1, afterTake]
    cases slot? sys.slots node h with
    | none => simp
    | some free => simp [hin.2]
  · rw [if_neg hin, if_neg fun hc => hin hc.1]

theorem mem_reserveSlot (sys : SmartParking D) (node startH endH id' : ℤ) :
    id' ∈ (sys.reserveSlot node startH endH).slots ↔ id' ∈ sys.slots := by
  rw [reserveSlot]
  split
  · exact Iff.rfl
  · split
    · exact Iff.rfl
    · have h := mem_foldl_hours (f := takePlace node) node (P := False)
        (fun slots h id' => by rw [mem_takePlace, and_false, false_or]) (hours startH endH)
        sys.slots id'
      simpa using h

/-- A place taken in an hour of the window: the entry there goes down by one. -/
def TakesOne (slots slots' : Slots) (node startH endH : ℤ) : Prop :=
  ∀ h, startH ≤ h → h < endH →
    ∃ free, slot? slots node h = some free ∧ slot? slots' node h = some (free - 1)

/-- A reservation takes exactly one place from every hour of its window exactly
when every hour has one. -/
theorem takesOne_reserveSlot_iff {sys : SmartParking D} {node startH endH : ℤ}
    (hw : ValidWindow startH endH) :
    TakesOne sys.slots (sys.reserveSlot node startH endH).slots node startH endH ↔
      FreeIn sys.slots node startH endH := by
  refine forall_congr' fun h => forall_congr' fun h1 => forall_congr' fun h2 => ?_
  rw [slot?_reserveSlot hw, if_pos ⟨rfl, h1, h2⟩]
  constructor
  · rintro ⟨free, hf, htake⟩
    refine ⟨free, hf, ?_⟩
    by_contra hpos
    rw [hf, afterTake, Option.map_some, if_neg hpos, Option.some_inj] at htake
    omega
  · rintro ⟨free, hf, hpos⟩
    refine ⟨free, hf, ?_⟩
    rw [hf, afterTake, Option.map_some, if_pos hpos]

/-! ### Fallback -/

/-- The scan finds the last available node of the route: the nodes after it are
unavailable.  -1 stands for none. -/
theorem fallbackParking_cases (sys : SmartParking D) (realPath : List ℤ) (startH endH : ℤ) :
    (sys.fallbackParking realPath startH endH = -1 ∧
      ∀ id ∈ realPath, sys.availableAtTime id startH endH = false) ∨
    ∃ pre p post, realPath = pre ++ p :: post ∧
      sys.fallbackParking realPath startH endH = p ∧
      sys.availableAtTime p startH endH = true ∧
      ∀ id ∈ post, sys.availableAtTime id startH endH = false := by
  -- `availableAtTime` tests for ghosts once more
  have hpred : ∀ id, (isPlace sys.nodes id && sys.availableAtTime id startH endH) =
      sys.availableAtTime id startH endH := by
    intro id
    cases h : sys.availableAtTime id startH endH with
    | false => rw [Bool.and_false]
    | true => rw [(availableAtTime_iff.mp h).2.1, Bool.and_true]
  rw [fallbackParking]
  simp only [hpred]
  cases hf : realPath.reverse.find? fun id => sys.availableAtTime id startH endH with
  | none =>
    refine .inl ⟨rfl, fun id hid => ?_⟩
    have := List.find?_eq_none.mp hf id (List.mem_reverse.mpr hid)
    simpa using this
  | some p =>
    obtain ⟨hp, post, pre, hrev, hpost⟩ := List.find?_eq_some_iff_append.mp hf
    refine .inr ⟨pre.reverse, p, post.reverse, ?_, rfl, hp, fun id hid => ?_⟩
    · rw [← List.reverse_reverse realPath, hrev]
      simp
    · simpa using hpost id (List.mem_reverse.mp hid)

/-- The scan begins at the destination. -/
theorem fallbackParking_of_last {sys : SmartParking D} {path : List ℤ} {dest startH endH : ℤ}
    (hlast : path.getLast? = some dest)
    (havail : sys.availableAtTime dest startH endH = true) :
    sys.fallbackParking path startH endH = dest := by
  obtain ⟨pre, rfl⟩ := List.getLast?_eq_some_iff.mp hlast
  have hplace := (availableAtTime_iff.mp havail).2.1
  simp [fallbackParking, hplace, havail]

/-! ### Capacity changes -/

theorem wrapInt_of_isInt {n : ℤ} (h : IsInt n) : wrapInt n = n := by
  obtain ⟨hmin, hmax⟩ := h
  simp only [intMin, intMax] at hmin hmax
  exact Int.bmod_eq_of_le (by norm_num; omega) (by norm_num; omega)

/-- The free places of an hour after a capacity change. -/
def placesLeft (oldCap newCap free : ℤ) : ℤ := max 0 (newCap - max 0 (wrapInt (oldCap - free)))

/-- The places taken are counted right if their number is an `int`. -/
theorem placesLeft_eq {oldCap free : ℤ} (h : IsInt (oldCap - free)) (newCap : ℤ) :
    placesLeft oldCap newCap free = max 0 (newCap - max 0 (oldCap - free)) := by
  rw [placesLeft, wrapInt_of_isInt h]

/-- At least none are left and at most all. -/
theorem placesLeft_bounds {newCap : ℤ} (hcap : 0 ≤ newCap) (oldCap free : ℤ) :
    0 ≤ placesLeft oldCap newCap free ∧ placesLeft oldCap newCap free ≤ newCap := by
  rw [placesLeft]
  omega

theorem slot?_adjustSlot (id oldCap newCap : ℤ) (slots : Slots) (h id' h' : ℤ) :
    slot? (adjustSlot id oldCap newCap slots h) id' h' =
      if id' = id ∧ h' = h then some (placesLeft oldCap newCap ((slot? slots id h).getD 0))
      else slot? slots id' h' := by
  rw [adjustSlot, slot?_setSlot]
  rfl

variable [StreamDouble D]

theorem updateCapacity_eq {sys : SmartParking D} {id newCap : ℤ} {n : Node D}
    (hn : sys.nodes[id]? = some n) :
    sys.updateCapacity id newCap = saveNodes
      { sys with
        nodes := sys.nodes.insert id { n with capacity := newCap }
        slots := (hours 0 24).foldl (adjustSlot id n.capacity newCap) sys.slots } := by
  rw [updateCapacity, hn]

theorem road_updateCapacity (sys : SmartParking D) (id newCap : ℤ) :
    (sys.updateCapacity id newCap).road = sys.road := by
  rw [updateCapacity]
  cases sys.nodes[id]? <;> rfl

theorem getElem?_nodes_updateCapacity {sys : SmartParking D} {id newCap : ℤ} {n : Node D}
    (hn : sys.nodes[id]? = some n) (id' : ℤ) :
    (sys.updateCapacity id newCap).nodes[id']? =
      if id' = id then some { n with capacity := newCap } else sys.nodes[id']? := by
  rw [updateCapacity_eq hn]
  exact getElem?_insert_eq _ _ _ _

/-- A capacity change adds and removes no node. -/
theorem mem_nodes_updateCapacity (sys : SmartParking D) (id newCap k : ℤ) :
    k ∈ (sys.updateCapacity id newCap).nodes ↔ k ∈ sys.nodes := by
  cases hn : sys.nodes[id]? with
  | none => rw [updateCapacity, hn]
  | some n =>
    rw [mem_iff_getElem?, mem_iff_getElem?, getElem?_nodes_updateCapacity hn]
    by_cases hk : k = id
    · rw [if_pos hk, hk, hn]
      simp
    · rw [if_neg hk]

/-- A capacity change turns no place into a ghost and no ghost into a place. -/
theorem isPlace_updateCapacity (sys : SmartParking D) (id newCap id' : ℤ) :
    isPlace (sys.updateCapacity id newCap).nodes id' = isPlace sys.nodes id' := by
  cases hn : sys.nodes[id]? with
  | none => rw [updateCapacity, hn]
  | some n =>
    rw [isPlace, isPlace, getElem?_nodes_updateCapacity hn]
    by_cases hid : id' = id
    · rw [if_pos hid, hid, hn]
    · rw [if_neg hid]

theorem slots_updateCapacity {sys : SmartParking D} {id newCap : ℤ} {n : Node D}
    (hn : sys.nodes[id]? = some n) :
    (sys.updateCapacity id newCap).slots =
      (hours 0 24).foldl (adjustSlot id n.capacity newCap) sys.slots := by
  rw [updateCapacity_eq hn]
  rfl

/-- The slot table after a capacity change. -/
theorem slot?_updateCapacity {sys : SmartParking D} {id newCap : ℤ} {n : Node D}
    (hn : sys.nodes[id]? = some n) (id' h' : ℤ) :
    slot? (sys.updateCapacity id newCap).slots id' h' =
      if id' = id ∧ 0 ≤ h' ∧ h' < 24 then
        some (placesLeft n.capacity newCap (slotAt sys.slots id h'))
      else slot? sys.slots id' h' := by
  have h := slot?_foldl_hours (g := fun old => some (placesLeft n.capacity newCap (old.getD 0)))
    (slot?_adjustSlot id n.capacity newCap) (hours 0 24) (nodup_hours 0 24) sys.slots id' h'
  rw [slots_updateCapacity hn, slotAt]
  simpa only [mem_hours] using h

theorem mem_updateCapacity {sys : SmartParking D} {id newCap : ℤ} {n : Node D}
    (hn : sys.nodes[id]? = some n) (id' : ℤ) :
    id' ∈ (sys.updateCapacity id newCap).slots ↔ id' = id ∨ id' ∈ sys.slots := by
  have h := mem_foldl_hours (f := adjustSlot id n.capacity newCap) id (P := True)
    (fun slots h id' => by rw [and_true, adjustSlot, mem_setSlot]) (hours 0 24) sys.slots id'
  have hne : hours 0 24 ≠ [] := by decide
  rw [slots_updateCapacity hn]
  simpa [hne] using h

end SmartParking
