/-
The slot table over runs of requests served one at a time.

* `route_allOrNothing` — a `/route` request takes one place from every hour of
  its window and nothing else, or changes nothing;
* `slotShape_of_run` — the shape of the slot table in every reachable state, and
  no subtraction of `updateCapacity` leaves the `int` range;
* `accounted_iff` — the free places are the capacity less the places granted,
  throughout a run, exactly when no `/update` raises the capacity of a node that
  has more places granted than it has capacity.
-/
import SmartParking.Library.Runs
import SmartParking.Loading
import SmartParking.Server

open StdMap TextStream Runs

namespace SmartParking

variable {D : Type}

/-! ### All or nothing -/

/-- One place is taken in every hour of the window and nothing else changes. -/
structure Booked (slots slots' : Slots) (p startH endH : ℤ) : Prop where
  taken : ∀ h, startH ≤ h → h < endH →
    ∃ free, slot? slots p h = some free ∧ 0 < free ∧ slot? slots' p h = some (free - 1)
  others : ∀ id h, ¬ (id = p ∧ startH ≤ h ∧ h < endH) → slot? slots' id h = slot? slots id h
  keys : ∀ id, id ∈ slots' ↔ id ∈ slots

/-- The free places after a booking. -/
theorem Booked.slotAt_eq {slots slots' : Slots} {p startH endH : ℤ}
    (hb : Booked slots slots' p startH endH) (id h : ℤ) :
    slotAt slots' id h =
      slotAt slots id h - if id = p ∧ startH ≤ h ∧ h < endH then 1 else 0 := by
  rw [slotAt, slotAt]
  by_cases hin : id = p ∧ startH ≤ h ∧ h < endH
  · obtain ⟨rfl, h1, h2⟩ := hin
    obtain ⟨free, hfree, _, hfree'⟩ := hb.taken h h1 h2
    rw [if_pos ⟨rfl, h1, h2⟩, hfree, hfree', Option.getD_some, Option.getD_some]
  · rw [if_neg hin, hb.others id h hin, sub_zero]

/-- There was a free place in every hour booked. -/
theorem Booked.slotAt_pos {slots slots' : Slots} {p startH endH h : ℤ}
    (hb : Booked slots slots' p startH endH) (h1 : startH ≤ h) (h2 : h < endH) :
    0 < slotAt slots p h := by
  obtain ⟨free, hfree, hpos, _⟩ := hb.taken h h1 h2
  rw [slotAt, hfree, Option.getD_some]
  exact hpos

theorem booked_reserveSlot {sys : SmartParking D} {p startH endH : ℤ}
    (h : sys.availableAtTime p startH endH = true) :
    Booked sys.slots (sys.reserveSlot p startH endH).slots p startH endH := by
  obtain ⟨hw, _, hfree⟩ := availableAtTime_iff.mp h
  refine ⟨fun k h1 h2 => ?_, fun id k hout => ?_, mem_reserveSlot sys p startH endH⟩
  · obtain ⟨free, hf, hpos⟩ := hfree k h1 h2
    refine ⟨free, hf, hpos, ?_⟩
    rw [slot?_reserveSlot hw, if_pos ⟨rfl, h1, h2⟩, hf, afterTake, Option.map_some, if_pos hpos]
  · rw [slot?_reserveSlot hw, if_neg hout]

theorem Granted.booked [Zero D] {sys sys' : SmartParking D} {r : RouteRequest} {grant : Grant}
    {t : Trip} (h : Granted sys r sys' grant t) :
    Booked sys.slots sys'.slots grant.parkingNode grant.startH grant.endH := by
  rw [h.slots]
  exact booked_reserveSlot h.available

/-- **All or nothing.**  A granted request takes one place from every hour of the
window it asks for; a refused one leaves the whole state as it was. -/
theorem route_allOrNothing [Zero D] {sys sys' : SmartParking D} {r : RouteRequest}
    {reply : RouteReply D} (h : route sys r = .ok (sys', reply)) :
    (∀ grant body, reply = .success grant body → grant.Answers sys r ∧
        Booked sys.slots sys'.slots grant.parkingNode grant.startH grant.endH) ∧
      ((∀ grant body, reply ≠ .success grant body) → sys' = sys) := by
  rcases route_cases h with ⟨rfl, hno⟩ | ⟨grant, body, t, rfl, hg⟩
  · exact ⟨fun grant body heq => absurd heq (hno grant body), fun _ => rfl⟩
  · refine ⟨fun grant' body' heq => ?_, fun hno => absurd rfl (hno grant body)⟩
    obtain ⟨rfl, rfl⟩ := RouteReply.success.inj heq
    exact ⟨hg.answers, hg.booked⟩

/-- The grant in what `route` returns. -/
def outcome? : Except Halt (SmartParking D × RouteReply D) → Option Grant
  | .ok (_, .success grant _) => some grant
  | _ => none

theorem exists_success (result : Except Halt (SmartParking D × RouteReply D)) (p : Grant → Bool)
    (h : (outcome? result).any p = true) :
    ∃ sys' grant body, result = .ok (sys', .success grant body) ∧ p grant = true := by
  rw [outcome?.eq_def] at h
  split at h
  · exact ⟨_, _, _, rfl, by simpa using h⟩
  · simp at h

/-- A nodes file with one node, of two places. -/
def lotFile : Text := "1 A 2 0 0 0\n".toList

/-- The server started on that file, without roads. -/
def lot : SmartParking ℤ := start lotFile [] []

/-- Park at A at the default hours. -/
def parkAtA : RouteRequest := { s := some ['A'], e := some ['A'], sh := none, eh := none }

theorem route_allOrNothing_lot : ∃ sys' grant body,
    route lot parkAtA = .ok (sys', .success grant body) ∧ grant.parkingNode = 1 ∧
      grant.Answers lot parkAtA ∧
      Booked lot.slots sys'.slots grant.parkingNode grant.startH grant.endH := by
  obtain ⟨sys', grant, body, hroute, hparking⟩ := exists_success (route lot parkAtA)
    (fun grant => grant.parkingNode = 1) (by decide)
  exact ⟨sys', grant, body, hroute, by simpa using hparking,
    (route_allOrNothing hroute).1 grant body rfl⟩

/-! ### Events -/

/-- A request with its reply. -/
abbrev Event (D : Type) : Type := Request × Reply D

/-- The grant of an event, if it is one. -/
def grant? : Event D → Option Grant
  | (_, .route (.success grant _)) => some grant
  | _ => none

def Grant.covers (grant : Grant) (id h : ℤ) : Bool :=
  grant.parkingNode = id ∧ grant.startH ≤ h ∧ h < grant.endH

theorem Grant.covers_iff {grant : Grant} {id h : ℤ} :
    grant.covers id h = true ↔ grant.parkingNode = id ∧ grant.startH ≤ h ∧ h < grant.endH := by
  rw [Grant.covers, decide_eq_true_eq]

/-- The places granted at a node for an hour. -/
def granted (es : List (Event D)) (id h : ℤ) : ℕ :=
  (es.filterMap grant?).countP fun grant => grant.covers id h

theorem granted_snoc (es : List (Event D)) (e : Event D) (id h : ℤ) :
    granted (es ++ [e]) id h =
      granted es id h + match grant? e with
        | none => 0
        | some grant => if grant.covers id h then 1 else 0 := by
  rw [granted, granted, List.filterMap_append, List.countP_append]
  cases hg : grant? e with
  | none => simp [hg]
  | some grant => simp [hg, List.countP_singleton]

/-- **What one request can do.**  Nothing, grant a place, or change a capacity. -/
inductive Effect [StreamDouble D] (sys : SmartParking D) : Event D → SmartParking D → Prop
  | nothing {e : Event D} : grant? e = none →
      (∀ r id cap, e.1 = .update r → updateEnter sys r ≠ .inr (id, cap)) →
      (∀ id cap, e.2 ≠ .update (.success id cap)) → Effect sys e sys
  | grant {r : RouteRequest} {sys' : SmartParking D} {grant : Grant} {body : RouteBody D}
      {t : Trip} : Granted sys r sys' grant t →
      Effect sys (.route r, .route (.success grant body)) sys'
  | update {r : UpdateRequest} {id cap : ℤ} {n : Node D} :
      updateEnter sys r = .inr (id, cap) → sys.nodes[id]? = some n → n.ghost = false →
      0 ≤ cap → IsInt cap →
      Effect sys (.update r, .update (.success id cap)) (sys.updateCapacity id cap)

/-- An update that passes the checks is served. -/
theorem served_of_updateEnter [StreamDouble D] {sys : SmartParking D} {r : UpdateRequest}
    {id cap : ℤ} (h : updateEnter sys r = .inr (id, cap)) :
    Served handle sys (.update r, .update (.success id cap)) (sys.updateCapacity id cap) := by
  rw [Served, handle, update, h]

theorem route_of_served [StreamDouble D] {sys sys' : SmartParking D} {r : RouteRequest}
    {reply : Reply D} (h : Served handle sys (.route r, reply) sys') :
    ∃ routeReply, route sys r = .ok (sys', routeReply) ∧ reply = .route routeReply := by
  rw [Served] at h
  simp only [handle] at h
  cases hr : route sys r with
  | error halt =>
    rw [hr] at h
    exact absurd h (by simp [Except.map])
  | ok p =>
    rw [hr] at h
    simp only [Except.map, Except.ok.injEq, Prod.mk.injEq] at h
    obtain ⟨rfl, rfl⟩ := h
    exact ⟨p.2, rfl, rfl⟩

theorem effect_of_served [StreamDouble D] {sys sys' : SmartParking D} {e : Event D}
    (h : Served handle sys e sys') : Effect sys e sys' := by
  obtain ⟨request, reply⟩ := e
  cases request with
  | nodes =>
    simp only [Served, handle, Except.ok.injEq, Prod.mk.injEq] at h
    obtain ⟨rfl, rfl⟩ := h
    exact .nothing rfl (by simp) (by simp)
  | route r =>
    obtain ⟨routeReply, hr, rfl⟩ := route_of_served h
    rcases route_cases hr with ⟨rfl, hno⟩ | ⟨grant, body, t, rfl, hg⟩
    · refine .nothing ?_ (by simp) (by simp)
      cases routeReply with
      | threw e => rfl
      | error message => rfl
      | success grant body => exact absurd rfl (hno grant body)
    · exact .grant hg
  | update r =>
    simp only [Served, handle, Except.ok.injEq, Prod.mk.injEq] at h
    obtain ⟨rfl, rfl⟩ := h
    rw [update]
    rcases updateEnter_cases sys r with
      ⟨reply, hu, hno⟩ | ⟨id, cap, n, hu, hn, hghost, hcap, hint⟩
    · rw [hu]
      refine .nothing rfl ?_ ?_
      · rintro r' id cap hr'
        simp only [Request.update.injEq] at hr'
        rw [← hr', hu]
        simp
      · rintro id cap hreply
        simp only [Reply.update.injEq] at hreply
        exact hno id cap hreply
    · rw [hu]
      exact .update hu hn hghost hcap hint

/-! ### The nodes after one request -/

section effect
variable [StreamDouble D] {sys sys' : SmartParking D} {e : Event D}

/-- Nodes stay in the table and keep all but their capacity. -/
theorem Effect.node_kept (h : Effect sys e sys') {id : ℤ} {n : Node D}
    (hn : sys.nodes[id]? = some n) :
    ∃ cap, sys'.nodes[id]? = some { n with capacity := cap } := by
  cases h with
  | nothing _ _ _ => exact ⟨n.capacity, hn⟩
  | grant hg => exact ⟨n.capacity, hg.node_kept hn⟩
  | @update _ uid cap n₀ _ hn₀ _ _ _ =>
    rw [getElem?_nodes_updateCapacity hn₀]
    by_cases hid : id = uid
    · subst hid
      rw [hn₀, Option.some_inj] at hn
      exact ⟨cap, by rw [if_pos rfl, hn]⟩
    · exact ⟨n.capacity, by rw [if_neg hid, hn]⟩

/-- Every capacity is an `int`. -/
def IntCapacities (nodes : Map ℤ (Node D)) : Prop :=
  ∀ (id : ℤ) (n : Node D), nodes[id]? = some n → IsInt n.capacity

theorem intCapacities_loadNodes (file : Text) : IntCapacities (loadNodes (D := D) file).1 := by
  intro id n hn
  obtain ⟨r, hr, rfl, rfl⟩ := exists_record hn
  exact (nodeRecords_fields hr).2.2

theorem IntCapacities.effect (hc : IntCapacities sys.nodes) (h : Effect sys e sys') :
    IntCapacities sys'.nodes := by
  intro id n' hn'
  cases h with
  | nothing _ _ _ => exact hc id n' hn'
  | grant hg =>
    rcases hg.node_cases hn' with hn | ⟨_, rfl⟩
    · exact hc id n' hn
    · -- created by drawing
      show IsInt 0
      decide
  | update _ hn _ _ hint =>
    rw [getElem?_nodes_updateCapacity hn] at hn'
    split at hn'
    · rw [Option.some_inj] at hn'
      rw [← hn']
      exact hint
    · exact hc id n' hn'

theorem intCapacities_of_run {nodesList adjacencyList transport : Text} {es : List (Event D)}
    (h : Run (Served handle) (start nodesList adjacencyList transport) es sys) :
    IntCapacities sys.nodes :=
  h.invariant (I := fun _ s => IntCapacities s.nodes) (intCapacities_loadNodes nodesList)
    fun _ _ _ _ _ hc hstep => hc.effect (effect_of_served hstep)

end effect

/-! ### The shape of the slot table -/

/-- The slot table fits the node table. -/
structure SlotShape (sys : SmartParking D) : Prop where
  place : ∀ id, id ∈ sys.slots → isPlace sys.nodes id = true
  hours : ∀ id, id ∈ sys.slots → ∀ h, (∃ v, slot? sys.slots id h = some v) ↔ 0 ≤ h ∧ h < 24
  bounds : ∀ id h v, slot? sys.slots id h = some v →
    ∃ n : Node D, sys.nodes[id]? = some n ∧ 0 ≤ v ∧ v ≤ n.capacity
  positive : ∀ (id : ℤ) (n : Node D), sys.nodes[id]? = some n → n.ghost = false →
    0 < n.capacity → id ∈ sys.slots

/-- A free place is a nonnegative number, 0 where there is no entry. -/
theorem SlotShape.slotAt_nonneg {sys : SmartParking D} (hs : SlotShape sys) (id h : ℤ) :
    0 ≤ slotAt sys.slots id h := by
  rw [slotAt]
  cases hv : slot? sys.slots id h with
  | none => exact le_rfl
  | some v => exact (hs.bounds id h v hv).choose_spec.2.1

theorem SlotShape.slotAt_le {sys : SmartParking D} (hs : SlotShape sys) {id : ℤ} {n : Node D}
    (hn : sys.nodes[id]? = some n) (h : ℤ) : slotAt sys.slots id h ≤ max 0 n.capacity := by
  rw [slotAt]
  cases hv : slot? sys.slots id h with
  | none => exact le_max_left 0 _
  | some v =>
    obtain ⟨n', hn', _, hle⟩ := hs.bounds id h v hv
    rw [hn, Option.some_inj] at hn'
    exact hn' ▸ le_max_of_le_right hle

/-- No place is free at a node that does not exist. -/
theorem SlotShape.slotAt_of_not_mem {sys : SmartParking D} (hs : SlotShape sys) {id : ℤ}
    (hid : id ∉ sys.nodes) (h : ℤ) : slotAt sys.slots id h = 0 := by
  have hslots : id ∉ sys.slots := fun hc => hid (mem_of_isPlace (hs.place id hc))
  rw [slotAt, slot?_eq_none hslots, Option.getD_none]

/-- The number of places taken is an `int` if no more are free than there are. -/
theorem isInt_sub_free {cap free : ℤ} (hcap : IsInt cap) (h0 : 0 ≤ free) (hle : free ≤ max 0 cap) :
    IsInt (cap - free) := by
  obtain ⟨hmin, hmax⟩ := hcap
  simp only [IsInt, intMin, intMax] at hmin hmax ⊢
  omega

theorem SlotShape.isInt_sub {sys : SmartParking D} (hs : SlotShape sys) {id : ℤ} {n : Node D}
    (hn : sys.nodes[id]? = some n) (hold : IsInt n.capacity) (h : ℤ) :
    IsInt (n.capacity - slotAt sys.slots id h) :=
  isInt_sub_free hold (hs.slotAt_nonneg id h) (hs.slotAt_le hn h)

/-- No subtraction of `updateCapacity` leaves the `int` range. -/
theorem SlotShape.update_isInt {sys : SmartParking D} (hs : SlotShape sys) {id cap h : ℤ}
    {n : Node D} (hn : sys.nodes[id]? = some n) (hold : IsInt n.capacity) (hcap : 0 ≤ cap)
    (hint : IsInt cap) :
    IsInt (n.capacity - slotAt sys.slots id h) ∧
      IsInt (cap - max 0 (n.capacity - slotAt sys.slots id h)) := by
  have htaken := hs.isInt_sub hn hold h
  refine ⟨htaken, ?_⟩
  obtain ⟨_, hmax⟩ := htaken
  obtain ⟨_, hcmax⟩ := hint
  simp only [IsInt, intMin, intMax] at hmax hcmax ⊢
  omega

section shape
variable [StreamDouble D] {sys sys' : SmartParking D}

theorem slotShape_start {nodesList : Text} (hd : DistinctIds D nodesList)
    (adjacencyList transport : Text) :
    SlotShape (start (D := D) nodesList adjacencyList transport) := by
  refine ⟨?_, ?_, ?_, ?_⟩
  · -- place
    intro id hid
    obtain ⟨r, hr, rfl, ho⟩ := (mem_slots_loadNodes id).mp hid
    exact isPlace_iff.mpr ⟨r.node, getElem?_loadNodes hd hr, ho.1⟩
  · -- hours
    intro id hid h
    obtain ⟨r, hr, rfl, ho⟩ := (mem_slots_loadNodes id).mp hid
    show (∃ v, slot? (loadNodes (D := D) nodesList).2 r.id h = some v) ↔ _
    rw [slot?_loadNodes hd hr]
    simp [ho.1, ho.2]
  · -- bounds
    intro id h v hv
    obtain ⟨r, hr, rfl, ho⟩ := (mem_slots_loadNodes id).mp (mem_of_slot? hv)
    refine ⟨r.node, getElem?_loadNodes hd hr, ?_⟩
    replace hv : slot? (loadNodes (D := D) nodesList).2 r.id h = some v := hv
    rw [slot?_loadNodes hd hr] at hv
    split at hv
    · rw [Option.some_inj] at hv
      subst hv
      exact ⟨ho.2.le, le_rfl⟩
    · simp at hv
  · -- positive
    intro id n hn hghost hpos
    obtain ⟨r, hr, rfl, rfl⟩ := exists_record hn
    exact (mem_slots_loadNodes r.id).mpr ⟨r, hr, rfl, hghost, hpos⟩

/-- Granting a place keeps the shape. -/
theorem SlotShape.grant (hs : SlotShape sys) {r : RouteRequest} {grant : Grant} {t : Trip}
    (hg : Granted sys r sys' grant t) : SlotShape sys' := by
  have hb := hg.booked
  refine ⟨?_, ?_, ?_, ?_⟩
  · -- place
    intro id hid
    rw [hg.nodes]
    exact isPlace_touchAll (hs.place id ((hb.keys id).mp hid)) _
  · -- hours
    intro id hid h
    rw [← hs.hours id ((hb.keys id).mp hid) h]
    by_cases hin : id = grant.parkingNode ∧ grant.startH ≤ h ∧ h < grant.endH
    · obtain ⟨rfl, h1, h2⟩ := hin
      obtain ⟨free, hfree, _, hfree'⟩ := hb.taken h h1 h2
      simp [hfree, hfree']
    · rw [hb.others id h hin]
  · -- bounds
    intro id h v hv
    by_cases hin : id = grant.parkingNode ∧ grant.startH ≤ h ∧ h < grant.endH
    · obtain ⟨rfl, h1, h2⟩ := hin
      obtain ⟨free, hfree, hpos, hfree'⟩ := hb.taken h h1 h2
      rw [hfree', Option.some_inj] at hv
      obtain ⟨n, hn, _, hle⟩ := hs.bounds _ _ _ hfree
      exact ⟨n, hg.node_kept hn, by omega, by omega⟩
    · rw [hb.others id h hin] at hv
      obtain ⟨n, hn, hb'⟩ := hs.bounds id h v hv
      exact ⟨n, hg.node_kept hn, hb'⟩
  · -- positive
    intro id n hn hghost hpos
    rcases hg.node_cases hn with hn | ⟨_, rfl⟩
    · exact (hb.keys id).mpr (hs.positive id n hn hghost hpos)
    · -- a node created by drawing has capacity 0
      exact absurd hpos (lt_irrefl 0)

/-- Changing a capacity keeps the shape. -/
theorem SlotShape.update (hs : SlotShape sys) {id cap : ℤ} {n : Node D}
    (hn : sys.nodes[id]? = some n) (hghost : n.ghost = false) (hcap : 0 ≤ cap) :
    SlotShape (sys.updateCapacity id cap) := by
  refine ⟨?_, ?_, ?_, ?_⟩
  · -- place
    intro id' hid'
    rw [isPlace_updateCapacity]
    rcases (mem_updateCapacity hn id').mp hid' with rfl | hid'
    · exact isPlace_iff.mpr ⟨n, hn, hghost⟩
    · exact hs.place id' hid'
  · -- hours
    intro id' hid' h
    rw [slot?_updateCapacity hn]
    by_cases hid : id' = id
    · -- all hours are written at this id, whether or not it had slots
      by_cases hh : 0 ≤ h ∧ h < 24
      · rw [if_pos ⟨hid, hh⟩]
        simpa using hh
      · rw [if_neg fun hc => hh hc.2]
        constructor
        · rintro ⟨v, hv⟩
          exact (hs.hours id' (mem_of_slot? hv) h).mp ⟨v, hv⟩
        · exact fun hc => absurd hc hh
    · rw [if_neg fun hc => hid hc.1]
      exact hs.hours id' (((mem_updateCapacity hn id').mp hid').resolve_left hid) h
  · -- bounds
    intro id' h v hv
    rw [getElem?_nodes_updateCapacity hn]
    rw [slot?_updateCapacity hn] at hv
    split at hv
    · rename_i hc
      rw [if_pos hc.1]
      rw [Option.some_inj] at hv
      rw [← hv]
      exact ⟨_, rfl, placesLeft_bounds hcap _ _⟩
    · -- an entry that is not written belongs to another node
      rename_i hc
      have hslot := hs.hours id' (mem_of_slot? hv) h
      have hid : id' ≠ id := fun heq => hc ⟨heq, hslot.mp ⟨v, hv⟩⟩
      rw [if_neg hid]
      exact hs.bounds id' h v hv
  · -- positive
    intro id' n' hn' hg hpos
    rw [getElem?_nodes_updateCapacity hn] at hn'
    rw [mem_updateCapacity hn]
    by_cases hid : id' = id
    · exact .inl hid
    · rw [if_neg hid] at hn'
      exact .inr (hs.positive id' n' hn' hg hpos)

theorem SlotShape.effect (hs : SlotShape sys) {e : Event D} (h : Effect sys e sys') :
    SlotShape sys' := by
  cases h with
  | nothing _ _ _ => exact hs
  | grant hg => exact hs.grant hg
  | update _ hn hghost hcap _ => exact hs.update hn hghost hcap

theorem slotShape_of_served_run {nodesList adjacencyList transport : Text}
    (hd : DistinctIds D nodesList) {es : List (Event D)}
    (h : Run (Served handle) (start nodesList adjacencyList transport) es sys) : SlotShape sys :=
  h.invariant (I := fun _ s => SlotShape s) (slotShape_start hd _ _)
    fun _ _ _ _ _ hs hstep => hs.effect (effect_of_served hstep)

/-- Round `h` of the loop of `updateCapacity` finds the entry of hour `h` as it was
when the loop began. -/
theorem slotAt_foldl_adjustSlot (slots : Slots) (id oldCap newCap h : ℤ) :
    slotAt ((hours 0 h).foldl (adjustSlot id oldCap newCap) slots) id h = slotAt slots id h := by
  have hnot : ¬ (id = id ∧ h ∈ hours 0 h) := fun hc => absurd (mem_hours.mp hc.2).2 (lt_irrefl h)
  rw [slotAt, slot?_foldl_hours
    (g := fun old => some (placesLeft oldCap newCap (old.getD 0)))
    (slot?_adjustSlot id oldCap newCap) (hours 0 h) (nodup_hours 0 h), if_neg hnot]
  rfl

/-- **The slot table in every reachable state**, and the arithmetic of a capacity
change there: each round of its loop stays in the `int` range. -/
theorem slotShape_of_run {nodesList adjacencyList transport : Text}
    (hd : DistinctIds D nodesList) {es : List (Event D)}
    (h : Run (Served handle) (start nodesList adjacencyList transport) es sys) :
    SlotShape sys ∧
      ∀ r id cap, updateEnter sys r = .inr (id, cap) →
        ∃ n, sys.nodes[id]? = some n ∧ ∀ h, 0 ≤ h → h < 24 →
          let slots := (hours 0 h).foldl (adjustSlot id n.capacity cap) sys.slots
          IsInt (n.capacity - slotAt slots id h) ∧
            IsInt (cap - max 0 (n.capacity - slotAt slots id h)) := by
  have hs := slotShape_of_served_run hd h
  refine ⟨hs, fun r id cap hu => ?_⟩
  obtain ⟨n, hn, _, hcap, hint⟩ := updateEnter_inr hu
  refine ⟨n, hn, fun k _ _ => ?_⟩
  dsimp only
  rw [slotAt_foldl_adjustSlot]
  exact hs.update_isInt hn (intCapacities_of_run h id n hn) hcap hint

end shape

def resizeA (cap : Text) : UpdateRequest := { idParam := some ['1'], capParam := some cap }

theorem distinctIds_lotFile : DistinctIds ℤ lotFile := by
  unfold DistinctIds
  decide

theorem slotShape_of_run_lot : ∃ es s, Run (Served handle) lot es s ∧ slotAt s.slots 1 10 = 4 ∧
    SlotShape s := by
  obtain ⟨es, s, hrun, htest⟩ := run_of_execThen handle lot
    [.route parkAtA, .update (resizeA ['5'])] (fun _ s => slotAt s.slots 1 10 = 4) (by decide)
  exact ⟨es, s, hrun, by simpa using htest, (slotShape_of_run distinctIds_lotFile hrun).1⟩

/-! ### The count of what has been granted -/

/-- At every place and hour, the free places are the capacity less the places
granted so far. -/
def Accounted (es : List (Event D)) (sys : SmartParking D) : Prop :=
  ∀ (id : ℤ) (n : Node D), sys.nodes[id]? = some n → n.ghost = false → ∀ h, 0 ≤ h → h < 24 →
    slotAt sys.slots id h = max 0 (n.capacity - granted es id h)

/-- A place is granted only where fewer have been granted than there are. -/
def WithinCapacity (es : List (Event D)) (sys : SmartParking D) (e : Event D) : Prop :=
  ∀ grant, grant? e = some grant → ∀ n : Node D, sys.nodes[grant.parkingNode]? = some n →
    ∀ h, grant.startH ≤ h → h < grant.endH → granted es grant.parkingNode h < n.capacity

/-- An `/update` about to be carried out finds no more places granted than the
node has, or asks for no more than it has. -/
def KeepsCount (es : List (Event D)) (sys : SmartParking D) (e : Event D) : Prop :=
  ∀ r id cap, e.1 = .update r → updateEnter sys r = .inr (id, cap) →
    ∀ n : Node D, sys.nodes[id]? = some n → ∀ h, 0 ≤ h → h < 24 →
      granted es id h ≤ max 0 n.capacity ∨ cap ≤ max 0 n.capacity

section count
variable [StreamDouble D] {sys sys' : SmartParking D} {es : List (Event D)} {e : Event D}

theorem accounted_start {nodesList : Text} (hd : DistinctIds D nodesList)
    (adjacencyList transport : Text) :
    Accounted [] (start (D := D) nodesList adjacencyList transport) := by
  intro id n hn hghost h h0 h24
  obtain ⟨r, hr, rfl, rfl⟩ := exists_record hn
  show slotAt (loadNodes (D := D) nodesList).2 r.id h = _
  have hcap : r.node.capacity = r.cap := rfl
  have hzero : granted ([] : List (Event D)) r.id h = 0 := rfl
  rw [slotAt, slot?_loadNodes hd hr, hcap, hzero]
  by_cases hpos : 0 < r.cap
  · rw [if_pos ⟨hghost, hpos, h0, h24⟩, Option.getD_some]
    push_cast
    omega
  · rw [if_neg fun hc => hpos hc.2.1, Option.getD_none]
    push_cast
    omega

theorem Accounted.grant (hs : SlotShape sys) (ha : Accounted es sys) {r : RouteRequest}
    {grant : Grant} {body : RouteBody D} {t : Trip} (hg : Granted sys r sys' grant t) :
    Accounted (es ++ [(.route r, .route (.success grant body))]) sys' := by
  intro id n hn hghost h h0 h24
  have hnew := hg.booked.slotAt_eq id h
  have hcount := granted_snoc es (.route r, .route (.success grant body)) id h
  simp only [grant?, Grant.covers_iff, eq_comm (a := grant.parkingNode)] at hcount
  rcases hg.node_cases hn with hn | ⟨hid, rfl⟩
  · have hold := ha id n hn hghost h h0 h24
    by_cases hin : id = grant.parkingNode ∧ grant.startH ≤ h ∧ h < grant.endH
    · -- one place less is free, one more is granted, and there was a free one
      have hpos := hg.booked.slotAt_pos hin.2.1 hin.2.2
      rw [← hin.1] at hpos
      rw [if_pos hin] at hnew hcount
      rw [hnew, hcount]
      push_cast
      omega
    · rw [if_neg hin] at hnew hcount
      rw [hnew, hcount]
      push_cast
      omega
  · -- a node created by drawing has no places, and none were granted there
    have hin : ¬ (id = grant.parkingNode ∧ grant.startH ≤ h ∧ h < grant.endH) := by
      rintro ⟨rfl, _⟩
      exact hid (mem_of_isPlace hg.place)
    rw [if_neg hin, hs.slotAt_of_not_mem hid h] at hnew
    rw [hnew]
    show (0 : ℤ) - 0 = max 0 (0 - _)
    omega

/-- A capacity change keeps the account exactly when it meets `KeepsCount`. -/
theorem Accounted.update_iff (hs : SlotShape sys) (hcaps : IntCapacities sys.nodes)
    (ha : Accounted es sys) {r : UpdateRequest} {id cap : ℤ} {n : Node D}
    (hu : updateEnter sys r = .inr (id, cap)) (hn : sys.nodes[id]? = some n)
    (hghost : n.ghost = false) (hcap : 0 ≤ cap) :
    Accounted (es ++ [(.update r, .update (.success id cap))]) (sys.updateCapacity id cap) ↔
      KeepsCount es sys (.update r, .update (.success id cap)) := by
  have hcount : ∀ id' h,
      granted (es ++ [((.update r, .update (.success id cap)) : Event D)]) id' h =
        granted es id' h := by
    intro id' h
    rw [granted_snoc]
    rfl
  -- the entry of an hour is right exactly when the condition holds for that hour
  have hhour : ∀ h, 0 ≤ h → h < 24 →
      (slotAt (sys.updateCapacity id cap).slots id h = max 0 (cap - granted es id h) ↔
        granted es id h ≤ max 0 n.capacity ∨ cap ≤ max 0 n.capacity) := by
    intro h h0 h24
    have hold := ha id n hn hghost h h0 h24
    rw [slotAt, slot?_updateCapacity hn, if_pos ⟨rfl, h0, h24⟩, Option.getD_some,
      placesLeft_eq (hs.isInt_sub hn (hcaps id n hn) h), hold]
    omega
  constructor
  · intro hacc r' id' cap' hr' hu' n' hn' h h0 h24
    simp only [Request.update.injEq] at hr'
    rw [← hr', hu, Sum.inr.injEq, Prod.mk.injEq] at hu'
    obtain ⟨rfl, rfl⟩ := hu'
    rw [hn, Option.some_inj] at hn'
    subst hn'
    have hnew := hacc id { n with capacity := cap }
      (by rw [getElem?_nodes_updateCapacity hn, if_pos rfl]) hghost h h0 h24
    rw [hcount] at hnew
    exact (hhour h h0 h24).mp hnew
  · intro hk id' n' hn' hghost' h h0 h24
    rw [hcount]
    rw [getElem?_nodes_updateCapacity hn] at hn'
    by_cases hid : id' = id
    · rw [if_pos hid, Option.some_inj] at hn'
      subst hid hn'
      exact (hhour h h0 h24).mpr (hk r id' cap rfl hu n hn h h0 h24)
    · rw [if_neg hid] at hn'
      rw [slotAt, slot?_updateCapacity hn, if_neg fun hc => hid hc.1]
      exact ha id' n' hn' hghost' h h0 h24

/-- **One step.** -/
theorem accounted_step (hs : SlotShape sys) (hcaps : IntCapacities sys.nodes)
    (ha : Accounted es sys) (h : Effect sys e sys') :
    Accounted (es ++ [e]) sys' ↔ KeepsCount es sys e := by
  cases h with
  | nothing hno hupd _ =>
    refine ⟨fun _ r id cap hr hu => absurd hu (hupd r id cap hr), fun _ => ?_⟩
    intro id n hn hghost h h0 h24
    rw [granted_snoc, hno, add_zero]
    exact ha id n hn hghost h h0 h24
  | grant hg => exact ⟨fun _ r id cap hr => by simp at hr, fun _ => ha.grant hs hg⟩
  | update hu hn hghost hcap _ => exact ha.update_iff hs hcaps hu hn hghost hcap

theorem Accounted.within (ha : Accounted es sys) (h : Effect sys e sys') :
    WithinCapacity es sys e := by
  intro grant hgrant n hn k h1 h2
  cases h with
  | nothing hno _ _ => rw [hno] at hgrant; simp at hgrant
  | update _ _ _ _ _ => simp [grant?] at hgrant
  | @grant _ _ grant' _ _ hg =>
    obtain rfl : grant' = grant := Option.some_inj.mp hgrant
    obtain ⟨hw0, hw24, _⟩ := hg.window
    obtain ⟨n', hn', hghost⟩ := isPlace_iff.mp hg.place
    rw [hn, Option.some_inj] at hn'
    subst hn'
    -- the free place found at the time of the choice is one that no grant has taken
    have hpos := hg.booked.slotAt_pos h1 h2
    have hold := ha _ n hn hghost k (by omega) (by omega)
    omega

/-- **The account over a run.**  It is right in every state, and no place is
granted beyond the capacity, exactly when every `/update` of the run meets
`KeepsCount`. -/
theorem accounted_iff {nodesList adjacencyList transport : Text} (hd : DistinctIds D nodesList)
    (h : Run (Served handle) (start nodesList adjacencyList transport) es sys) :
    (Along (Served handle) (start nodesList adjacencyList transport) es Accounted ∧
      Steps (Served handle) (start nodesList adjacencyList transport) es WithinCapacity) ↔
    Steps (Served handle) (start nodesList adjacencyList transport) es KeepsCount := by
  have halong := along_iff_steps (served_deterministic handle) (P := Accounted) (Q := KeepsCount)
    (accounted_start hd adjacencyList transport) h
    fun pre s e s' hr ha hstep =>
      accounted_step (slotShape_of_served_run hd hr) (intCapacities_of_run hr) ha
        (effect_of_served hstep)
  refine ⟨fun hc => halong.mp hc.1, fun hk => ⟨halong.mpr hk, ?_⟩⟩
  intro pre e s hpre hs
  obtain ⟨s', hstep, _⟩ := h.next_step (served_deterministic handle) hpre hs
  exact (halong.mpr hk pre s ((List.prefix_append _ _).trans hpre) hs).within
    (effect_of_served hstep)

/-- If no update succeeds, the free places are those at the start less those granted. -/
theorem slotAt_of_served_run {s₀ : SmartParking D} (h : Run (Served handle) s₀ es sys)
    (hno : ∀ e ∈ es, ∀ r id cap, e ≠ (.update r, .update (.success id cap))) (id hour : ℤ) :
    slotAt sys.slots id hour = slotAt s₀.slots id hour - granted es id hour := by
  refine h.invariant
    (I := fun es s => (∀ e ∈ es, ∀ r id cap, e ≠ (.update r, .update (.success id cap))) →
      slotAt s.slots id hour = slotAt s₀.slots id hour - granted es id hour) ?_ ?_ hno
  · intro _
    simp [granted]
  · intro es s e s' _ ih hstep hno
    have hold := ih fun e he => hno e (List.mem_append_left _ he)
    rw [granted_snoc]
    cases effect_of_served hstep with
    | nothing hnone _ _ =>
      rw [hnone, hold]
      simp
    | grant hg =>
      rw [hg.booked.slotAt_eq, hold]
      simp only [grant?, Grant.covers_iff, eq_comm (b := id)]
      push_cast
      omega
    | update _ _ _ _ _ =>
      exact absurd rfl (hno _ (List.mem_append_right _ List.mem_cons_self) _ _ _)

end count

theorem accounted_iff_lot : ∃ es s, Run (Served handle) lot es s ∧ granted es 1 10 = 1 ∧
    ((Along (Served handle) lot es Accounted ∧ Steps (Served handle) lot es WithinCapacity) ↔
      Steps (Served handle) lot es KeepsCount) := by
  obtain ⟨es, s, hrun, htest⟩ := run_of_execThen handle lot
    [.route parkAtA, .update (resizeA ['5'])] (fun es _ => granted es 1 10 = 1) (by decide)
  exact ⟨es, s, hrun, by simpa using htest, accounted_iff distinctIds_lotFile hrun⟩

/-- Two places are granted, the capacity is cut to one and raised to two again:
both are taken, and the table says that one is free. -/
theorem update_forgets_bookings : ∃ es s, Run (Served handle) lot es s ∧
    granted es 1 10 = 2 ∧ slotAt s.slots 1 10 = 1 ∧ ¬ Accounted es s := by
  obtain ⟨es, s, hrun, htest⟩ := run_of_execThen handle lot
    [.route parkAtA, .route parkAtA, .update (resizeA ['1']), .update (resizeA ['2'])]
    (fun es s => granted es 1 10 = 2 ∧ slotAt s.slots 1 10 = 1 ∧
      s.nodes[(1 : ℤ)]? =
        some { id := 1, name := ['A'], capacity := 2, x := 0, y := 0, ghost := false })
    (by decide)
  simp only [decide_eq_true_eq] at htest
  obtain ⟨hgranted, hfree, hnode⟩ := htest
  refine ⟨es, s, hrun, hgranted, hfree, fun hacc => ?_⟩
  have hshould := hacc 1 _ hnode rfl 10 (by omega) (by omega)
  rw [hgranted, hfree] at hshould
  exact absurd hshould (by decide)

end SmartParking
