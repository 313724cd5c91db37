/-
What requests do not change: the network.

Names, routes and drawings are read off the nodes, the roads and the table of ghosts.
Bookings and capacity changes touch none of what they read, as long as every request
granted finds its ghosts among the nodes.

* `SameChart` — two states with one network find the same trips and draw the same
  replies;
* `sameChart_of_run` — the network is as loaded in every state;
* `reply_of_slots` — two servers started from the same files give a request the same
  reply whenever their free places agree in its window, whatever each has served.
-/
import SmartParking.Commuting
import SmartParking.PublicTransport

open StdMap TextStream Runs

namespace SmartParking

variable {D : Type}

/-- The states differ in capacities, free places, the file saved and the transport
map only. -/
structure SameChart (sys sys' : SmartParking D) : Prop extends SameMap sys sys' where
  visualPaths : sys'.visualPaths = sys.visualPaths

/-! ### Drawing reads the outline -/

section draw
variable [Zero D]

theorem bracket_outline (nodes : Map ℤ (Node D)) (id : ℤ) :
    bracket (outline nodes) id =
      ({ (bracket nodes id).1 with capacity := 0 }, outline (bracket nodes id).2) := by
  refine Prod.ext ?_ (Std.ExtTreeMap.ext_getElem? fun k => ?_)
  · show (outline nodes).getD id default = { nodes.getD id default with capacity := 0 }
    rw [getD_eq, getD_eq, getElem?_outline]
    cases nodes[id]? <;> rfl
  · have hmem : id ∈ outline nodes ↔ id ∈ nodes := by
      rw [mem_iff_getElem?, mem_iff_getElem?, getElem?_outline]
      cases nodes[id]? <;> simp
    have hright : (outline (bracket nodes id).2)[k]? =
        (if k = id ∧ id ∉ nodes then some default else nodes[k]?).map
          fun n => { n with capacity := 0 } := by
      rw [getElem?_outline, getElem?_bracket]
    rw [getElem?_bracket, getElem?_outline]
    refine Eq.trans ?_ hright.symm
    by_cases hk : k = id ∧ id ∉ nodes
    · rw [if_pos hk, if_pos ⟨hk.1, fun hc => hk.2 (hmem.mp hc)⟩]
      rfl
    · rw [if_neg hk, if_neg fun hc => hk ⟨hc.1, fun hc' => hc.2 (hmem.mpr hc')⟩]

theorem drawPath_outline (ids : List ℤ) : ∀ nodes : Map ℤ (Node D),
    drawPath (outline nodes) ids = ((drawPath nodes ids).1, outline (drawPath nodes ids).2) := by
  induction ids with
  | nil => exact fun nodes => rfl
  | cons id ids ih =>
    intro nodes
    simp only [drawPath, bracket_outline, ih]

theorem drawTransfer_outline (nodes : Map ℤ (Node D)) (parkingNode dest : ℤ) :
    drawTransfer (outline nodes) parkingNode dest =
      ((drawTransfer nodes parkingNode dest).1,
        outline (drawTransfer nodes parkingNode dest).2) := by
  simp only [drawTransfer, bracket_outline]

/-- The reply drawn does not show a capacity. -/
theorem respond_outline (sys : SmartParking D) (t : Trip) (c : Choice) :
    (respond { sys with nodes := outline sys.nodes } t c).2 = (respond sys t c).2 := by
  obtain ⟨fallback, parkingNode⟩ := c
  have hdisplay : displayPath { sys with nodes := outline sys.nodes } t ⟨fallback, parkingNode⟩ =
      displayPath sys t ⟨fallback, parkingNode⟩ := rfl
  rw [respond, respond, hdisplay]
  cases fallback with
  | false => simp only [drawPath_outline, bracket_outline, Bool.false_eq_true, if_false]
  | true => simp only [drawPath_outline, drawTransfer_outline, bracket_outline, if_true]

end draw

/-! ### States with one network -/

section same
variable {sys sys' sys'' : SmartParking D}

theorem SameChart.refl (sys : SmartParking D) : SameChart sys sys := ⟨.refl sys, rfl⟩

theorem SameChart.symm (h : SameChart sys sys') : SameChart sys' sys :=
  ⟨⟨h.outline.symm, h.road.symm⟩, h.visualPaths.symm⟩

theorem SameChart.trans (h : SameChart sys sys') (h' : SameChart sys' sys'') :
    SameChart sys sys'' :=
  ⟨h.toSameMap.trans h'.toSameMap, h'.visualPaths.trans h.visualPaths⟩

theorem SameChart.routeEnter (h : SameChart sys sys') (r : RouteRequest) :
    SmartParking.routeEnter sys' r = SmartParking.routeEnter sys r := by
  simp only [SmartParking.routeEnter, h.getId, h.dijkstra, h.visualPaths]

theorem SameChart.found (h : SameChart sys sys') {r : RouteRequest} {t : Trip}
    (ht : t.Found sys r) : t.Found sys' r :=
  routeEnter_trip.mp ((h.routeEnter r).trans (routeEnter_trip.mpr ht))

/-- The same nodes are there, with the same ghosts among them. -/
theorem SameChart.ghost (h : SameChart sys sys') (id : ℤ) :
    sys'.nodes[id]?.map Node.ghost = sys.nodes[id]?.map Node.ghost := by
  have hget := congrArg (fun nodes : Map ℤ (Node D) => nodes[id]?.map Node.ghost) h.outline
  simp only [getElem?_outline, Option.map_map] at hget
  exact hget

theorem SameChart.updateEnter (h : SameChart sys sys') (r : UpdateRequest) :
    SmartParking.updateEnter sys' r = SmartParking.updateEnter sys r := by
  obtain ⟨idParam, capParam⟩ := r
  cases idParam with
  | none => rfl
  | some idText =>
    cases capParam with
    | none => rfl
    | some capText =>
      simp only [SmartParking.updateEnter]
      cases stoi idText with
      | error e => rfl
      | ok id =>
        cases stoi capText with
        | error e => rfl
        | ok cap =>
          dsimp only
          -- the last two checks read whether the node is there and is a ghost
          have hghost := h.ghost id
          cases hn' : sys'.nodes[id]? with
          | none =>
            cases hn : sys.nodes[id]? with
            | none => rfl
            | some n => simp [hn', hn] at hghost
          | some n' =>
            cases hn : sys.nodes[id]? with
            | none => simp [hn', hn] at hghost
            | some n =>
              rw [hn', hn, Option.map_some, Option.map_some, Option.some_inj] at hghost
              simp only [hghost]

theorem SameChart.displayPath (h : SameChart sys sys') (t : Trip) (c : Choice) :
    SmartParking.displayPath sys' t c = SmartParking.displayPath sys t c :=
  displayPath_congr h.visualPaths t c

theorem SameChart.respond [Zero D] (h : SameChart sys sys') (t : Trip) (c : Choice) :
    (SmartParking.respond sys' t c).2 = (SmartParking.respond sys t c).2 := by
  rw [← respond_outline sys', ← respond_outline sys, h.outline]
  have hdisplay :
      SmartParking.displayPath { sys' with nodes := SmartParking.outline sys.nodes } t c =
        SmartParking.displayPath { sys with nodes := SmartParking.outline sys.nodes } t c :=
    h.displayPath t c
  rw [SmartParking.respond, SmartParking.respond, hdisplay]

/-- The reply to a trip is that of the choice made. -/
theorem route_reply_of_found [Zero D] {r : RouteRequest} {t : Trip} (ht : t.Found sys r) :
    (route sys r).map Prod.snd =
      .ok (if (chooseParking sys t).parkingNode = -1 then noParking
        else (SmartParking.respond sys t (chooseParking sys t)).2) := by
  rw [route_of_found ht]
  split
  · rfl
  · rw [reserveSlot_frame]
    exact congrArg Except.ok (respond_slots _ _ _ _)

/-- With one network and the same free places in the window of a request, its reply
is the same. -/
theorem SameChart.route_reply [Zero D] (h : SameChart sys sys') {r : RouteRequest}
    (hagree : AgreeIn sys.slots sys'.slots r) :
    (route sys' r).map Prod.snd = (route sys r).map Prod.snd := by
  cases henter : SmartParking.routeEnter sys r with
  | error halt => simp only [route, h.routeEnter, henter]
  | ok out =>
    cases out with
    | inl reply => simp only [route, h.routeEnter, henter]; rfl
    | inr t =>
      have ht := routeEnter_trip.mp henter
      have havail : ∀ id, sys'.availableAtTime id t.startH t.endH =
          sys.availableAtTime id t.startH t.endH := fun id =>
        availableAtTime_congr (h.isPlace id)
          fun k h1 h2 => hagree k ((ht.inWindow_iff k).mpr ⟨h1, h2⟩) id
      have hchoice : chooseParking sys' t = chooseParking sys t := by
        simp only [chooseParking, fallbackParking, havail, h.isPlace]
      rw [route_reply_of_found (h.found ht), route_reply_of_found ht, hchoice, h.respond]

end same

/-! ### Runs -/

section run
variable [StreamDouble D] {sys sys' : SmartParking D} {e : Event D}

omit [StreamDouble D] in
theorem sameChart_reserveSlot (sys : SmartParking D) (node startH endH : ℤ) :
    SameChart sys (sys.reserveSlot node startH endH) := by
  rw [reserveSlot_frame]
  exact ⟨⟨rfl, rfl⟩, rfl⟩

theorem sameChart_updateCapacity {id cap : ℤ} {n : Node D} (hn : sys.nodes[id]? = some n) :
    SameChart sys (sys.updateCapacity id cap) :=
  ⟨sameMap_updateCapacity hn, by rw [updateCapacity_eq hn]; rfl⟩

/-- **One request** keeps the network, if it finds its ghosts. -/
theorem sameChart_of_effect (h : Effect sys e sys') (hk : DrawsKnown sys e) :
    SameChart sys sys' := by
  cases h with
  | nothing _ _ _ => exact .refl sys
  | @grant r _ grant _ t hg =>
    have hnodes := hg.nodes_eq_iff.2 (hk r rfl)
    rw [hg.frame, hnodes]
    exact ⟨⟨rfl, rfl⟩, rfl⟩
  | update _ hn _ _ _ => exact sameChart_updateCapacity hn

/-- With every ghost in the file, no request misses one. -/
theorem drawsKnown_of_tableKnown {nodesList adjacencyList transport : Text}
    (hk : TableKnown (start (D := D) nodesList adjacencyList transport)) (es : List (Event D)) :
    Steps (Served handle) (start nodesList adjacencyList transport) es
      fun _ s e => DrawsKnown s e :=
  fun _ _ _ _ hs r _ => (framed_of_tableKnown hk hs).1.ghostsKnown r

/-- The network is as loaded in every state of a run. -/
theorem sameChart_of_run {s₀ : SmartParking D} {es : List (Event D)}
    (h : Run (Served handle) s₀ es sys)
    (hk : Steps (Served handle) s₀ es fun _ s e => DrawsKnown s e) : SameChart s₀ sys := by
  have halong : Along (Served handle) s₀ es fun _ s => SameChart s₀ s :=
    along_of_steps (Q := fun _ s e => DrawsKnown s e) (.refl s₀)
      (fun _ _ _ _ hs hstep hk => hs.trans (sameChart_of_effect (effect_of_served hstep) hk)) hk
  exact halong es sys List.prefix_rfl h

/-- **Replies are told by the free places.**  Two servers started from the same nodes
and roads have served what they may: a request for a window in which their free places
agree gets one reply from both. -/
theorem reply_of_slots {nodesList adjacencyList transport transport' : Text}
    {es es' : List (Event D)} {s s' : SmartParking D}
    (h : Run (Served handle) (start nodesList adjacencyList transport) es s)
    (h' : Run (Served handle) (start nodesList adjacencyList transport') es' s')
    (hk : Steps (Served handle) (start nodesList adjacencyList transport) es
      fun _ s e => DrawsKnown s e)
    (hk' : Steps (Served handle) (start nodesList adjacencyList transport') es'
      fun _ s e => DrawsKnown s e) {r : RouteRequest} (hagree : AgreeIn s.slots s'.slots r) :
    (route s' r).map Prod.snd = (route s r).map Prod.snd := by
  have hstart : SameChart (start (D := D) nodesList adjacencyList transport)
      (start nodesList adjacencyList transport') := ⟨⟨rfl, rfl⟩, rfl⟩
  have hsame := (sameChart_of_run h hk).symm.trans (hstart.trans (sameChart_of_run h' hk'))
  exact hsame.route_reply hagree

end run

/-- A booking from ten to twelve does not change the reply for eight to nine. -/
theorem reply_of_slots_town : ∃ es s, Run (Served handle) town es s ∧ granted es 71 10 = 1 ∧
    (route s (parkBetween ['8'] ['9'])).map Prod.snd =
      (route town (parkBetween ['8'] ['9'])).map Prod.snd := by
  obtain ⟨s, grant, body, hroute, htest⟩ := exists_success (route town parkAtA)
    (fun grant => grant.covers 71 10 ∧ grant.startH = 10) (by decide +kernel)
  simp only [Bool.decide_and, Bool.decide_eq_true, Bool.and_eq_true, decide_eq_true_eq] at htest
  obtain ⟨t, hg⟩ := route_success hroute
  have hstep : Served handle town (.route parkAtA, .route (.success grant body)) s := by
    rw [Served, handle, hroute]
    rfl
  have hagree : AgreeIn town.slots s.slots (parkBetween ['8'] ['9']) := by
    rintro h ⟨_, e₁, _, he, _, h1⟩ id
    have hnine : hourParam (some ['9']) 12 = .ok 9 := by decide
    obtain rfl := Except.ok.inj (hnine.symm.trans he)
    refine hg.booked.others id h fun hc => ?_
    omega
  refine ⟨_, s, Run.nil.snoc hstep, ?_, reply_of_slots .nil (Run.nil.snoc hstep)
    (drawsKnown_of_tableKnown tableKnown_town _) (drawsKnown_of_tableKnown tableKnown_town _)
    hagree⟩
  simp [granted, grant?, htest.1]

end SmartParking
