/-
Fallbacks and the public transport graph.

A reply with a fallback draws a leg from the parking node to the destination and
sends the driver on by public transport.  `loadTransport` builds a graph for it
that no handler reads, so whether the leg can be travelled rests on the files.

* `SameMap.getId`, `SameMap.dijkstra` — names and routes do not depend on
  capacities;
* `exists_closed_run` — capacity changes can leave any places without a free hour;
* `exists_fallback` — so any node of a route but its end can be the one granted;
* `fallbacksServed_iff` — every fallback can be completed, in every run, exactly
  when in every reachable state each route has its end within reach of its nodes.
-/
import SmartParking.NodeTable

open StdMap TextStream Runs

namespace SmartParking

variable {D : Type}

/-- The ids to which public transport leads from a node. -/
def Reaches (transport : Adjacency) : ℤ → ℤ → Prop :=
  Relation.ReflTransGen fun u v => ∃ w, (v, w) ∈ neighbours transport u

/-- If the reply announces a fallback, its destination is reached from its parking
node. -/
def FallbackServed (transport : Adjacency) (e : Event D) : Prop :=
  ∀ grant body, e.2 = .route (.success grant body) → body.fallback = true →
    Reaches transport grant.parkingNode grant.dest

/-- A request can name the node. -/
def Named (sys : SmartParking D) (id : ℤ) : Prop := id ≠ -1 ∧ ∃ name, getId sys name = id

/-- From every node of a route between nodes that a request can name, its end is
reached.  A node of id -1 is never granted. -/
def RoutesServed (transport : Adjacency) (sys : SmartParking D) : Prop :=
  ∀ src dest path, Named sys src → Named sys dest →
    dijkstra sys.nodes src dest sys.road = .ok path →
    ∀ p ∈ path, p ≠ dest → p ≠ -1 → Reaches transport p dest

/-! ### The node granted by a fallback -/

/-- What the client is told of the fallback is what the handler has found. -/
theorem route_fallback [Zero D] {sys sys' : SmartParking D} {r : RouteRequest} {grant : Grant}
    {body : RouteBody D} (h : route sys r = .ok (sys', .success grant body)) :
    body.fallback = grant.fallback := by
  rw [route] at h
  split at h
  · exact absurd h (by simp)
  · rename_i reply henter
    simp only [Except.ok.injEq, Prod.mk.injEq] at h
    exact absurd h.2 (routeEnter_reply henter grant body)
  · dsimp only at h
    split at h
    · exact absurd h (by simp [noParking])
    · simp only [respond, Except.ok.injEq, Prod.mk.injEq, RouteReply.success.injEq] at h
      obtain ⟨_, rfl, rfl⟩ := h
      rfl

/-- A fallback is granted a node of the route other than the destination. -/
theorem Granted.fallback_mem [Zero D] {sys sys' : SmartParking D} {r : RouteRequest}
    {grant : Grant} {t : Trip} (h : Granted sys r sys' grant t) (hf : grant.fallback = true) :
    grant.parkingNode ∈ t.realPath ∧ grant.parkingNode ≠ t.dest := by
  have hparking := h.parking
  rw [h.grant_eq] at hf hparking ⊢
  simp only [Trip.grant, chooseParking] at hf hparking ⊢
  split at hf
  · simp at hf
  · rename_i hdest
    rw [if_neg hdest] at hparking ⊢
    rcases fallbackParking_cases sys t.realPath t.startH t.endH with
      ⟨hnone, _⟩ | ⟨pre, p, post, hpath, hp, havail, _⟩
    · exact absurd hnone hparking
    · simp only [hp]
      refine ⟨by simp [hpath], ?_⟩
      rintro rfl
      exact hdest havail

/-- **One request.**  A fallback granted where the routes are served can be
completed. -/
theorem RoutesServed.fallbackServed [StreamDouble D] {transport : Adjacency}
    {sys sys' : SmartParking D} {e : Event D} (h : RoutesServed transport sys)
    (hs : Served handle sys e sys') : FallbackServed transport e := by
  obtain ⟨request, reply⟩ := e
  rintro grant body rfl hf
  cases request with
  | nodes => simp [Served, handle] at hs
  | update r => simp [Served, handle] at hs
  | route r =>
    obtain ⟨routeReply, hroute, heq⟩ := route_of_served hs
    obtain rfl := Reply.route.inj heq
    obtain ⟨t, hg⟩ := route_success hroute
    have hfall : grant.fallback = true := route_fallback hroute ▸ hf
    obtain ⟨hmem, hne⟩ := hg.fallback_mem hfall
    have hdest : grant.dest = t.dest := by rw [hg.grant_eq, Trip.grant]
    rw [hdest]
    exact h t.src t.dest t.realPath ⟨hg.found.src_known, _, hg.found.src⟩
      ⟨hg.found.dest_known, _, hg.found.dest⟩ hg.found.search _ hmem hne hg.parking

/-! ### What does not depend on capacities -/

/-- The node table without the capacities. -/
def outline (nodes : Map ℤ (Node D)) : Map ℤ (Node D) :=
  nodes.map fun _ n => { n with capacity := 0 }

theorem getElem?_outline (nodes : Map ℤ (Node D)) (id : ℤ) :
    (outline nodes)[id]? = nodes[id]?.map fun n => { n with capacity := 0 } :=
  Std.ExtTreeMap.getElem?_map

theorem isPlace_outline (nodes : Map ℤ (Node D)) (id : ℤ) :
    isPlace (outline nodes) id = isPlace nodes id := by
  rw [isPlace, isPlace, getElem?_outline]
  cases nodes[id]? <;> rfl

theorem find?_outline (nodes : Map ℤ (Node D)) (name : Text) :
    (((outline nodes).toList.find? fun p => p.2.name = name).map fun p => p.1) =
      (nodes.toList.find? fun p => p.2.name = name).map fun p => p.1 := by
  rw [outline, Std.ExtTreeMap.toList_map, List.find?_map, Option.map_map]
  rfl

theorem relaxEdge_outline (nodes : Map ℤ (Node D)) :
    relaxEdge (outline nodes) = relaxEdge nodes := by
  funext u s e
  rw [relaxEdge, relaxEdge, getElem?_outline, Option.map_map]
  rfl

theorem searchLoop_outline (nodes : Map ℤ (Node D)) (graph : Adjacency) (fuel : ℕ) :
    ∀ s : Search, searchLoop (outline nodes) graph fuel s = searchLoop nodes graph fuel s := by
  induction fuel with
  | zero => exact fun s => rfl
  | succ fuel ih =>
    intro s
    simp only [searchLoop, relaxEdge_outline, ih]

theorem initDist_outline (nodes : Map ℤ (Node D)) : initDist (outline nodes) = initDist nodes := by
  refine Std.ExtTreeMap.ext_getElem? fun v => ?_
  rw [getElem?_initDist, getElem?_initDist, isPlace_outline]

theorem dijkstra_outline (nodes : Map ℤ (Node D)) (src dest : ℤ) (graph : Adjacency) :
    dijkstra (outline nodes) src dest graph = dijkstra nodes src dest graph := by
  have hfuel : searchFuel (outline nodes) = searchFuel nodes := by
    rw [searchFuel, searchFuel, outline, Std.ExtTreeMap.size_map]
  simp only [dijkstra, initSearch, initDist_outline, searchLoop_outline, hfuel]

/-- The states differ in capacities, free places and the file saved only. -/
structure SameMap (sys sys' : SmartParking D) : Prop where
  outline : outline sys'.nodes = outline sys.nodes
  road : sys'.road = sys.road

section sameMap
variable {sys sys' sys'' : SmartParking D}

theorem SameMap.refl (sys : SmartParking D) : SameMap sys sys := ⟨rfl, rfl⟩

theorem SameMap.trans (h : SameMap sys sys') (h' : SameMap sys' sys'') : SameMap sys sys'' :=
  ⟨h'.outline.trans h.outline, h'.road.trans h.road⟩

theorem SameMap.getId (h : SameMap sys sys') (name : Text) :
    SmartParking.getId sys' name = SmartParking.getId sys name := by
  rw [SmartParking.getId, SmartParking.getId, ← find?_outline, ← find?_outline sys.nodes,
    h.outline]

theorem SameMap.named (h : SameMap sys sys') {id : ℤ} (hid : Named sys id) : Named sys' id := by
  obtain ⟨hne, name, hname⟩ := hid
  exact ⟨hne, name, (h.getId name).trans hname⟩

theorem SameMap.dijkstra (h : SameMap sys sys') (src dest : ℤ) :
    SmartParking.dijkstra sys'.nodes src dest sys'.road =
      SmartParking.dijkstra sys.nodes src dest sys.road := by
  rw [← dijkstra_outline, h.outline, dijkstra_outline, h.road]

theorem SameMap.isPlace (h : SameMap sys sys') (id : ℤ) :
    SmartParking.isPlace sys'.nodes id = SmartParking.isPlace sys.nodes id := by
  rw [← isPlace_outline, h.outline, isPlace_outline]

theorem sameMap_updateCapacity [StreamDouble D] {id cap : ℤ} {n : Node D}
    (hn : sys.nodes[id]? = some n) : SameMap sys (sys.updateCapacity id cap) := by
  refine ⟨Std.ExtTreeMap.ext_getElem? fun k => ?_, ?_⟩
  · rw [getElem?_outline, getElem?_outline, getElem?_nodes_updateCapacity hn]
    by_cases hk : k = id
    · rw [if_pos hk, hk, hn]
      rfl
    · rw [if_neg hk]
  · rw [updateCapacity_eq hn]
    rfl

end sameMap

/-! ### Closing places -/

section requests
variable [StreamDouble D] {sys : SmartParking D}

/-- The request that sets the capacity of a node. -/
def resize (id cap : ℤ) : UpdateRequest :=
  { idParam := some (printInt id), capParam := some (printInt cap) }

theorem served_resize {id cap : ℤ} (hplace : isPlace sys.nodes id = true) (hid : IsInt id)
    (hcap : 0 ≤ cap) (hint : IsInt cap) :
    Served handle sys (.update (resize id cap), .update (.success id cap))
      (sys.updateCapacity id cap) := by
  obtain ⟨n, hn, hghost⟩ := isPlace_iff.mp hplace
  refine served_of_updateEnter ?_
  simp only [updateEnter, resize, stoi_printInt hid, stoi_printInt hint, hn, hghost,
    if_neg (not_lt.mpr hcap)]
  rfl

omit [StreamDouble D] in
/-- The node has capacity 0 and no free place at any hour. -/
structure Closed (sys : SmartParking D) (id : ℤ) : Prop where
  capacity : ∃ n, sys.nodes[id]? = some n ∧ n.capacity = 0
  slots : ∀ h, 0 ≤ h → h < 24 → slot? sys.slots id h = some 0

omit [StreamDouble D] in
theorem Closed.unavailable {id : ℤ} (h : Closed sys id) (startH endH : ℤ) :
    sys.availableAtTime id startH endH = false := by
  by_contra hc
  rw [Bool.not_eq_false] at hc
  obtain ⟨⟨h0, h24, hlt⟩, _, hfree⟩ := availableAtTime_iff.mp hc
  obtain ⟨free, hf, hpos⟩ := hfree startH le_rfl hlt
  rw [h.slots startH h0 (by omega), Option.some_inj] at hf
  omega

/-- Setting the capacity to 0 closes a place. -/
theorem closed_updateCapacity {id : ℤ} {n : Node D} (hn : sys.nodes[id]? = some n) :
    Closed (sys.updateCapacity id 0) id := by
  refine ⟨⟨{ n with capacity := 0 }, ?_, rfl⟩, fun h h0 h24 => ?_⟩
  · rw [getElem?_nodes_updateCapacity hn, if_pos rfl]
  · have hbounds := placesLeft_bounds le_rfl n.capacity (slotAt sys.slots id h)
    rw [slot?_updateCapacity hn, if_pos ⟨rfl, h0, h24⟩, Option.some_inj]
    exact le_antisymm hbounds.2 hbounds.1

theorem Closed.updateCapacity {id id' cap : ℤ} {n : Node D} (h : Closed sys id')
    (hn : sys.nodes[id]? = some n) (hne : id' ≠ id) :
    Closed (sys.updateCapacity id cap) id' := by
  obtain ⟨n', hn', hcap⟩ := h.capacity
  refine ⟨⟨n', ?_, hcap⟩, fun k h0 h24 => ?_⟩
  · rw [getElem?_nodes_updateCapacity hn, if_neg hne]
    exact hn'
  · rw [slot?_updateCapacity hn, if_neg fun hc => hne hc.1]
    exact h.slots k h0 h24

/-- A closed place that is given one place of capacity has it free. -/
theorem Closed.available_updateCapacity {id startH endH : ℤ} (h : Closed sys id)
    (hplace : isPlace sys.nodes id = true) (hw : ValidWindow startH endH) :
    (sys.updateCapacity id 1).availableAtTime id startH endH = true := by
  obtain ⟨n, hn, hcap⟩ := h.capacity
  refine availableAtTime_iff.mpr ⟨hw, ?_, fun k h1 h2 => ⟨1, ?_, one_pos⟩⟩
  · rwa [isPlace_updateCapacity]
  · obtain ⟨h0, h24, _⟩ := hw
    rw [slot?_updateCapacity hn, if_pos ⟨rfl, by omega, by omega⟩, slotAt,
      h.slots k (by omega) (by omega), hcap]
    rfl

/-- **Closing places.**  Any places whose ids are `int`s can be closed by requests. -/
theorem exists_closed_run (ids : List ℤ)
    (hids : ∀ id ∈ ids, isPlace sys.nodes id = true ∧ IsInt id) :
    ∃ es sys', Run (Served handle) sys es sys' ∧ SameMap sys sys' ∧ ∀ id ∈ ids, Closed sys' id := by
  induction ids with
  | nil => exact ⟨[], sys, .nil, .refl sys, by simp⟩
  | cons id ids ih =>
    obtain ⟨es, sys', hrun, hmap, hclosed⟩ := ih fun k hk => hids k (List.mem_cons_of_mem _ hk)
    obtain ⟨hplace, hint⟩ := hids id List.mem_cons_self
    have hplace' : isPlace sys'.nodes id = true := hmap.isPlace id ▸ hplace
    obtain ⟨n, hn, _⟩ := isPlace_iff.mp hplace'
    refine ⟨_, _, hrun.snoc (served_resize hplace' hint le_rfl (by decide)),
      hmap.trans (sameMap_updateCapacity hn), fun k hk => ?_⟩
    -- the places closed before stay closed
    by_cases hkid : k = id
    · rw [hkid]
      exact closed_updateCapacity hn
    · exact (hclosed k ((List.mem_cons.mp hk).resolve_left hkid)).updateCapacity hn hkid

/-! ### Any node of a route can be granted -/

omit [StreamDouble D] in
/-- Two nodes with names and a route can be asked for, at the default hours. -/
theorem exists_trip {src dest : ℤ} {path : List ℤ} (hsrc : Named sys src) (hdest : Named sys dest)
    (hpath : dijkstra sys.nodes src dest sys.road = .ok path) (hne : path ≠ []) :
    ∃ r t, Trip.Found sys r t ∧ t.dest = dest ∧ t.realPath = path := by
  obtain ⟨hsrc1, srcName, hsrcName⟩ := hsrc
  obtain ⟨hdest1, destName, hdestName⟩ := hdest
  have hwindow : ValidWindow 10 12 := by
    unfold ValidWindow
    omega
  exact ⟨{ s := some srcName, e := some destName, sh := none, eh := none },
    { startH := 10, endH := 12, src := src, dest := dest, realPath := path
      visualPath := buildVisualRoute sys.visualPaths path },
    { window := hwindow, startH := rfl, endH := rfl, src := hsrcName, dest := hdestName
      src_known := hsrc1, dest_known := hdest1, search := hpath, nonempty := hne
      visual := rfl }, rfl, rfl⟩

/-- With one node of the route available, the request falls back on it. -/
theorem route_of_only_available {t : Trip} {r : RouteRequest} {p : ℤ} (h : t.Found sys r)
    (hp : p ∈ t.realPath) (hp1 : p ≠ -1)
    (havail : sys.availableAtTime p t.startH t.endH = true)
    (hothers : ∀ id, id ∈ t.dest :: t.realPath → id ≠ p →
      sys.availableAtTime id t.startH t.endH = false) (hdest : p ≠ t.dest) :
    ∃ sys' grant body, route sys r = .ok (sys', .success grant body) ∧
      body.fallback = true ∧ grant.parkingNode = p ∧ grant.dest = t.dest := by
  have hchoice : chooseParking sys t = { fallback := true, parkingNode := p } := by
    have hfall : sys.fallbackParking t.realPath t.startH t.endH = p := by
      rcases fallbackParking_cases sys t.realPath t.startH t.endH with
        ⟨_, hnone⟩ | ⟨pre, q, post, hpath, hq, hqavail, _⟩
      · exact absurd havail (by simp [hnone p hp])
      · rw [hq]
        by_contra hqp
        have hqmem : q ∈ t.dest :: t.realPath := by simp [hpath]
        exact absurd hqavail (by simp [hothers q hqmem hqp])
    rw [chooseParking, hothers t.dest List.mem_cons_self hdest.symm, hfall]
    rfl
  obtain ⟨body, hresp⟩ := respond_eq (sys.reserveSlot p t.startH t.endH) t
    (chooseParking sys t)
  have hroute := route_of_found h
  rw [hchoice] at hroute hresp
  rw [if_neg hp1, hresp] at hroute
  exact ⟨_, _, body, hroute, route_fallback hroute, rfl, rfl⟩

/-- **Any node of a route** other than its end can become the one granted. -/
theorem exists_fallback (hkeys : ∀ id ∈ sys.nodes, IsInt id) {src dest p : ℤ} {path : List ℤ}
    (hsrc : Named sys src) (hdest : Named sys dest)
    (hpath : dijkstra sys.nodes src dest sys.road = .ok path) (hp : p ∈ path) (hpd : p ≠ dest)
    (hp1 : p ≠ -1) :
    ∃ es sys₁ e sys₂ grant body, Run (Served handle) sys es sys₁ ∧ Served handle sys₁ e sys₂ ∧
      e.2 = .route (.success grant body) ∧ body.fallback = true ∧ grant.parkingNode = p ∧
      grant.dest = dest := by
  have hne : path ≠ [] := List.ne_nil_of_mem hp
  have hplaces : ∀ id ∈ dest :: path, isPlace sys.nodes id = true := by
    rw [List.forall_mem_cons]
    exact ⟨(places_of_dijkstra hpath hne).2, mem_dijkstra_place hpath⟩
  -- close the route, then give the node one place
  obtain ⟨es, sys₁, hrun, hmap, hclosed⟩ := exists_closed_run (dest :: path) fun id hid =>
    ⟨hplaces id hid, hkeys id (mem_of_isPlace (hplaces id hid))⟩
  have hpmem : p ∈ dest :: path := List.mem_cons_of_mem _ hp
  have hpplace : isPlace sys₁.nodes p = true := hmap.isPlace p ▸ hplaces p hpmem
  obtain ⟨n, hn, _⟩ := isPlace_iff.mp hpplace
  have hpint := hkeys p (mem_of_isPlace (hplaces p hpmem))
  have hserved := served_resize hpplace hpint zero_le_one (by decide)
  have hmap' : SameMap sys (sys₁.updateCapacity p 1) := hmap.trans (sameMap_updateCapacity hn)
  -- the names and the route are what they were
  obtain ⟨r, t, hfound, rfl, rfl⟩ := exists_trip (hmap'.named hsrc) (hmap'.named hdest)
    ((hmap'.dijkstra src dest).trans hpath) hne
  have hothers : ∀ id ∈ t.dest :: t.realPath, id ≠ p →
      (sys₁.updateCapacity p 1).availableAtTime id t.startH t.endH = false := fun id hid hidp =>
    ((hclosed id hid).updateCapacity hn hidp).unavailable _ _
  obtain ⟨sys₂, grant, body, hroute, hfall, hparking, hgdest⟩ :=
    route_of_only_available hfound hp hp1
      ((hclosed p hpmem).available_updateCapacity hpplace hfound.window) hothers hpd
  refine ⟨_, _, (.route r, .route (.success grant body)), sys₂, grant, body, hrun.snoc hserved,
    ?_, rfl, hfall, hparking, hgdest⟩
  rw [Served, handle, hroute]
  rfl

/-! ### The ids of nodes are `int`s -/

omit [StreamDouble D] in
/-- What is or may become a key of the node table is an `int`. -/
structure IntIds (sys : SmartParking D) : Prop where
  nodes : ∀ id ∈ sys.nodes, IsInt id
  ghosts : ∀ (k : ℤ ×ₗ ℤ) (ids : List ℤ), sys.visualPaths[k]? = some ids → ∀ id ∈ ids, IsInt id

theorem intIds_start (nodesList adjacencyList transport : Text) :
    IntIds (start (D := D) nodesList adjacencyList transport) := by
  refine ⟨fun id hid => ?_, fun k ids hk => ?_⟩
  · obtain ⟨n, hn⟩ := (mem_iff_getElem? _ id).mp hid
    obtain ⟨r, hr, rfl, _⟩ := exists_record hn
    exact (nodeRecords_fields hr).1
  · have hall : ∀ p ∈ buildVisualPaths.toList, ∀ id ∈ p.2, intMin ≤ id ∧ id ≤ intMax := by
      decide +kernel
    exact hall (k, ids) (Std.ExtTreeMap.mem_toList_iff_getElem?_eq_some.mpr hk)

theorem IntIds.effect {sys' : SmartParking D} {e : Event D} (h : IntIds sys)
    (he : Effect sys e sys') : IntIds sys' := by
  refine ⟨fun id hid => ?_, fun k ids hk => ?_⟩
  · cases he with
    | nothing _ _ _ => exact h.nodes id hid
    | @grant r _ grant body t hg =>
      have hdrawn : ∀ id ∈ drawnIds sys t (chooseParking sys t), IsInt id := by
        intro id hid
        rcases (hg.found.mem_drawnIds _ id).mp hid with (hid | hid) | ⟨_, rfl⟩ | rfl
        · exact h.nodes id (mem_of_isPlace (hg.found.places id (mem_of_mem_shownRoute hid)))
        · obtain ⟨k, ids, hk, hmem⟩ := exists_of_mem_ghostsAlong hid
          exact h.ghosts k ids hk id hmem
        · exact h.nodes _ (mem_of_isPlace hg.found.dest_place)
        · have hplace := hg.place
          rw [hg.grant_eq] at hplace
          exact h.nodes _ (mem_of_isPlace hplace)
      rw [hg.nodes, mem_touchAll] at hid
      exact hid.elim (hdrawn id) (h.nodes id)
    | update _ _ _ _ _ => exact h.nodes id ((mem_nodes_updateCapacity _ _ _ id).mp hid)
  · rw [he.visualPaths] at hk
    exact h.ghosts k ids hk

theorem intIds_of_run {nodesList adjacencyList transport : Text} {es : List (Event D)}
    (h : Run (Served handle) (start nodesList adjacencyList transport) es sys) : IntIds sys :=
  h.invariant (I := fun _ s => IntIds s) (intIds_start nodesList adjacencyList transport)
    fun _ _ _ _ _ hi hstep => hi.effect (effect_of_served hstep)

end requests

/-! ### Every fallback of every run -/

/-- **One run.**  Where the routes are served all along a run, so are its fallbacks. -/
theorem fallbackServed_of_along [StreamDouble D] {transport : Adjacency} {s₀ s : SmartParking D}
    {es : List (Event D)} (h : Run (Served handle) s₀ es s)
    (hroutes : Along (Served handle) s₀ es fun _ s => RoutesServed transport s) :
    ∀ e ∈ es, FallbackServed transport e := by
  intro e he
  obtain ⟨pre, post, rfl⟩ := List.append_of_mem he
  have hpre : pre ++ [e] <+: pre ++ e :: post := ⟨post, by simp⟩
  obtain ⟨s₁, hs₁⟩ := h.restrict hpre
  obtain ⟨s', hs', hserved⟩ := run_snoc_iff.mp hs₁
  exact (hroutes pre s' (List.prefix_append _ _) hs').fallbackServed hserved

/-- **Fallbacks and routes.**  Whatever the files, every fallback of every run can
be completed by public transport exactly when in every reachable state the end of
each route is reached from its nodes. -/
theorem fallbacksServed_iff [StreamDouble D] (nodesList adjacencyList transport : Text) :
    (∀ (es : List (Event D)) (s : SmartParking D),
        Run (Served handle) (start nodesList adjacencyList transport) es s →
          ∀ e ∈ es, FallbackServed (loadTransport transport) e) ↔
      ∀ (es : List (Event D)) (s : SmartParking D),
        Run (Served handle) (start nodesList adjacencyList transport) es s →
          RoutesServed (loadTransport transport) s := by
  constructor
  · -- a node from which the end is not reached could be granted next
    intro hall es s hrun src dest path hsrc hdest hpath p hp hpd hp1
    obtain ⟨es', s₁, e, s₂, grant, body, hrun', hserved, hreply, hfall, rfl, rfl⟩ :=
      exists_fallback (intIds_of_run hrun).nodes hsrc hdest hpath hp hpd hp1
    exact hall _ s₂ ((hrun.append hrun').snoc hserved) e (by simp) grant body hreply hfall
  · intro hall es s hrun
    exact fallbackServed_of_along hrun fun pre s' _ hpre => hall pre s' hpre

/-- Three places in a row, of which B is full; public transport joins the last two. -/
def hamletFile : Text := "1 A 1 0 0 0\n2 B 0 0 0 0\n3 C 0 0 0 0\n".toList

def hamletTransport : Text := "2 3\n".toList

def hamlet : SmartParking ℤ := start hamletFile "1 2 1\n2 3 1\n".toList hamletTransport

/-- The request from A to B is sent to park at A and to go on by public transport,
which does not stop there. -/
theorem fallback_unserved : ∃ es s, Run (Served handle) hamlet es s ∧
    ∃ e ∈ es, ¬ FallbackServed (loadTransport hamletTransport) e := by
  obtain ⟨s', grant, body, hroute, htest⟩ := exists_success (route hamlet fromAToB)
    (fun grant => grant.fallback = true ∧ grant.parkingNode = 1 ∧ grant.dest = 2) (by decide)
  simp only [decide_eq_true_eq] at htest
  obtain ⟨hfall, hparking, hdest⟩ := htest
  have hserved : Served handle hamlet (.route fromAToB, .route (.success grant body)) s' := by
    rw [Served, handle, hroute]
    rfl
  refine ⟨_, s', .snoc .nil hserved, _, List.mem_append_right _ (List.mem_singleton_self _), ?_⟩
  intro hall
  have hreach := hall grant body rfl ((route_fallback hroute).trans hfall)
  rw [hparking, hdest] at hreach
  -- no leg leaves A
  obtain hsame | ⟨v, ⟨w, hleg⟩, _⟩ := Relation.ReflTransGen.cases_head hreach
  · exact absurd hsame (by decide)
  · have hnone : neighbours (loadTransport hamletTransport) 1 = [] := by decide
    rw [hnone] at hleg
    simp at hleg

end SmartParking
