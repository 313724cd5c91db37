/-
Which node a `/route` request is given, and the path it is shown.

On a road map built by `loadGraph` from light lines the route is a shortest road
path, so its parts are shortest too:

* `chooseParking_cases` — the node chosen is the last available one of the route;
* `LastAvailable.dist_le` — which is nearest to the destination among the
  available ones, also across edges of weight zero;
* `parkingChoice` — the answer to a request with valid hours between two known
  nodes that roads join;
* `displayPath_shortest` — the path displayed leads to the node reserved and,
  without its ghosts, is a shortest road path to it.

The value -1 means "none" for `fallbackParking`, so a node of that id in the
middle of a route is taken for none (`node_minus_one_unseen`).
-/
import SmartParking.Occupancy
import SmartParking.ShortestRoutes

open StdMap TextStream Walks

namespace SmartParking

variable {D : Type}

/-! ### The parking node -/

/-- `p` is the last node of the path that is available throughout the window. -/
def LastAvailable (sys : SmartParking D) (path : List ℤ) (startH endH p : ℤ) : Prop :=
  ∃ pre post, path = pre ++ p :: post ∧ sys.availableAtTime p startH endH = true ∧
    ∀ id ∈ post, sys.availableAtTime id startH endH = false

theorem LastAvailable.unique {sys : SmartParking D} {path : List ℤ} {startH endH p q : ℤ}
    (hp : LastAvailable sys path startH endH p) (hq : LastAvailable sys path startH endH q) :
    p = q := by
  obtain ⟨pre, post, rfl, hpa, hpost⟩ := hp
  obtain ⟨pre', post', heq, hqa, hpost'⟩ := hq
  -- if they differ, one of them comes after the other
  rcases List.append_eq_append_iff.mp heq with ⟨mid, _, hmid⟩ | ⟨mid, _, hmid⟩
  · cases mid with
    | nil => exact (List.cons.inj hmid).1
    | cons x mid =>
      have hq : q ∈ post := by
        rw [(List.cons.inj hmid).2]
        simp
      exact absurd hqa (by simp [hpost q hq])
  · cases mid with
    | nil => exact (List.cons.inj hmid).1.symm
    | cons x mid =>
      have hp : p ∈ post' := by
        rw [(List.cons.inj hmid).2]
        simp
      exact absurd hpa (by simp [hpost' p hp])

/-- The handler picks the last available node of the route; the destination is
last on it, so it is picked whenever it is available. -/
theorem chooseParking_cases (sys : SmartParking D) {t : Trip}
    (hlast : t.realPath.getLast? = some t.dest) :
    ((∀ id ∈ t.realPath, sys.availableAtTime id t.startH t.endH = false) ∧
      (chooseParking sys t).parkingNode = -1) ∨
    ∃ p, LastAvailable sys t.realPath t.startH t.endH p ∧
      (chooseParking sys t).parkingNode = p ∧
      (sys.availableAtTime t.dest t.startH t.endH = true → p = t.dest) ∧
      ((chooseParking sys t).fallback = true ↔ p ≠ t.dest) := by
  obtain ⟨pre, hpath⟩ := List.getLast?_eq_some_iff.mp hlast
  rw [chooseParking]
  cases havail : sys.availableAtTime t.dest t.startH t.endH with
  | true =>
    rw [if_pos rfl]
    exact .inr ⟨t.dest, ⟨pre, [], hpath, havail, by simp⟩, rfl, fun _ => rfl, by simp⟩
  | false =>
    rw [if_neg (by simp)]
    rcases fallbackParking_cases sys t.realPath t.startH t.endH with
      ⟨hnone, hall⟩ | ⟨pre', p, post, hpath', hp, hpa, hpost⟩
    · exact .inl ⟨hall, hnone⟩
    · have hne : p ≠ t.dest := by
        rintro rfl
        rw [havail] at hpa
        exact absurd hpa (by simp)
      exact .inr ⟨p, ⟨pre', post, hpath', hpa, hpost⟩, hp, fun hc => absurd hc (by simp),
        by simp [hne]⟩

/-- No available node of a shortest path is nearer to its end than the last. -/
theorem LastAvailable.dist_le {sys : SmartParking D} {arc : ℤ → ℤ → ℤ → Prop}
    (hnonneg : ∀ u v w, arc u v w → 0 ≤ w) {src dest : ℤ} {path : List ℤ}
    (hshort : Shortest arc src path dest) {startH endH p id : ℤ}
    (hp : LastAvailable sys path startH endH p) (hid : id ∈ path)
    (havail : sys.availableAtTime id startH endH = true) {c d : ℤ} (hc : IsDist arc p dest c)
    (hd : IsDist arc id dest d) : c ≤ d := by
  obtain ⟨pre, post, rfl, _, hpost⟩ := hp
  rcases List.mem_append.mp hid with hid | hid
  · -- earlier on the path, hence at least as far from its end
    obtain ⟨a, b, rfl⟩ := List.append_of_mem hid
    rw [List.append_assoc, List.cons_append] at hshort
    exact hshort.dist_antitone hnonneg hd hc
  · rcases List.mem_cons.mp hid with rfl | hid
    · exact hc.2 hd.1
    · exact absurd havail (by simp [hpost id hid])

/-- A request with valid hours between two known nodes that are no ghosts and
that roads join, with the route the search finds. -/
structure Routed (sys : SmartParking D) (lines : List (ℤ × ℤ × ℤ)) (r : RouteRequest)
    (t : Trip) : Prop where
  road : sys.road = roadOf lines
  light : LightLines lines
  window : ValidWindow t.startH t.endH
  startH : hourParam r.sh 10 = .ok t.startH
  endH : hourParam r.eh 12 = .ok t.endH
  src : getId sys (r.s.getD []) = t.src
  dest : getId sys (r.e.getD []) = t.dest
  src_known : t.src ≠ -1
  dest_known : t.dest ≠ -1
  src_place : isPlace sys.nodes t.src = true
  dest_place : isPlace sys.nodes t.dest = true
  joined : ∃ p c, Walk (Road sys.nodes lines) t.src p t.dest c
  path : dijkstra sys.nodes t.src t.dest sys.road = .ok t.realPath
  visual : t.visualPath = buildVisualRoute sys.visualPaths t.realPath

/-- On a light road map the route found is a shortest road path. -/
theorem Trip.Found.shortest {sys : SmartParking D} {lines : List (ℤ × ℤ × ℤ)}
    {r : RouteRequest} {t : Trip} (h : t.Found sys r) (hroad : sys.road = roadOf lines)
    (hlight : LightLines lines) :
    Shortest (Road sys.nodes lines) t.src t.realPath t.dest ∧ t.realPath.Nodup := by
  obtain ⟨hsrc, hdest⟩ := places_of_dijkstra h.search h.nonempty
  rcases dijkstra_roadOf_cases hlight hsrc hdest (hroad ▸ h.search) with ⟨hnil, _⟩ | hshort
  · exact absurd hnil h.nonempty
  · exact hshort

theorem Routed.found {sys : SmartParking D} {lines : List (ℤ × ℤ × ℤ)} {r : RouteRequest}
    {t : Trip} (h : Routed sys lines r t) : t.Found sys r := by
  have hne : t.realPath ≠ [] := by
    rintro hnil
    rcases dijkstra_roadOf_cases h.light h.src_place h.dest_place (h.road ▸ h.path) with
      ⟨_, hnone⟩ | ⟨⟨c, hwalk, _⟩, _⟩
    · obtain ⟨p, c, hjoined⟩ := h.joined
      exact hnone p c hjoined
    · obtain ⟨q, hq⟩ := hwalk.exists_cons
      simp [hnil] at hq
  exact ⟨h.window, h.startH, h.endH, h.src, h.dest, h.src_known, h.dest_known, h.path, hne,
    h.visual⟩

/-- Three nodes in a row with a place in the middle, and a ghost. -/
def streetFile : Text := "1 A 0 0 0 0\n2 B 1 0 0 0\n3 C 0 0 0 0\n9 g 0 0 0 1\n".toList

def streetLines : List (ℤ × ℤ × ℤ) := [(1, 2, 1), (2, 3, 1)]

/-- The ghost is drawn between the first two nodes. -/
def street : SmartParking ℤ :=
  { start streetFile "1 2 1\n2 3 1\n".toList [] with visualPaths := addPath ∅ 1 2 [9] }

def streetTrip : Trip :=
  { startH := 10, endH := 12, src := 1, dest := 3, realPath := [1, 2, 3]
    visualPath := [1, 9, 2, 3] }

theorem road_street : street.road = roadOf streetLines := by
  have hlines : readAll readEdge "1 2 1\n2 3 1\n".toList = streetLines := by decide
  show loadGraph _ = _
  rw [loadGraph, hlines]

theorem lightLines_street : LightLines streetLines := ⟨by decide, by decide⟩

def fromAToC : RouteRequest := { s := some ['A'], e := some ['C'], sh := none, eh := none }

theorem routed_street : Routed street streetLines fromAToC streetTrip where
  road := road_street
  light := lightLines_street
  window := by unfold ValidWindow; decide
  startH := rfl
  endH := rfl
  src := by decide
  dest := by decide
  src_known := by decide
  dest_known := by decide
  src_place := by decide
  dest_place := by decide
  joined := by
    refine ⟨[1, 2, 3], 1 + (1 + 0), .cons (v := 2) ?_ (.cons (v := 3) ?_ (.nil 3))⟩
    · exact ⟨by decide, by decide, by decide⟩
    · exact ⟨by decide, by decide, by decide⟩
  path := by decide
  visual := by decide

/-- **The choice.**  The request is answered "no parking" exactly when no node of
the route is available or the last available one has the id -1; otherwise it is
given the last available node, which is nearest to the destination, and told so. -/
theorem parkingChoice [Zero D] {sys : SmartParking D} {lines : List (ℤ × ℤ × ℤ)}
    {r : RouteRequest} {t : Trip} (h : Routed sys lines r t) :
    ∃ sys' reply, route sys r = .ok (sys', reply) ∧
      (reply = noParking ↔
        (∀ id ∈ t.realPath, sys.availableAtTime id t.startH t.endH = false) ∨
          LastAvailable sys t.realPath t.startH t.endH (-1)) ∧
      (reply ≠ noParking → ∃ grant body c, reply = .success grant body ∧
        grant.Answers sys r ∧ body = grant.body sys.nodes ∧
        grant.parkingNode ∈ t.realPath ∧
        sys.availableAtTime grant.parkingNode t.startH t.endH = true ∧
        IsDist (Road sys.nodes lines) grant.parkingNode t.dest c ∧
        (∀ id ∈ t.realPath, sys.availableAtTime id t.startH t.endH = true →
          ∀ d, IsDist (Road sys.nodes lines) id t.dest d → c ≤ d) ∧
        (sys.availableAtTime t.dest t.startH t.endH = true → grant.parkingNode = t.dest) ∧
        (grant.fallback = true ↔ grant.parkingNode ≠ t.dest)) := by
  obtain ⟨hshort, _⟩ := h.found.shortest h.road h.light
  have hlast : t.realPath.getLast? = some t.dest := hshort.choose_spec.1.getLast?_eq
  have hroute := route_of_found h.found
  rcases chooseParking_cases sys hlast with ⟨hall, hnone⟩ | ⟨p, hp, hchoice, hdest, hfall⟩
  · rw [hroute, if_pos hnone]
    exact ⟨sys, noParking, rfl, ⟨fun _ => .inl hall, fun _ => rfl⟩, fun hc => absurd rfl hc⟩
  · by_cases hminus : p = -1
    · -- the id of the node chosen is read as "none"
      rw [hroute, hchoice, if_pos hminus]
      exact ⟨sys, noParking, rfl, ⟨fun _ => .inr (hminus ▸ hp), fun _ => rfl⟩,
        fun hc => absurd rfl hc⟩
    · obtain ⟨body, hresp⟩ := respond_eq (sys.reserveSlot p t.startH t.endH) t
        (chooseParking sys t)
      rw [hchoice, if_neg hminus, hresp] at hroute
      obtain ⟨_, hgranted⟩ := route_success hroute
      refine ⟨_, _, hroute, ⟨fun hc => absurd hc (by simp [noParking]), ?_⟩, fun _ => ?_⟩
      · rintro (hall | hlast')
        · obtain ⟨pre, post, hpath, hpa, _⟩ := hp
          exact absurd hpa (by simp [hall p (by simp [hpath])])
        · exact absurd (hp.unique hlast') hminus
      · obtain ⟨pre, post, hpath, hpa, _⟩ := id hp
        have hmem : p ∈ t.realPath := by simp [hpath]
        obtain ⟨c, hc⟩ := (Shortest.drop (hpath ▸ hshort)).exists_isDist
        refine ⟨_, body, c, rfl, hgranted.answers, body_of_route hroute, ?_, ?_, ?_, ?_, ?_, ?_⟩
        · rwa [Trip.grant, hchoice]
        · rwa [Trip.grant, hchoice]
        · rwa [Trip.grant, hchoice]
        · intro id hid havail d hd
          exact hp.dist_le (fun u v w => Road.nonneg h.light) hshort hid havail hc hd
        · rwa [Trip.grant, hchoice]
        · rwa [Trip.grant, hchoice]

theorem parkingChoice_street : ∃ sys' grant body,
    route street fromAToC = .ok (sys', .success grant body) ∧
      grant.Answers street fromAToC ∧ grant.parkingNode ∈ streetTrip.realPath ∧
      (grant.fallback = true ↔ grant.parkingNode ≠ 3) := by
  obtain ⟨sys', reply, hroute, hiff, hgrant⟩ := parkingChoice routed_street
  have hparking : reply ≠ noParking := by
    intro hc
    rcases hiff.mp hc with hall | ⟨pre, post, hpath, havail, _⟩
    · exact absurd (hall 2 (by decide)) (by decide)
    · have hmem : (-1 : ℤ) ∈ streetTrip.realPath := by simp [hpath]
      exact absurd hmem (by decide)
  obtain ⟨grant, body, _, rfl, hanswers, _, hmem, _, _, _, _, hfall⟩ := hgrant hparking
  exact ⟨sys', grant, body, hroute, hanswers, hmem, hfall⟩

/-! ### A node of id -1 -/

/-- Three nodes in a row; only the middle one, of id -1, has a place. -/
def rowFile : Text := "1 A 0 0 0 0\n-1 B 1 0 0 0\n2 C 0 0 0 0\n".toList

def rowLines : List (ℤ × ℤ × ℤ) := [(1, -1, 1), (-1, 2, 1)]

def row : SmartParking ℤ := start rowFile "1 -1 1\n-1 2 1\n".toList []

def rowTrip : Trip :=
  { startH := 10, endH := 12, src := 1, dest := 2, realPath := [1, -1, 2]
    visualPath := [1, -1, 2] }

theorem routed_row : Routed row rowLines fromAToC rowTrip where
  road := by
    have hlines : readAll readEdge "1 -1 1\n-1 2 1\n".toList = rowLines := by decide
    show loadGraph _ = _
    rw [loadGraph, hlines]
  light := ⟨by decide, by decide⟩
  window := by unfold ValidWindow; decide
  startH := rfl
  endH := rfl
  src := by decide
  dest := by decide
  src_known := by decide
  dest_known := by decide
  src_place := by decide
  dest_place := by decide
  joined := by
    refine ⟨[1, -1, 2], 1 + (1 + 0), .cons (v := -1) ?_ (.cons (v := 2) ?_ (.nil 2))⟩
    · exact ⟨by decide, by decide, by decide⟩
    · exact ⟨by decide, by decide, by decide⟩
  path := by decide
  visual := by decide

/-- The node in the middle has a free place in the whole window, and the request
is told that there is none. -/
theorem node_minus_one_unseen : ∃ r t, Routed row rowLines r t ∧
    (∃ id ∈ t.realPath, row.availableAtTime id t.startH t.endH = true) ∧
    (route row r).map Prod.snd = .ok noParking :=
  ⟨fromAToC, rowTrip, routed_row, ⟨-1, by decide, by decide⟩, by decide⟩

/-! ### The path displayed -/

/-- The test `nodes.count(id) && nodes.at(id).ghost`. -/
def isGhost (nodes : Map ℤ (Node D)) (id : ℤ) : Bool := (nodes[id]?.map Node.ghost).getD false

theorem isGhost_of_isPlace {nodes : Map ℤ (Node D)} {id : ℤ} (h : isPlace nodes id = true) :
    isGhost nodes id = false := by
  obtain ⟨n, hn, hghost⟩ := isPlace_iff.mp h
  rw [isGhost, hn, Option.map_some, Option.getD_some, hghost]

/-- Every id in the table of ghosts is a ghost. -/
def GhostTable (sys : SmartParking D) : Prop :=
  ∀ (k : ℤ ×ₗ ℤ) (ids : List ℤ), sys.visualPaths[k]? = some ids →
    ∀ id ∈ ids, isGhost sys.nodes id = true

theorem GhostTable.getD {sys : SmartParking D} (h : GhostTable sys) (k : ℤ ×ₗ ℤ) :
    ∀ id ∈ sys.visualPaths.getD k [], isGhost sys.nodes id = true := by
  intro id hid
  rw [getD_eq] at hid
  cases hk : sys.visualPaths[k]? with
  | none => simp [hk] at hid
  | some ids =>
    rw [hk, Option.getD_some] at hid
    exact h k ids hk id hid

/-- The expansion of a route starts where the route starts. -/
theorem head?_buildVisualRoute (visualPaths : VisualPaths) (path : List ℤ) :
    (buildVisualRoute visualPaths path).head? = path.head? := by
  fun_cases buildVisualRoute visualPaths path <;> rfl

/-- Cutting a route at one of its nodes cuts its expansion there. -/
theorem buildVisualRoute_append (visualPaths : VisualPaths) (pre : List ℤ) (p : ℤ)
    (post : List ℤ) :
    ∃ rest, buildVisualRoute visualPaths (pre ++ p :: post) =
        buildVisualRoute visualPaths (pre ++ [p]) ++ rest ∧
      (buildVisualRoute visualPaths (pre ++ [p])).getLast? = some p := by
  induction pre with
  | nil =>
    cases post with
    | nil => exact ⟨[], rfl, rfl⟩
    | cons b post => exact ⟨_, rfl, rfl⟩
  | cons a pre ih =>
    obtain ⟨rest, happ, hlast⟩ := ih
    -- one node further to the left, whatever the next node is
    obtain ⟨b, bs, hcut, hfull⟩ : ∃ b bs, pre ++ [p] = b :: bs ∧
        pre ++ p :: post = b :: (bs ++ post) := by
      cases pre with
      | nil => exact ⟨p, [], rfl, rfl⟩
      | cons b pre => exact ⟨b, pre ++ [p], rfl, by simp⟩
    rw [hfull, hcut] at happ
    rw [hcut] at hlast
    rw [List.cons_append, List.cons_append, hfull, hcut]
    refine ⟨rest, ?_, ?_⟩
    · rw [buildVisualRoute, buildVisualRoute, happ, List.cons_append, List.append_assoc]
    · rw [buildVisualRoute, ← List.cons_append, List.getLast?_append, hlast, Option.some_or]

/-- Removing the ghosts from the expansion of a route gives the route back. -/
theorem filter_buildVisualRoute {sys : SmartParking D} (hg : GhostTable sys) (path : List ℤ)
    (hplaces : ∀ id ∈ path, isPlace sys.nodes id = true) :
    (buildVisualRoute sys.visualPaths path).filter (fun id => !isGhost sys.nodes id) = path := by
  fun_induction buildVisualRoute sys.visualPaths path with
  | case1 => rfl
  | case2 a => simp [isGhost_of_isPlace (hplaces a (by simp))]
  | case3 a b rest ih =>
    have hghosts : (sys.visualPaths.getD (toLex (a, b)) []).filter
        (fun id => !isGhost sys.nodes id) = [] := by
      rw [List.filter_eq_nil_iff]
      intro id hid
      simp [hg.getD _ id hid]
    rw [List.filter_cons, List.filter_append, hghosts, List.nil_append,
      ih fun id hid => hplaces id (List.mem_cons_of_mem _ hid)]
    simp [isGhost_of_isPlace (hplaces a (by simp))]

/-- The cut of the handler, at a node that occurs once. -/
theorem trimRoute_append {p : ℤ} {pre : List ℤ} (hp : p ∉ pre) (post : List ℤ) :
    trimRoute p (pre ++ p :: post) = pre ++ [p] := by
  induction pre with
  | nil => simp [trimRoute]
  | cons a pre ih =>
    have ha : a ≠ p := fun hc => hp (by simp [hc])
    rw [List.cons_append, trimRoute, if_neg ha, ih fun hc => hp (List.mem_cons_of_mem _ hc),
      List.cons_append]

/-- Whichever branch the handler takes, it displays the expansion of the route up
to the parking node. -/
theorem displayPath_eq {sys : SmartParking D} {r : RouteRequest} {t : Trip} (h : t.Found sys r)
    (hnodup : t.realPath.Nodup) (hlast : t.realPath.getLast? = some t.dest)
    (hp : (chooseParking sys t).parkingNode ≠ -1) :
    ∃ pre post, t.realPath = pre ++ (chooseParking sys t).parkingNode :: post ∧
      displayPath sys t (chooseParking sys t) =
        buildVisualRoute sys.visualPaths (pre ++ [(chooseParking sys t).parkingNode]) := by
  rcases chooseParking_cases sys hlast with ⟨_, hnone⟩ | ⟨p, hlastp, hchoice, _, hfall⟩
  · exact absurd hnone hp
  · obtain ⟨pre, post, hpath, _, _⟩ := hlastp
    rw [hchoice]
    refine ⟨pre, post, hpath, ?_⟩
    rw [displayPath, hchoice]
    by_cases hdest : p = t.dest
    · -- the destination occurs once, so nothing comes after it
      have hpost : post = [] := by
        rw [hpath, List.getLast?_append, List.getLast?_cons] at hlast
        cases hpl : post.getLast? with
        | none => exact List.getLast?_eq_none_iff.mp hpl
        | some x =>
          have hx : x = p := by
            rw [hdest]
            simpa [hpl] using hlast
          have hmem : p ∈ post := hx ▸ List.mem_of_getLast? hpl
          rw [hpath, List.nodup_append] at hnodup
          exact absurd hmem (List.nodup_cons.mp hnodup.2.1).1
      rw [if_neg fun hc => hc.2 hdest, h.visual, hpath, hpost]
    · have hpre : p ∉ pre := by
        intro hc
        rw [hpath, List.nodup_append] at hnodup
        exact hnodup.2.2 p hc p (by simp) rfl
      rw [if_pos ⟨hfall.mpr hdest, hdest⟩, hpath, trimRoute_append hpre]

/-- **The path displayed** starts at the source asked for, ends at the node reserved, is
a prefix of the expansion of the whole route, and without its ghosts is a shortest
road path that repeats no node; the client is told of it point by point. -/
theorem displayPath_shortest [Zero D] {sys sys' : SmartParking D} {lines : List (ℤ × ℤ × ℤ)}
    (hg : GhostTable sys) (hroad : sys.road = roadOf lines) (hlight : LightLines lines)
    {r : RouteRequest} {grant : Grant} {body : RouteBody D}
    (h : route sys r = .ok (sys', .success grant body)) :
    grant.Answers sys r ∧ body = grant.body sys.nodes ∧
      dijkstra sys.nodes grant.src grant.dest sys.road = .ok grant.realPath ∧
      grant.displayPath.head? = some grant.src ∧
      grant.displayPath.getLast? = some grant.parkingNode ∧
      grant.displayPath <+: buildVisualRoute sys.visualPaths grant.realPath ∧
      Shortest (Road sys.nodes lines) grant.src
        (grant.displayPath.filter fun id => !isGhost sys.nodes id) grant.parkingNode ∧
      (grant.displayPath.filter fun id => !isGhost sys.nodes id).Nodup := by
  obtain ⟨t, hgrant⟩ := route_success h
  obtain ⟨hshort, hnodup⟩ := hgrant.found.shortest hroad hlight
  obtain ⟨c, hwalk, _⟩ := id hshort
  obtain ⟨q, hq⟩ := hwalk.exists_cons
  have hparking := hgrant.parking
  refine ⟨hgrant.answers, body_of_route h, ?_⟩
  rw [hgrant.grant_eq] at hparking ⊢
  obtain ⟨pre, post, hpath, hdisplay⟩ :=
    displayPath_eq hgrant.found hnodup hwalk.getLast?_eq hparking
  simp only [Trip.grant, hdisplay]
  obtain ⟨rest, happ, hlast⟩ := buildVisualRoute_append sys.visualPaths pre
    (chooseParking sys t).parkingNode post
  have hfilter : (buildVisualRoute sys.visualPaths
      (pre ++ [(chooseParking sys t).parkingNode])).filter (fun id => !isGhost sys.nodes id) =
        pre ++ [(chooseParking sys t).parkingNode] := by
    refine filter_buildVisualRoute hg _ fun id hid => hgrant.found.places id ?_
    rw [hpath]
    rcases List.mem_append.mp hid with hid | hid
    · exact List.mem_append_left _ hid
    · rw [List.mem_singleton.mp hid]
      simp
  rw [hfilter]
  refine ⟨hgrant.found.search, ?_, hlast, ⟨rest, by rw [hpath, happ]⟩, ?_, ?_⟩
  · -- the cut route starts where the whole one does
    have hhead : (pre ++ [(chooseParking sys t).parkingNode]).head? = t.realPath.head? := by
      rw [hpath]
      cases pre <;> rfl
    rw [head?_buildVisualRoute, hhead, hq]
    rfl
  · exact (hpath ▸ hshort).take
  · rw [hpath] at hnodup
    refine hnodup.sublist (List.Sublist.append_left ?_ pre)
    exact List.Sublist.cons_cons _ (List.nil_sublist post)

theorem ghostTable_street : GhostTable street := by
  have hall : ∀ p ∈ street.visualPaths.toList, ∀ id ∈ p.2, isGhost street.nodes id = true := by
    decide
  intro k ids hk
  exact hall (k, ids) (Std.ExtTreeMap.mem_toList_iff_getElem?_eq_some.mpr hk)

theorem displayPath_shortest_street : ∃ sys' grant body,
    route street fromAToC = .ok (sys', .success grant body) ∧ grant.displayPath = [1, 9, 2] ∧
      body = grant.body street.nodes ∧
      Shortest (Road street.nodes streetLines) grant.src
        (grant.displayPath.filter fun id => !isGhost street.nodes id) grant.parkingNode := by
  obtain ⟨sys', grant, body, hroute, hpath⟩ := exists_success (route street fromAToC)
    (fun grant => grant.displayPath = [1, 9, 2]) (by decide)
  obtain ⟨_, hbody, _, _, _, _, hshort, _⟩ :=
    displayPath_shortest ghostTable_street road_street lightLines_street hroute
  exact ⟨sys', grant, body, hroute, by simpa using hpath, hbody, hshort⟩

end SmartParking
