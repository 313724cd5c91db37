/-
The handlers of `Server.cpp` for `/route`, `/update` and `/nodes`.

A handler is cut at its calls into the shared tables: what it does up to the
route (`routeEnter`), the choice of the parking node (`chooseParking`), the
reservation, and the drawing of the reply (`respond`).  Reading `sys.nodes[id]`
goes through `operator[]`, so drawing may create nodes (`drawPath`).

The reply to a granted request carries the local variables of the handler
(`Grant`) beside what the client sees (`RouteBody`): the client is told the name
of the parking node only.

* `routeEnter_trip` — what holds once a route has been found;
* `chooseParking_available` — a node that is granted is available;
* `respond_eq`, `respond_body` — drawing changes the node table only, and always grants;
  what the client is told follows from the locals and the nodes (`Grant.body`);
* `route_cases` — a request is refused and changes nothing, or is `Granted`, and then
  answered as it was asked (`Grant.Answers`).
-/
import SmartParking.Booking
import SmartParking.Search

open StdMap TextStream

namespace SmartParking

variable {D : Type}

/-! ### Requests and replies -/

/-- The parameters of `/route`; `none` where the URL has none. -/
structure RouteRequest where
  s : Option Text
  e : Option Text
  sh : Option Text
  eh : Option Text
  deriving DecidableEq

/-- The parameters of `/update`. -/
structure UpdateRequest where
  idParam : Option Text
  capParam : Option Text
  deriving DecidableEq

inductive Request
  | route (r : RouteRequest)
  | update (r : UpdateRequest)
  | nodes
  deriving DecidableEq

/-- An element of `res["path"]`. -/
structure PathPoint (D : Type) where
  x : D
  y : D
  ghost : Bool
  deriving DecidableEq

/-- `res["transport"]`: from the parking node to the destination. -/
structure Transfer (D : Type) where
  x₀ : D
  y₀ : D
  x₁ : D
  y₁ : D
  deriving DecidableEq

/-- The body of the reply to a granted request. -/
structure RouteBody (D : Type) where
  path : List (PathPoint D)
  transport : Option (Transfer D)
  fallback : Bool
  parkingNode : Text
  deriving DecidableEq

/-- The local variables of the `/route` handler when it returns a route. -/
structure Grant where
  startH : ℤ
  endH : ℤ
  src : ℤ
  dest : ℤ
  realPath : List ℤ
  fallback : Bool
  parkingNode : ℤ
  displayPath : List ℤ
  deriving DecidableEq

/-- An exception of `stoi` leaves the handler and is answered by the framework. -/
inductive RouteReply (D : Type)
  | threw (e : StoiError)
  | error (message : String)
  | success (grant : Grant) (body : RouteBody D)
  deriving DecidableEq

inductive UpdateReply
  | threw (e : StoiError)
  | error (message : String)
  | success (id cap : ℤ)
  deriving DecidableEq

/-- An element of the reply to `/nodes`. -/
structure NodeView (D : Type) where
  id : ℤ
  name : Text
  capacity : ℤ
  x : D
  y : D
  available : ℤ
  deriving DecidableEq

inductive Reply (D : Type)
  | route (reply : RouteReply D)
  | update (reply : UpdateReply)
  | nodes (views : List (NodeView D))
  deriving DecidableEq

/-! ### `/route` -/

/-- `buildVisualRoute`: between two nodes of the route, the ghosts of the table. -/
def buildVisualRoute (visualPaths : VisualPaths) : List ℤ → List ℤ
  | [] => []
  | [a] => [a]
  | a :: b :: rest =>
    a :: (visualPaths.getD (toLex (a, b)) [] ++ buildVisualRoute visualPaths (b :: rest))

/-- The local variables of the handler once a route has been found. -/
structure Trip where
  startH : ℤ
  endH : ℤ
  src : ℤ
  dest : ℤ
  realPath : List ℤ
  visualPath : List ℤ
  deriving DecidableEq

/-- `sh ? stoi(sh) : 10`, with the default as a parameter. -/
def hourParam (param : Option Text) (default : ℤ) : Except StoiError ℤ :=
  match param with
  | none => .ok default
  | some t => stoi t

/-- The handler up to `buildVisualRoute`: a reply, or the trip to find parking for. -/
def routeEnter (sys : SmartParking D) (r : RouteRequest) :
    Except Halt (RouteReply D ⊕ Trip) :=
  match hourParam r.sh 10 with
  -- `stoi` is not guarded: its exception leaves the handler
  | .error e => .ok (.inl (.threw e))
  | .ok startH =>
    match hourParam r.eh 12 with
    | .error e => .ok (.inl (.threw e))
    | .ok endH =>
      if startH < 0 ∨ endH > 24 ∨ startH ≥ endH then
        .ok (.inl (.error "Invalid hours. startH must be < endH, both in [0,24]"))
      else
        -- a missing name becomes the empty string, which no node need have
        let src := getId sys (r.s.getD [])
        let dest := getId sys (r.e.getD [])
        if src = -1 ∨ dest = -1 then .ok (.inl (.error "Invalid node names"))
        else
          match dijkstra sys.nodes src dest sys.road with
          | .error halt => .error halt
          | .ok realPath =>
            if realPath = [] then
              .ok (.inl (.error "No route found between these locations"))
            else
              .ok (.inr
                { startH := startH, endH := endH, src := src, dest := dest, realPath := realPath
                  visualPath := buildVisualRoute sys.visualPaths realPath })

/-- The variables `fallback` and `parkingNode`. -/
structure Choice where
  fallback : Bool
  parkingNode : ℤ
  deriving DecidableEq

/-- The test of the destination and, failing that, the scan of the route. -/
def chooseParking (sys : SmartParking D) (t : Trip) : Choice :=
  if sys.availableAtTime t.dest t.startH t.endH then { fallback := false, parkingNode := t.dest }
  else
    { fallback := true
      parkingNode := sys.fallbackParking t.realPath t.startH t.endH }

/-- `trimmedReal`: the route up to the parking node. -/
def trimRoute (parkingNode : ℤ) : List ℤ → List ℤ
  | [] => []
  | id :: ids => if id = parkingNode then [id] else id :: trimRoute parkingNode ids

def displayPath (sys : SmartParking D) (t : Trip) (c : Choice) : List ℤ :=
  if c.fallback = true ∧ c.parkingNode ≠ t.dest then
    buildVisualRoute sys.visualPaths (trimRoute c.parkingNode t.realPath)
  else t.visualPath

/-- The loop that fills `res["path"]`, reading `sys.nodes[id]` for each id. -/
def drawPath [Zero D] (nodes : Map ℤ (Node D)) : List ℤ → List (PathPoint D) × Map ℤ (Node D)
  | [] => ([], nodes)
  | id :: ids =>
    let (n, nodes) := bracket nodes id
    let (path, nodes) := drawPath nodes ids
    ({ x := n.x, y := n.y, ghost := n.ghost } :: path, nodes)

/-- `res["transport"]`; a second access to one id finds what the first created. -/
def drawTransfer [Zero D] (nodes : Map ℤ (Node D)) (parkingNode dest : ℤ) :
    Transfer D × Map ℤ (Node D) :=
  let (p, nodes) := bracket nodes parkingNode
  let (d, nodes) := bracket nodes dest
  ({ x₀ := p.x, y₀ := p.y, x₁ := d.x, y₁ := d.y }, nodes)

/-- The end of the handler, after `reserveSlot`. -/
def respond [Zero D] (sys : SmartParking D) (t : Trip) (c : Choice) :
    SmartParking D × RouteReply D :=
  let display := displayPath sys t c
  let (path, nodes) := drawPath sys.nodes display
  let (transport, nodes) :=
    if c.fallback then
      let (transfer, nodes) := drawTransfer nodes c.parkingNode t.dest
      (some transfer, nodes)
    else (none, nodes)
  -- `res["parkingNode"] = sys.nodes[parkingNode].name`
  let (n, nodes) := bracket nodes c.parkingNode
  ({ sys with nodes := nodes },
    .success
      { startH := t.startH, endH := t.endH, src := t.src, dest := t.dest
        realPath := t.realPath, fallback := c.fallback, parkingNode := c.parkingNode
        displayPath := display }
      { path := path, transport := transport, fallback := c.fallback, parkingNode := n.name })

/-- The reply when no node of the route is available. -/
def noParking : RouteReply D := .error "No parking available near your destination"

/-- The `/route` handler. -/
def route [Zero D] (sys : SmartParking D) (r : RouteRequest) :
    Except Halt (SmartParking D × RouteReply D) :=
  match routeEnter sys r with
  | .error halt => .error halt
  | .ok (.inl reply) => .ok (sys, reply)
  | .ok (.inr t) =>
    let c := chooseParking sys t
    if c.parkingNode = -1 then .ok (sys, noParking)
    else .ok (respond (sys.reserveSlot c.parkingNode t.startH t.endH) t c)

/-! ### `/update` and `/nodes` -/

/-- The `/update` handler up to `updateCapacity`: a reply, or the id and capacity. -/
def updateEnter (sys : SmartParking D) (r : UpdateRequest) : UpdateReply ⊕ ℤ × ℤ :=
  match r.idParam, r.capParam with
  | some idText, some capText =>
    match stoi idText with
    | .error e => .inl (.threw e)
    | .ok id =>
      match stoi capText with
      | .error e => .inl (.threw e)
      | .ok cap =>
        if cap < 0 then .inl (.error "Capacity cannot be negative")
        else
          match sys.nodes[id]? with
          | none => .inl (.error "Node not found")
          | some n =>
            if n.ghost then .inl (.error "Cannot update ghost node") else .inr (id, cap)
  | _, _ => .inl (.error "Missing id or cap parameter")

/-- The `/update` handler. -/
def update [StreamDouble D] (sys : SmartParking D) (r : UpdateRequest) :
    SmartParking D × UpdateReply :=
  match updateEnter sys r with
  | .inl reply => (sys, reply)
  | .inr (id, cap) => (sys.updateCapacity id cap, .success id cap)

/-- The `/nodes` handler: the places, with what is free at ten o'clock. -/
def nodeViews (sys : SmartParking D) : List (NodeView D) :=
  (sys.nodes.toList.filter fun p => !p.2.ghost).map fun p =>
    { id := p.2.id, name := p.2.name, capacity := p.2.capacity, x := p.2.x, y := p.2.y
      available := slotAt sys.slots p.2.id 10 }

/-- One request served alone. -/
def handle [StreamDouble D] (sys : SmartParking D) :
    Request → Except Halt (SmartParking D × Reply D)
  | .route r => (route sys r).map fun p => (p.1, .route p.2)
  | .update r => .ok ((update sys r).1, .update (update sys r).2)
  | .nodes => .ok (sys, .nodes (nodeViews sys))

/-! ### The phases of `/route` -/

/-- What is known of a trip: its window is valid and its route is the search's. -/
structure Trip.Found (sys : SmartParking D) (r : RouteRequest) (t : Trip) : Prop where
  window : ValidWindow t.startH t.endH
  startH : hourParam r.sh 10 = .ok t.startH
  endH : hourParam r.eh 12 = .ok t.endH
  src : getId sys (r.s.getD []) = t.src
  dest : getId sys (r.e.getD []) = t.dest
  src_known : t.src ≠ -1
  dest_known : t.dest ≠ -1
  search : dijkstra sys.nodes t.src t.dest sys.road = .ok t.realPath
  nonempty : t.realPath ≠ []
  visual : t.visualPath = buildVisualRoute sys.visualPaths t.realPath

theorem routeEnter_trip {sys : SmartParking D} {r : RouteRequest} {t : Trip} :
    routeEnter sys r = .ok (.inr t) ↔ t.Found sys r := by
  constructor
  · fun_cases routeEnter sys r with
    | case7 startH hs endH he hw src dest hid path hpath hne =>
      -- the one way through all the tests of the handler
      intro h
      simp only [Except.ok.injEq, Sum.inr.injEq] at h
      subst h
      exact ⟨validWindow_iff.mpr hw, hs, he, rfl, rfl, fun hc => hid (.inl hc),
        fun hc => hid (.inr hc), hpath, hne, rfl⟩
    | _ => simp
  · intro h
    obtain ⟨hw, hs, he, hsrc, hdest, hsrc1, hdest1, hpath, hne, hvis⟩ := h
    rw [routeEnter, hs, he]
    simp only [hsrc, hdest, if_neg (validWindow_iff.mp hw), not_or.mpr ⟨hsrc1, hdest1⟩,
      if_false, hpath, hne]
    rw [← hvis]

/-- No early reply grants anything. -/
theorem routeEnter_reply {sys : SmartParking D} {r : RouteRequest} {reply : RouteReply D}
    (h : routeEnter sys r = .ok (.inl reply)) : ∀ grant body, reply ≠ .success grant body := by
  rintro grant body rfl
  revert h
  fun_cases routeEnter sys r <;> simp

theorem Trip.Found.places {sys : SmartParking D} {r : RouteRequest} {t : Trip}
    (h : t.Found sys r) : ∀ id ∈ t.realPath, isPlace sys.nodes id = true :=
  mem_dijkstra_place h.search

theorem Trip.Found.dest_place {sys : SmartParking D} {r : RouteRequest} {t : Trip}
    (h : t.Found sys r) : isPlace sys.nodes t.dest = true :=
  (places_of_dijkstra h.search h.nonempty).2

theorem Trip.Found.getLast? {sys : SmartParking D} {r : RouteRequest} {t : Trip}
    (h : t.Found sys r) : t.realPath.getLast? = some t.dest :=
  getLast?_dijkstra h.search h.nonempty

/-- A node that is granted is available at the time of the choice. -/
theorem chooseParking_available {sys : SmartParking D} {t : Trip}
    (h : (chooseParking sys t).parkingNode ≠ -1) :
    sys.availableAtTime (chooseParking sys t).parkingNode t.startH t.endH = true := by
  rw [chooseParking] at h ⊢
  split at h
  · rename_i havail
    rw [if_pos havail]
    exact havail
  · rename_i havail
    rw [if_neg havail]
    rcases fallbackParking_cases sys t.realPath t.startH t.endH with
      ⟨hnone, _⟩ | ⟨_, p, _, _, hp, havail', _⟩
    · exact absurd hnone h
    · rw [hp]
      exact havail'

/-! ### The phases of `/update` -/

/-- `/update` replies at once, and then with no success, or it has checked the id
and the capacity. -/
theorem updateEnter_cases (sys : SmartParking D) (r : UpdateRequest) :
    (∃ reply, updateEnter sys r = .inl reply ∧ ∀ id cap, reply ≠ .success id cap) ∨
      ∃ id cap n, updateEnter sys r = .inr (id, cap) ∧ sys.nodes[id]? = some n ∧
        n.ghost = false ∧ 0 ≤ cap ∧ IsInt cap := by
  fun_cases updateEnter sys r with
  | case6 _ _ _ _ id _ cap hcap hneg n hn hghost =>
    exact .inr ⟨id, cap, n, rfl, hn, by simpa using hghost, by omega, isInt_of_stoi hcap⟩
  | _ => exact .inl ⟨_, rfl, by simp⟩

/-- What `/update` has checked before it changes a capacity. -/
theorem updateEnter_inr {sys : SmartParking D} {r : UpdateRequest} {id cap : ℤ}
    (h : updateEnter sys r = .inr (id, cap)) :
    ∃ n, sys.nodes[id]? = some n ∧ n.ghost = false ∧ 0 ≤ cap ∧ IsInt cap := by
  rcases updateEnter_cases sys r with ⟨reply, hu, _⟩ | ⟨id', cap', n, hu, hchecked⟩
  · simp [hu] at h
  · rw [hu, Sum.inr.injEq, Prod.mk.injEq] at h
    obtain ⟨rfl, rfl⟩ := h
    exact ⟨n, hchecked⟩

/-! ### Drawing -/

/-- The ids of which `respond` reads the nodes. -/
def drawnIds (sys : SmartParking D) (t : Trip) (c : Choice) : List ℤ :=
  displayPath sys t c ++ (if c.fallback then [c.parkingNode, t.dest] else []) ++ [c.parkingNode]

/-- The path displayed depends on the table of ghosts, not on slots or nodes. -/
theorem displayPath_congr {sys sys' : SmartParking D} (h : sys'.visualPaths = sys.visualPaths)
    (t : Trip) (c : Choice) : displayPath sys' t c = displayPath sys t c := by
  rw [displayPath, displayPath, h]

/-- The locals of the handler in the reply. -/
def Trip.grant (t : Trip) (sys : SmartParking D) (c : Choice) : Grant :=
  { startH := t.startH, endH := t.endH, src := t.src, dest := t.dest, realPath := t.realPath
    fallback := c.fallback, parkingNode := c.parkingNode, displayPath := displayPath sys t c }

/-- What is drawn of a node. -/
def Node.point (n : Node D) : PathPoint D := { x := n.x, y := n.y, ghost := n.ghost }

section draw
variable [Zero D]

/-- The point drawn for an id; a node that is missing is drawn at the origin. -/
def pointAt (nodes : Map ℤ (Node D)) (id : ℤ) : PathPoint D := (nodes.getD id default).point

/-- What the client is told of a grant. -/
def Grant.body (grant : Grant) (nodes : Map ℤ (Node D)) : RouteBody D :=
  { path := grant.displayPath.map (pointAt nodes)
    transport := if grant.fallback then
        some { x₀ := (pointAt nodes grant.parkingNode).x, y₀ := (pointAt nodes grant.parkingNode).y
               x₁ := (pointAt nodes grant.dest).x, y₁ := (pointAt nodes grant.dest).y }
      else none
    fallback := grant.fallback
    parkingNode := (nodes.getD grant.parkingNode default).name }

theorem drawPath_fst (ids : List ℤ) : ∀ nodes : Map ℤ (Node D),
    (drawPath nodes ids).1 = ids.map (pointAt nodes) := by
  induction ids with
  | nil => exact fun nodes => rfl
  | cons id ids ih =>
    intro nodes
    have hrest : pointAt (bracket nodes id).2 = pointAt nodes :=
      funext fun id' => congrArg Node.point (getD_bracket nodes id id')
    show pointAt nodes id :: (drawPath (bracket nodes id).2 ids).1 = _
    rw [ih, hrest]
    rfl

theorem drawPath_snd (ids : List ℤ) : ∀ nodes : Map ℤ (Node D),
    (drawPath nodes ids).2 = touchAll nodes ids := by
  induction ids with
  | nil => exact fun nodes => rfl
  | cons id ids ih => exact fun nodes => ih (bracket nodes id).2

/-- Drawing reads nodes, creating the missing ones, and always grants. -/
theorem respond_eq (sys : SmartParking D) (t : Trip) (c : Choice) :
    ∃ body, respond sys t c =
      ({ sys with nodes := touchAll sys.nodes (drawnIds sys t c) },
        .success (t.grant sys c) body) := by
  obtain ⟨fallback, parkingNode⟩ := c
  have hdraw := drawPath_snd (displayPath sys t ⟨fallback, parkingNode⟩) sys.nodes
  rw [respond, drawnIds, touchAll_append, touchAll_append, ← hdraw]
  cases fallback with
  | false => exact ⟨_, rfl⟩
  | true => exact ⟨_, rfl⟩

/-- The reply to a request granted, point by point. -/
theorem respond_body (sys : SmartParking D) (t : Trip) (c : Choice) :
    (respond sys t c).2 = .success (t.grant sys c) ((t.grant sys c).body sys.nodes) := by
  obtain ⟨fallback, parkingNode⟩ := c
  have htouched := drawPath_snd (displayPath sys t ⟨fallback, parkingNode⟩) sys.nodes
  cases fallback with
  | false =>
    simp only [respond, drawPath_fst, htouched, bracket, getD_touchAll, Bool.false_eq_true,
      if_false]
    rfl
  | true =>
    have hagain : ∀ (nodes : Map ℤ (Node D)) (k k' : ℤ),
        (nodes.insertIfNew k default).getD k' default = nodes.getD k' default := getD_bracket
    simp only [respond, drawPath_fst, htouched, drawTransfer, bracket, hagain, getD_touchAll,
      if_true]
    rfl

end draw

/-! ### A granted request -/

/-- What a granted request does: the trip and choice it made, the reservation,
and the nodes it touched when drawing. -/
structure Granted [Zero D] (sys : SmartParking D) (r : RouteRequest) (sys' : SmartParking D)
    (grant : Grant) (t : Trip) : Prop where
  found : t.Found sys r
  parking : grant.parkingNode ≠ -1
  grant_eq : grant = t.grant sys (chooseParking sys t)
  available : sys.availableAtTime grant.parkingNode grant.startH grant.endH = true
  state : sys' =
    { sys.reserveSlot grant.parkingNode grant.startH grant.endH with
      nodes := touchAll sys.nodes (drawnIds sys t (chooseParking sys t)) }

/-- The grant is for the hours and the places that the request names. -/
structure Grant.Answers (grant : Grant) (sys : SmartParking D) (r : RouteRequest) : Prop where
  startH : hourParam r.sh 10 = .ok grant.startH
  endH : hourParam r.eh 12 = .ok grant.endH
  src : getId sys (r.s.getD []) = grant.src
  dest : getId sys (r.e.getD []) = grant.dest

/-- **The cases of `/route`.**  A request is refused and nothing changes, or it
is granted. -/
theorem route_cases [Zero D] {sys sys' : SmartParking D} {r : RouteRequest}
    {reply : RouteReply D} (h : route sys r = .ok (sys', reply)) :
    (sys' = sys ∧ ∀ grant body, reply ≠ .success grant body) ∨
      ∃ grant body t, reply = .success grant body ∧ Granted sys r sys' grant t := by
  rw [route] at h
  split at h
  · simp at h
  · rename_i reply' henter
    simp only [Except.ok.injEq, Prod.mk.injEq] at h
    obtain ⟨rfl, rfl⟩ := h
    exact .inl ⟨rfl, routeEnter_reply henter⟩
  · rename_i t henter
    dsimp only at h
    split at h
    · simp only [Except.ok.injEq, Prod.mk.injEq] at h
      obtain ⟨rfl, rfl⟩ := h
      exact .inl ⟨rfl, by simp [noParking]⟩
    · rename_i hp
      generalize hc : chooseParking sys t = c at h hp
      have havail : sys.availableAtTime c.parkingNode t.startH t.endH = true := by
        rw [← hc]
        exact chooseParking_available (hc ▸ hp)
      obtain ⟨body, hresp⟩ := respond_eq (sys.reserveSlot c.parkingNode t.startH t.endH) t c
      rw [hresp] at h
      simp only [Except.ok.injEq, Prod.mk.injEq] at h
      obtain ⟨rfl, rfl⟩ := h
      -- drawing reads none of what the reservation changes
      have hdisplay := displayPath_congr
        (visualPaths_reserveSlot sys c.parkingNode t.startH t.endH) t c
      refine .inr ⟨_, body, t, rfl, routeEnter_trip.mp henter, hp, ?_, havail, ?_⟩
      · rw [hc, Trip.grant, Trip.grant, hdisplay]
      · rw [hc, drawnIds, drawnIds, hdisplay, nodes_reserveSlot]
        rfl

/-- The handler once a route has been found. -/
theorem route_of_found [Zero D] {sys : SmartParking D} {r : RouteRequest} {t : Trip}
    (h : t.Found sys r) : route sys r =
      if (chooseParking sys t).parkingNode = -1 then .ok (sys, noParking)
      else .ok (respond (sys.reserveSlot (chooseParking sys t).parkingNode t.startH t.endH) t
        (chooseParking sys t)) := by
  rw [route, routeEnter_trip.mpr h]

theorem route_success [Zero D] {sys sys' : SmartParking D} {r : RouteRequest} {grant : Grant}
    {body : RouteBody D} (h : route sys r = .ok (sys', .success grant body)) :
    ∃ t, Granted sys r sys' grant t := by
  rcases route_cases h with ⟨_, hno⟩ | ⟨grant', body', t, heq, hg⟩
  · exact absurd rfl (hno grant body)
  · obtain ⟨rfl, rfl⟩ := RouteReply.success.inj heq
    exact ⟨t, hg⟩

/-- The body drawn after the reservation is that of the nodes before it. -/
theorem body_of_route [Zero D] {sys sys' : SmartParking D} {r : RouteRequest} {grant : Grant}
    {body : RouteBody D} (h : route sys r = .ok (sys', .success grant body)) :
    body = grant.body sys.nodes := by
  obtain ⟨t, hg⟩ := route_success h
  have hp : (chooseParking sys t).parkingNode ≠ -1 := by
    have := hg.parking
    rwa [hg.grant_eq] at this
  rw [route_of_found hg.found, if_neg hp] at h
  have hbody := congrArg Prod.snd (Except.ok.inj h)
  rw [respond_body, nodes_reserveSlot] at hbody
  obtain ⟨rfl, rfl⟩ := RouteReply.success.inj hbody
  rfl

section granted
variable [Zero D] {sys sys' : SmartParking D} {r : RouteRequest} {grant : Grant} {t : Trip}

theorem Granted.answers (h : Granted sys r sys' grant t) : grant.Answers sys r := by
  rw [h.grant_eq]
  exact ⟨h.found.startH, h.found.endH, h.found.src, h.found.dest⟩

theorem Granted.window (h : Granted sys r sys' grant t) :
    ValidWindow grant.startH grant.endH := (availableAtTime_iff.mp h.available).1

theorem Granted.slots (h : Granted sys r sys' grant t) :
    sys'.slots = (sys.reserveSlot grant.parkingNode grant.startH grant.endH).slots := by
  rw [h.state]

theorem Granted.nodes (h : Granted sys r sys' grant t) :
    sys'.nodes = touchAll sys.nodes (drawnIds sys t (chooseParking sys t)) := by
  rw [h.state]

/-- A node that was there is there as it was. -/
theorem Granted.node_kept (h : Granted sys r sys' grant t) {id : ℤ} {n : Node D}
    (hn : sys.nodes[id]? = some n) : sys'.nodes[id]? = some n := by
  rw [h.nodes]
  exact touchAll_of_getElem? hn _

/-- A node that was not there has been created by drawing. -/
theorem Granted.node_cases (h : Granted sys r sys' grant t) {id : ℤ} {n : Node D}
    (hn : sys'.nodes[id]? = some n) :
    sys.nodes[id]? = some n ∨ id ∉ sys.nodes ∧ n = default := by
  rw [h.nodes, getElem?_touchAll] at hn
  split at hn
  · rename_i hk
    rw [Option.some_inj] at hn
    exact .inr ⟨hk.2, hn.symm⟩
  · exact .inl hn

theorem Granted.place (h : Granted sys r sys' grant t) :
    isPlace sys.nodes grant.parkingNode = true := (availableAtTime_iff.mp h.available).2.1

/-- What drawing leaves alone: everything but the slots and the nodes. -/
theorem Granted.frame (h : Granted sys r sys' grant t) :
    sys' = { sys with slots := sys'.slots, nodes := sys'.nodes } := by
  rw [h.slots, h.nodes, h.state, reserveSlot_frame]

end granted

end SmartParking
