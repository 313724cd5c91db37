/-
The page: the scripts of `index.html`.

A button sends a request and returns; what happens then is in the callback that runs
when the reply arrives (`onReply`).  A callback removes and adds objects of the map,
shows and hides boxes, raises an alert and may send for the nodes again.  An object
is known by the number of its creation; removing one that is not on the map has no
effect.

* `onReply_shows` — one callback: the map keeps showing the nodes of the last reply to
  `/nodes`, and the lines of the last reply that granted a place;
* `layers_after` — so that after any replies, in any order, exactly these are on the map:
  no marker is left over, and no line of an earlier route.
-/
import SmartParking.WholeServer

open StdMap TextStream

namespace SmartParking

variable {D : Type}

/-! ### The map and the page -/

/-- An object of the map. -/
inductive Drawing (D : Type)
  | marker (lat lng : D) (popup : Text)
  | polyline (coords : List (D × D)) (color : Text) (dashArray : Option Text)
  deriving DecidableEq

/-- What a script sends for. -/
inductive Fetch
  | nodes
  | login (user pass : Text)
  | register (user pass : Text)
  | route (start dest startH endH : Text)
  | update (id cap : Text)
  deriving DecidableEq

/-- The variables of the scripts, the boxes that are displayed and the alerts raised. -/
structure Page (D : Type) where
  layers : List (ℕ × Drawing D)
  created : ℕ
  markers : List ℕ
  routeLine : Option ℕ
  transportLine : Option ℕ
  loginBox : Bool
  mainBox : Bool
  adminPanel : Bool
  alerts : List Text
  deriving DecidableEq

namespace Page

/-- The page before any reply. -/
def opened : Page D :=
  { layers := [], created := 0, markers := [], routeLine := none, transportLine := none
    loginBox := true, mainBox := false, adminPanel := false, alerts := [] }

/-- `.addTo(map)` for a new object, whose number is that of the objects before it. -/
def addTo (pg : Page D) (d : Drawing D) : Page D :=
  { pg with layers := pg.layers ++ [(pg.created, d)], created := pg.created + 1 }

def removeLayer (pg : Page D) (layer : ℕ) : Page D :=
  { pg with layers := pg.layers.filter fun l => l.1 ≠ layer }

/-- `if(line) map.removeLayer(line)`. -/
def removeLine (pg : Page D) (line : Option ℕ) : Page D :=
  match line with
  | none => pg
  | some layer => pg.removeLayer layer

def alert (pg : Page D) (text : Text) : Page D := { pg with alerts := pg.alerts ++ [text] }

/-! ### The callbacks -/

/-- The marker of a node, with its popup. -/
def markerOf (n : NodeView D) : Drawing D :=
  .marker n.y n.x ("<b>".toList ++ n.name ++ "</b><br>Parking: ".toList ++ printInt n.capacity)

/-- The body of `data.forEach`. -/
def addMarker (pg : Page D) (n : NodeView D) : Page D :=
  { pg.addTo (markerOf n) with markers := pg.markers ++ [pg.created] }

/-- The callback of `loadNodes`. -/
def loadNodes (pg : Page D) (data : List (NodeView D)) : Page D :=
  data.foldl addMarker { pg.markers.foldl removeLayer pg with markers := [] }

def roleAdmin : Text := "admin".toList

/-- The callback of `login`. -/
def login (pg : Page D) (data : LoginReply) : Page D :=
  if !data.success then pg.alert "Invalid Login".toList
  else
    { pg with
      loginBox := false
      mainBox := true
      adminPanel := if data.role = roleAdmin then true else pg.adminPanel }

/-- The callback of `registerUser`. -/
def registerUser (pg : Page D) (data : RegisterReply) : Page D :=
  if data.success then pg.alert "Registration Success".toList
  else pg.alert (data.error.getD "undefined").toList

/-- The blue line of a route. -/
def routeDrawing (path : List (PathPoint D)) : Drawing D :=
  .polyline (path.map fun p => (p.y, p.x)) "blue".toList none

/-- The red line from the parking node to the destination. -/
def transportDrawing (t : Transfer D) : Drawing D :=
  .polyline [(t.y₀, t.x₀), (t.y₁, t.x₁)] "red".toList (some "10,10".toList)

def addRoute (pg : Page D) (path : List (PathPoint D)) : Page D :=
  { pg.addTo (routeDrawing path) with routeLine := some pg.created }

def addTransport (pg : Page D) (t : Transfer D) : Page D :=
  { pg.addTo (transportDrawing t) with transportLine := some pg.created }

/-- The callback of `findRoute`, for a reply without an error. -/
def findRoute (pg : Page D) (data : RouteBody D) : Page D × List Fetch :=
  let pg := (pg.removeLine pg.routeLine).removeLine pg.transportLine
  -- an empty `path` is not in the reply, and reading it ends the callback
  if data.path = [] then (pg, [])
  else
    let pg := pg.addRoute data.path
    if data.fallback then
      match data.transport with
      | none => (pg, [])
      | some t =>
        ((pg.addTransport t).alert ("Destination Full\nParking Reserved At: ".toList ++
          data.parkingNode ++ "\nUse Public Transport".toList), [.nodes])
    else (pg.alert ("Parking Reserved At ".toList ++ data.parkingNode), [.nodes])

/-- The callback that a reply runs, and what it sends for.  A reply to an exception
has no JSON in it, which ends the chain before the callback. -/
def onReply (pg : Page D) : ServerReply D → Page D × List Fetch
  | .inl (.nodes data) => (pg.loadNodes data, [])
  | .inl (.route (.threw _)) => (pg, [])
  | .inl (.route (.error message)) => (pg.alert message.toList, [])
  | .inl (.route (.success _ data)) => pg.findRoute data
  | .inl (.update (.threw _)) => (pg, [])
  | .inl (.update (.error _)) => (pg.alert "Failed".toList, [])
  | .inl (.update (.success _ _)) => (pg.alert "Updated".toList, [.nodes])
  | .inr (.login data) => (pg.login data, [])
  | .inr (.register data) => (pg.registerUser data, [])

/-! ### What the map is to show -/

/-- A reply that the callback of `findRoute` can draw to its end. -/
def Drawable (data : RouteBody D) : Prop :=
  data.path ≠ [] ∧ (data.fallback = true → data.transport.isSome = true)

/-- The lines of a route. -/
def linesOf (data : RouteBody D) : List (Drawing D) :=
  routeDrawing data.path ::
    if data.fallback then (data.transport.map transportDrawing).toList else []

/-- The nodes that a reply has in it. -/
@[simp] def nodes? : ServerReply D → Option (List (NodeView D))
  | .inl (.nodes data) => some data
  | _ => none

/-- The nodes of the last reply to `/nodes`. -/
def lastNodes (replies : List (ServerReply D)) : List (NodeView D) :=
  (replies.filterMap nodes?).getLast?.getD []

/-- The route last granted. -/
def lastRoute? (replies : List (ServerReply D)) : Option (RouteBody D) :=
  (replies.filterMap fun
    | .inl (.route (.success _ data)) => some data
    | _ => none).getLast?

/-- The page after the replies that have arrived, in that order. -/
def after (replies : List (ServerReply D)) : Page D :=
  replies.foldl (fun pg reply => (pg.onReply reply).1) opened

/-! ### The invariant -/

/-- The object that a variable of a line stands for. -/
def lineLayer (line : Option ℕ) (d : Option (Drawing D)) : List (ℕ × Drawing D) :=
  match line, d with
  | some layer, some d => [(layer, d)]
  | _, _ => []

/-- The objects that the scripts know of. -/
def known (pg : Page D) : List ℕ := pg.markers ++ (pg.routeLine.toList ++ pg.transportLine.toList)

/-- The markers on the map are those of the given nodes, and the lines are the given
ones; the scripts know of each, under numbers of their own. -/
structure Shows (data : List (NodeView D)) (route transport : Option (Drawing D))
    (pg : Page D) : Prop where
  layers : pg.layers.Perm (pg.markers.zip (data.map markerOf) ++
    (lineLayer pg.routeLine route ++ lineLayer pg.transportLine transport))
  matched : pg.markers.length = data.length
  drawn : (route.isSome = true → pg.routeLine.isSome = true) ∧
    (transport.isSome = true → pg.transportLine.isSome = true)
  distinct : pg.known.Nodup
  older : ∀ layer ∈ pg.known, layer < pg.created

theorem mem_lineLayer {line : Option ℕ} {d : Option (Drawing D)} {l : ℕ × Drawing D}
    (h : l ∈ lineLayer line d) : l.1 ∈ line.toList := by
  cases line with
  | none => simp [lineLayer] at h
  | some layer =>
    cases d with
    | none => simp [lineLayer] at h
    | some d => simp_all [lineLayer]

@[simp] theorem lineLayer_none (line : Option ℕ) :
    lineLayer line (none : Option (Drawing D)) = [] := by
  cases line <;> rfl

theorem shows_opened : Shows [] none none (opened : Page D) where
  layers := .nil
  matched := rfl
  drawn := by simp
  distinct := by simp [known, opened]
  older := by simp [known, opened]

/-! #### Removing -/

theorem foldl_removeLayer (refs : List ℕ) : ∀ pg : Page D,
    refs.foldl removeLayer pg = { pg with layers := pg.layers.filter fun l => l.1 ∉ refs } := by
  induction refs with
  | nil => simp
  | cons layer refs ih =>
    intro pg
    rw [List.foldl_cons, ih, removeLayer]
    simp only [List.filter_filter, List.mem_cons, not_or, Bool.decide_and]
    congr 1
    refine List.filter_congr fun l _ => ?_
    rw [Bool.and_comm]

theorem removeLine_eq (pg : Page D) (line : Option ℕ) :
    pg.removeLine line = { pg with layers := pg.layers.filter fun l => l.1 ∉ line.toList } := by
  cases line with
  | none => simp [removeLine]
  | some layer => simp [removeLine, removeLayer]

/-- Removing the lines that the variables stand for. -/
theorem removeLines_eq (pg : Page D) :
    (pg.removeLine pg.routeLine).removeLine pg.transportLine =
      { pg with layers := pg.layers.filter fun l =>
          l.1 ∉ pg.routeLine.toList ∧ l.1 ∉ pg.transportLine.toList } := by
  rw [removeLine_eq, removeLine_eq, List.filter_filter]
  simp only [Bool.decide_and, Bool.and_comm]

section shows
variable {data : List (NodeView D)} {route transport : Option (Drawing D)} {pg : Page D}

/-- The markers are apart from the lines. -/
theorem Shows.not_mem_markers (h : Shows data route transport pg) {layer : ℕ}
    (hlayer : layer ∈ pg.routeLine.toList ∨ layer ∈ pg.transportLine.toList) :
    layer ∉ pg.markers := by
  intro hc
  exact (List.nodup_append.mp h.distinct).2.2 layer hc layer
    (List.mem_append.mpr hlayer) rfl

theorem mem_zip_markers {l : ℕ × Drawing D} (hl : l ∈ pg.markers.zip (data.map markerOf)) :
    l.1 ∈ pg.markers :=
  (List.of_mem_zip (a := l.1) (b := l.2) hl).1

/-- Without the markers, the lines remain. -/
theorem Shows.removeMarkers (h : Shows data route transport pg) :
    Shows [] route transport { pg.markers.foldl removeLayer pg with markers := [] } := by
  rw [foldl_removeLayer]
  refine ⟨?_, rfl, h.drawn, ?_, fun layer hl => h.older layer (List.mem_append_right _ hl)⟩
  · refine (h.layers.filter _).trans ?_
    rw [List.filter_append]
    have hmarkers : (pg.markers.zip (data.map markerOf)).filter (fun l => l.1 ∉ pg.markers) =
        [] := List.filter_eq_nil_iff.mpr fun l hl => by simpa using mem_zip_markers hl
    have hlines : ∀ l ∈ lineLayer pg.routeLine route ++ lineLayer pg.transportLine transport,
        l.1 ∉ pg.markers := fun l hl => h.not_mem_markers
      ((List.mem_append.mp hl).imp mem_lineLayer mem_lineLayer)
    rw [hmarkers, List.filter_eq_self.mpr (by simpa using hlines)]
    exact .rfl
  · exact (List.nodup_append.mp h.distinct).2.1

/-- Without the lines, the markers remain. -/
theorem Shows.removeLines (h : Shows data route transport pg) :
    Shows data none none ((pg.removeLine pg.routeLine).removeLine pg.transportLine) := by
  rw [removeLines_eq]
  refine ⟨(h.layers.filter _).trans ?_, h.matched, by simp, h.distinct, h.older⟩
  rw [List.filter_append]
  have hlines : ∀ l ∈ lineLayer pg.routeLine route ++ lineLayer pg.transportLine transport,
      ¬ (l.1 ∉ pg.routeLine.toList ∧ l.1 ∉ pg.transportLine.toList) := by
    rintro l hl ⟨h1, h2⟩
    exact (List.mem_append.mp hl).elim (fun hl => h1 (mem_lineLayer hl))
      fun hl => h2 (mem_lineLayer hl)
  have hmarkers : ∀ l ∈ pg.markers.zip (data.map markerOf),
      l.1 ∉ pg.routeLine.toList ∧ l.1 ∉ pg.transportLine.toList := fun l hl =>
    ⟨fun hc => h.not_mem_markers (.inl hc) (mem_zip_markers hl),
      fun hc => h.not_mem_markers (.inr hc) (mem_zip_markers hl)⟩
  have hnil : (lineLayer pg.routeLine route ++ lineLayer pg.transportLine transport).filter
      (fun l => l.1 ∉ pg.routeLine.toList ∧ l.1 ∉ pg.transportLine.toList) = [] :=
    List.filter_eq_nil_iff.mpr fun l hl => by simpa using hlines l hl
  rw [hnil, List.filter_eq_self.mpr fun l hl => by simpa using hmarkers l hl, lineLayer_none,
    lineLayer_none]
  exact .rfl

/-! #### Adding -/

/-- A new object has a number of its own. -/
theorem Shows.created_not_mem (h : Shows data route transport pg) : pg.created ∉ pg.known :=
  fun hc => absurd (h.older _ hc) (lt_irrefl _)

/-- What is older than the objects created so far is older than one more. -/
theorem Shows.older_succ (h : Shows data route transport pg) {layer : ℕ}
    (hl : layer ∈ pg.known ∨ layer = pg.created) : layer < pg.created + 1 := by
  rcases hl with hl | rfl
  · exact (h.older layer hl).trans (Nat.lt_succ_self _)
  · exact Nat.lt_succ_self _

theorem Shows.addMarker (h : Shows data route transport pg) (n : NodeView D) :
    Shows (data ++ [n]) route transport (pg.addMarker n) := by
  refine ⟨?_, ?_, h.drawn, ?_, fun layer hl => h.older_succ ?_⟩
  · show (pg.layers ++ [(pg.created, markerOf n)]).Perm
      ((pg.markers ++ [pg.created]).zip ((data ++ [n]).map markerOf) ++ _)
    rw [List.map_append, List.zip_append (by simp [h.matched]), List.append_assoc]
    refine (h.layers.append_right _).trans ?_
    rw [List.append_assoc]
    exact List.perm_append_comm.append_left _
  · simp [Page.addMarker, addTo, h.matched]
  · show ((pg.markers ++ [pg.created]) ++ _).Nodup
    rw [List.append_assoc]
    exact List.nodup_middle.mpr (List.nodup_cons.mpr ⟨h.created_not_mem, h.distinct⟩)
  · simp only [known, Page.addMarker, addTo, List.mem_append, List.mem_singleton] at hl ⊢
    tauto

theorem Shows.loadNodes (h : Shows data route transport pg) (data' : List (NodeView D)) :
    Shows data' route transport (pg.loadNodes data') := by
  have hall : ∀ (data' data : List (NodeView D)) (pg : Page D), Shows data route transport pg →
      Shows (data ++ data') route transport (data'.foldl Page.addMarker pg) := by
    intro data'
    induction data' with
    | nil =>
      intro data pg h
      rwa [List.append_nil]
    | cons n data' ih =>
      intro data pg h
      have hn := ih (data ++ [n]) (pg.addMarker n) (h.addMarker n)
      rwa [List.append_assoc, List.singleton_append] at hn
  exact hall data' [] _ h.removeMarkers

theorem Shows.addRoute (h : Shows data none none pg) (path : List (PathPoint D)) :
    Shows data (some (routeDrawing path)) none (pg.addRoute path) := by
  have hperm := h.layers
  rw [lineLayer_none, lineLayer_none] at hperm
  refine ⟨?_, h.matched, by simp [Page.addRoute], ?_, fun layer hl => h.older_succ ?_⟩
  · rw [lineLayer_none]
    exact (hperm.append_right _).trans (by simp [lineLayer, Page.addRoute, addTo])
  · have hsub : (pg.markers ++ pg.transportLine.toList).Sublist pg.known :=
      List.Sublist.append_left (List.sublist_append_right _ _) _
    exact List.nodup_middle.mpr (List.nodup_cons.mpr
      ⟨fun hc => h.created_not_mem (hsub.subset hc), hsub.nodup h.distinct⟩)
  · simp only [known, Page.addRoute, addTo, List.mem_append, Option.toList_some,
      List.mem_singleton] at hl ⊢
    tauto

theorem Shows.addTransport (h : Shows data route none pg) (t : Transfer D) :
    Shows data route (some (transportDrawing t)) (pg.addTransport t) := by
  have hperm := h.layers
  rw [lineLayer_none, List.append_nil] at hperm
  refine ⟨?_, h.matched, ⟨h.drawn.1, by simp [Page.addTransport]⟩, ?_,
    fun layer hl => h.older_succ ?_⟩
  · show (pg.layers ++ [(pg.created, transportDrawing t)]).Perm _
    refine (hperm.append_right _).trans ?_
    rw [List.append_assoc]
    exact .rfl
  · have hsub : (pg.markers ++ pg.routeLine.toList ++ []).Sublist pg.known := by
      rw [List.append_nil]
      exact List.Sublist.append_left (List.sublist_append_left _ _) _
    show (pg.markers ++ (pg.routeLine.toList ++ [pg.created])).Nodup
    rw [← List.append_assoc]
    exact List.nodup_middle.mpr (List.nodup_cons.mpr
      ⟨fun hc => h.created_not_mem (hsub.subset hc), hsub.nodup h.distinct⟩)
  · simp only [known, Page.addTransport, addTo, List.mem_append, Option.toList_some,
      List.mem_singleton] at hl ⊢
    tauto

theorem Shows.alert (h : Shows data route transport pg) (text : Text) :
    Shows data route transport (pg.alert text) :=
  ⟨h.layers, h.matched, h.drawn, h.distinct, h.older⟩

/-- Logging in shows and hides boxes. -/
theorem Shows.login (h : Shows data route transport pg) (reply : LoginReply) :
    Shows data route transport (pg.login reply) := by
  rw [Page.login]
  split
  · exact h.alert _
  · exact ⟨h.layers, h.matched, h.drawn, h.distinct, h.older⟩

theorem Shows.registerUser (h : Shows data route transport pg) (reply : RegisterReply) :
    Shows data route transport (pg.registerUser reply) := by
  rw [Page.registerUser]
  split <;> exact h.alert _

/-- The callback of `findRoute` draws the lines of the reply in place of those there. -/
theorem Shows.findRoute (h : Shows data route transport pg) {body : RouteBody D}
    (hbody : Drawable body) :
    Shows data (some (routeDrawing body.path))
      (if body.fallback then body.transport.map transportDrawing else none)
      (pg.findRoute body).1 := by
  have hroute := h.removeLines.addRoute body.path
  rw [Page.findRoute]
  dsimp only
  rw [if_neg hbody.1]
  cases hf : body.fallback with
  | false => exact hroute.alert _
  | true =>
    obtain ⟨t, ht⟩ := Option.isSome_iff_exists.mp (hbody.2 hf)
    rw [if_pos rfl, if_pos rfl, ht]
    exact (hroute.addTransport t).alert _

/-- The drawings on the map, in some order. -/
theorem Shows.drawings (h : Shows data route transport pg) :
    (pg.layers.map Prod.snd).Perm
      (data.map markerOf ++ (route.toList ++ transport.toList)) := by
  have hline : ∀ {line : Option ℕ} {d : Option (Drawing D)},
      (d.isSome = true → line.isSome = true) →
      (lineLayer line d).map Prod.snd = d.toList := by
    intro line d hd
    cases d with
    | none => rw [lineLayer_none]; rfl
    | some d =>
      obtain ⟨layer, rfl⟩ := Option.isSome_iff_exists.mp (hd rfl)
      rfl
  refine (h.layers.map Prod.snd).trans ?_
  rw [List.map_append, List.map_append, hline h.drawn.1, hline h.drawn.2,
    List.map_snd_zip (by simp [h.matched])]

end shows

/-! ### Any replies -/

/-- Every route granted can be drawn. -/
def AllDrawable (replies : List (ServerReply D)) : Prop :=
  ∀ grant body, (.inl (.route (.success grant body)) : ServerReply D) ∈ replies → Drawable body

/-- What the map shows after the given replies. -/
def ShowsLast (replies : List (ServerReply D)) (pg : Page D) : Prop :=
  Shows (lastNodes replies) ((lastRoute? replies).map fun body => routeDrawing body.path)
    ((lastRoute? replies).bind fun body =>
      if body.fallback then body.transport.map transportDrawing else none) pg

/-- **One callback.** -/
theorem onReply_shows {replies : List (ServerReply D)} {reply : ServerReply D} {pg : Page D}
    (h : ShowsLast replies pg)
    (hreply : ∀ grant body, reply = .inl (.route (.success grant body)) → Drawable body) :
    ShowsLast (replies ++ [reply]) (pg.onReply reply).1 := by
  rcases reply with (reply | reply | data) | (reply | reply)
  · cases reply with
    | threw e => simpa [ShowsLast, lastNodes, lastRoute?, onReply] using h
    | error message =>
      simpa [ShowsLast, lastNodes, lastRoute?, onReply] using h.alert message.toList
    | success grant body =>
      simpa [ShowsLast, lastNodes, lastRoute?, onReply] using h.findRoute (hreply grant body rfl)
  · cases reply with
    | threw e => simpa [ShowsLast, lastNodes, lastRoute?, onReply] using h
    | error message => simpa [ShowsLast, lastNodes, lastRoute?, onReply] using h.alert _
    | success id cap => simpa [ShowsLast, lastNodes, lastRoute?, onReply] using h.alert _
  · simpa [ShowsLast, lastNodes, lastRoute?, onReply] using h.loadNodes data
  · simpa [ShowsLast, lastNodes, lastRoute?, onReply] using h.login reply
  · simpa [ShowsLast, lastNodes, lastRoute?, onReply] using h.registerUser reply

/-- **The map after any replies** shows the nodes of the last reply to `/nodes` and the
lines of the route last granted, each once, and nothing else. -/
theorem layers_after {replies : List (ServerReply D)} (h : AllDrawable replies) :
    ((after replies).layers.map Prod.snd).Perm
      ((lastNodes replies).map markerOf ++ (lastRoute? replies).elim [] linesOf) := by
  have hall : ShowsLast replies (after replies) := by
    induction replies using List.reverseRecOn with
    | nil => exact shows_opened
    | append_singleton replies reply ih =>
      rw [after, List.foldl_append]
      exact onReply_shows (ih fun grant body hmem => h grant body (List.mem_append_left _ hmem))
        fun grant body heq => h grant body (heq ▸ List.mem_append_right _ List.mem_cons_self)
  have hlines : (((lastRoute? replies).map fun body => routeDrawing body.path).toList ++
      ((lastRoute? replies).bind fun body =>
        if body.fallback then body.transport.map transportDrawing else none).toList) =
      (lastRoute? replies).elim [] linesOf := by
    cases lastRoute? replies with
    | none => rfl
    | some body =>
      cases hf : body.fallback <;> simp [linesOf, hf]
  have hdrawings := hall.drawings
  rwa [hlines] at hdrawings

/-! ### The boxes -/

/-- A reply that shows the admin panel. -/
def grantsAdmin : ServerReply D → Bool
  | .inr (.login data) => data.success && data.role = roleAdmin
  | _ => false

theorem login_of_grantsAdmin {reply : ServerReply D} (h : grantsAdmin reply = true) :
    ∃ data : LoginReply, reply = .inr (.login data) ∧ data.success = true ∧
      data.role = roleAdmin := by
  rcases reply with _ | (data | _)
  · simp [grantsAdmin] at h
  · exact ⟨data, rfl, by simpa [grantsAdmin] using h⟩
  · simp [grantsAdmin] at h

theorem adminPanel_removeLine (pg : Page D) (line : Option ℕ) :
    (pg.removeLine line).adminPanel = pg.adminPanel := by
  cases line <;> rfl

theorem adminPanel_loadNodes (pg : Page D) (data : List (NodeView D)) :
    (pg.loadNodes data).adminPanel = pg.adminPanel := by
  have hadd : ∀ (data : List (NodeView D)) (pg : Page D),
      (data.foldl addMarker pg).adminPanel = pg.adminPanel := by
    intro data
    induction data with
    | nil => exact fun pg => rfl
    | cons n data ih => exact fun pg => ih (pg.addMarker n)
  rw [Page.loadNodes, hadd, foldl_removeLayer]

theorem adminPanel_findRoute (pg : Page D) (body : RouteBody D) :
    (pg.findRoute body).1.adminPanel = pg.adminPanel := by
  have hlines : ((pg.removeLine pg.routeLine).removeLine pg.transportLine).adminPanel =
      pg.adminPanel := by rw [adminPanel_removeLine, adminPanel_removeLine]
  rw [Page.findRoute]
  dsimp only
  split
  · exact hlines
  · split
    · split <;> exact hlines
    · exact hlines

/-- Nothing but a login as admin shows the panel, and nothing hides it. -/
theorem adminPanel_onReply (pg : Page D) (reply : ServerReply D) :
    (pg.onReply reply).1.adminPanel = (pg.adminPanel || grantsAdmin reply) := by
  rcases reply with (reply | reply | data) | (reply | reply)
  · cases reply with
    | success grant body => simp [onReply, grantsAdmin, adminPanel_findRoute]
    | _ => simp [onReply, grantsAdmin, Page.alert]
  · cases reply <;> simp [onReply, grantsAdmin, Page.alert]
  · simp [onReply, grantsAdmin, adminPanel_loadNodes]
  · cases hs : reply.success <;> by_cases hr : reply.role = roleAdmin <;>
      simp [onReply, grantsAdmin, Page.login, Page.alert, hs, hr]
  · cases hs : reply.success <;> simp [onReply, grantsAdmin, Page.registerUser, Page.alert, hs]

theorem adminPanel_after (replies : List (ServerReply D)) :
    (after replies).adminPanel = replies.any grantsAdmin := by
  induction replies using List.reverseRecOn with
  | nil => rfl
  | append_singleton replies reply ih =>
    rw [after, List.foldl_append, List.any_append, ← ih]
    exact (adminPanel_onReply _ reply).trans (by simp [after])

end Page

end SmartParking
