/-
The node table over runs, and the file it is saved to.

Drawing a path reads `sys.nodes[id]` for ids of the table of ghosts, which no
code compares with the nodes file; an id that is missing there is created as a
node of id 0 and empty name.

* `framed_iff` — the keys, ids and fields other than capacity stay as loaded
  throughout a run exactly when every request that is granted finds its ghosts
  among the nodes (`GhostsKnown`);
* `framed_of_tableKnown` — which is so when the file has all ids of the table;
* `loadNodes_nodesText` — reading back what `saveNodes` has written;
* `saved_reloads` — after each `/update` the file holds the table.
-/
import SmartParking.Occupancy

open StdMap TextStream Runs

namespace SmartParking

variable {D : Type}

/-! ### What a granted request touches -/

/-- The ghosts of the table between consecutive nodes of a route. -/
def ghostsAlong (visualPaths : VisualPaths) : List ℤ → List ℤ
  | a :: b :: rest =>
    visualPaths.getD (toLex (a, b)) [] ++ ghostsAlong visualPaths (b :: rest)
  | _ => []

theorem mem_buildVisualRoute (visualPaths : VisualPaths) (path : List ℤ) (id : ℤ) :
    id ∈ buildVisualRoute visualPaths path ↔ id ∈ path ∨ id ∈ ghostsAlong visualPaths path := by
  fun_induction buildVisualRoute visualPaths path with
  | case1 => simp [ghostsAlong]
  | case2 a => simp [ghostsAlong]
  | case3 a b rest ih =>
    rw [ghostsAlong, List.mem_cons, List.mem_append, ih, List.mem_append, List.mem_cons (b := a)]
    tauto

/-- The ghosts of a route come from the table. -/
theorem exists_of_mem_ghostsAlong {visualPaths : VisualPaths} {path : List ℤ} {id : ℤ}
    (hid : id ∈ ghostsAlong visualPaths path) :
    ∃ (k : ℤ ×ₗ ℤ) (ids : List ℤ), visualPaths[k]? = some ids ∧ id ∈ ids := by
  fun_induction ghostsAlong visualPaths path with
  | case1 a b rest ih =>
    rcases List.mem_append.mp hid with hid | hid
    · rw [getD_eq] at hid
      cases hk : visualPaths[toLex (a, b)]? with
      | none => simp [hk] at hid
      | some ids =>
        rw [hk, Option.getD_some] at hid
        exact ⟨_, ids, hk, hid⟩
    · exact ih hid
  | case2 path => simp at hid

/-- The part of the route that is displayed. -/
def shownRoute (t : Trip) (c : Choice) : List ℤ :=
  if c.fallback = true ∧ c.parkingNode ≠ t.dest then trimRoute c.parkingNode t.realPath
  else t.realPath

theorem mem_of_mem_trimRoute {p id : ℤ} {path : List ℤ} (h : id ∈ trimRoute p path) :
    id ∈ path := by
  induction path with
  | nil => exact h
  | cons a path ih =>
    rw [trimRoute] at h
    split at h
    · rw [List.mem_singleton.mp h]
      exact List.mem_cons_self
    · rcases List.mem_cons.mp h with rfl | h
      · exact List.mem_cons_self
      · exact List.mem_cons_of_mem _ (ih h)

theorem mem_of_mem_shownRoute {t : Trip} {c : Choice} {id : ℤ} (h : id ∈ shownRoute t c) :
    id ∈ t.realPath := by
  rw [shownRoute] at h
  split at h
  · exact mem_of_mem_trimRoute h
  · exact h

/-- If the request is granted, the ghosts of the route it displays are in the node
table. -/
def GhostsKnown (sys : SmartParking D) (r : RouteRequest) : Prop :=
  ∀ t, t.Found sys r → (chooseParking sys t).parkingNode ≠ -1 →
    ∀ id ∈ ghostsAlong sys.visualPaths (shownRoute t (chooseParking sys t)), id ∈ sys.nodes

/-- The ids drawn: the part of the route that is displayed with its ghosts, the
parking node, and the destination of a fallback. -/
theorem Trip.Found.mem_drawnIds {sys : SmartParking D} {r : RouteRequest} {t : Trip}
    (h : t.Found sys r) (c : Choice) (id : ℤ) :
    id ∈ drawnIds sys t c ↔
      (id ∈ shownRoute t c ∨ id ∈ ghostsAlong sys.visualPaths (shownRoute t c)) ∨
        (c.fallback = true ∧ id = t.dest) ∨ id = c.parkingNode := by
  have hdisplay : displayPath sys t c = buildVisualRoute sys.visualPaths (shownRoute t c) := by
    rw [displayPath, shownRoute, h.visual]
    split <;> rfl
  rw [drawnIds, hdisplay, List.mem_append, List.mem_append, mem_buildVisualRoute,
    List.mem_singleton]
  cases c.fallback <;> simp
  tauto

/-- Besides nodes that are present, drawing touches the ghosts of the route. -/
theorem Trip.Found.drawn_known_iff {sys : SmartParking D} {r : RouteRequest} {t : Trip}
    (h : t.Found sys r) (hp : (chooseParking sys t).parkingNode ≠ -1) :
    (∀ id ∈ drawnIds sys t (chooseParking sys t), id ∈ sys.nodes) ↔ GhostsKnown sys r := by
  have hparking := mem_of_isPlace
    (availableAtTime_iff.mp (chooseParking_available hp)).2.1
  have hdest := mem_of_isPlace h.dest_place
  constructor
  · intro hall t' ht' _ id hid
    -- a request finds one trip
    obtain rfl : t = t' := by
      have heq := (routeEnter_trip.mpr h).symm.trans (routeEnter_trip.mpr ht')
      simpa using heq
    exact hall id ((h.mem_drawnIds _ id).mpr (.inl (.inr hid)))
  · intro hg id hid
    rcases (h.mem_drawnIds _ id).mp hid with (hid | hid) | ⟨_, rfl⟩ | rfl
    · exact mem_of_isPlace (h.places id (mem_of_mem_shownRoute hid))
    · exact hg t h hp id hid
    · exact hdest
    · exact hparking

/-- A request that is not granted draws nothing. -/
theorem ghostsKnown_of_refused [Zero D] {sys sys' : SmartParking D} {r : RouteRequest}
    {reply : RouteReply D} (h : route sys r = .ok (sys', reply))
    (hno : ∀ grant body, reply ≠ .success grant body) : GhostsKnown sys r := by
  intro t ht hp
  obtain ⟨body, hresp⟩ := respond_eq
    (sys.reserveSlot (chooseParking sys t).parkingNode t.startH t.endH) t (chooseParking sys t)
  rw [route_of_found ht, if_neg hp, hresp] at h
  simp only [Except.ok.injEq, Prod.mk.injEq] at h
  exact absurd h.2.symm (hno _ body)

theorem Granted.nodes_eq_iff [Zero D] {sys sys' : SmartParking D} {r : RouteRequest}
    {grant : Grant} {t : Trip} (h : Granted sys r sys' grant t) :
    ((∀ k, k ∈ sys'.nodes ↔ k ∈ sys.nodes) ↔ GhostsKnown sys r) ∧
      (GhostsKnown sys r → sys'.nodes = sys.nodes) := by
  have hp : (chooseParking sys t).parkingNode ≠ -1 := by
    have := h.parking
    rwa [h.grant_eq] at this
  rw [← h.found.drawn_known_iff hp]
  refine ⟨?_, fun hall => ?_⟩
  · simp only [h.nodes, mem_touchAll]
    exact ⟨fun hk id hid => (hk id).mp (.inl hid),
      fun hall k => ⟨fun hk => hk.elim (hall k) fun hk => hk, .inr⟩⟩
  · rw [h.nodes]
    refine Std.ExtTreeMap.ext_getElem? fun k => ?_
    rw [getElem?_touchAll, if_neg fun hc => hc.2 (hall k hc.1)]

/-! ### The frame of the node table -/

/-- The table has the keys it was loaded with, each node carries its key as id, and
all but the capacity is as loaded. -/
structure Framed (loaded nodes : Map ℤ (Node D)) : Prop where
  keys : ∀ k, k ∈ nodes ↔ k ∈ loaded
  id : ∀ (k : ℤ) (n : Node D), nodes[k]? = some n → n.id = k
  fields : ∀ (k : ℤ) (n : Node D), nodes[k]? = some n →
    ∃ n₀ : Node D, loaded[k]? = some n₀ ∧ n = { n₀ with capacity := n.capacity }

/-- The node table is left alone by a `/route` request. -/
def RouteKeepsNodes [StreamDouble D] (sys : SmartParking D) (e : Event D) : Prop :=
  ∀ r, e.1 = .route r → ∀ sys', Served handle sys e sys' → sys'.nodes = sys.nodes

/-- A `/route` request that is granted finds its ghosts among the nodes. -/
def DrawsKnown (sys : SmartParking D) (e : Event D) : Prop :=
  ∀ r, e.1 = .route r → GhostsKnown sys r

section frame
variable [StreamDouble D] {sys sys' : SmartParking D} {e : Event D}

theorem framed_start (nodesList adjacencyList transport : Text) :
    Framed (loadNodes (D := D) nodesList).1
      (start (D := D) nodesList adjacencyList transport).nodes where
  keys _ := Iff.rfl
  id _ _ hn := id_loadNodes hn
  fields _ n hn := ⟨n, hn, rfl⟩

theorem DrawsKnown.routeKeepsNodes (h : DrawsKnown sys e) : RouteKeepsNodes sys e := by
  rintro r hr sys' hs
  obtain ⟨request, reply⟩ := e
  obtain rfl : request = .route r := hr
  obtain ⟨routeReply, hroute, rfl⟩ := route_of_served hs
  rcases route_cases hroute with ⟨rfl, _⟩ | ⟨grant, body, t, rfl, hg⟩
  · rfl
  · exact hg.nodes_eq_iff.2 (h r rfl)

theorem Framed.update {loaded : Map ℤ (Node D)} (hf : Framed loaded sys.nodes) {id cap : ℤ}
    {n : Node D} (hn : sys.nodes[id]? = some n) :
    Framed loaded (sys.updateCapacity id cap).nodes := by
  have hget : ∀ k, (sys.updateCapacity id cap).nodes[k]? =
      if k = id then some { n with capacity := cap } else sys.nodes[k]? :=
    getElem?_nodes_updateCapacity hn
  refine ⟨fun k => ?_, fun k n' hn' => ?_, fun k n' hn' => ?_⟩
  · rw [mem_nodes_updateCapacity, hf.keys k]
  · rw [hget] at hn'
    split at hn'
    · rename_i hk
      rw [Option.some_inj] at hn'
      rw [← hn', hk]
      exact hf.id id n hn
    · exact hf.id k n' hn'
  · rw [hget] at hn'
    split at hn'
    · rename_i hk
      rw [Option.some_inj] at hn'
      obtain ⟨n₀, hn₀, heq⟩ := hf.fields id n hn
      refine ⟨n₀, hk ▸ hn₀, ?_⟩
      rw [← hn', heq]
    · exact hf.fields k n' hn'

/-- **One step.**  The frame is kept exactly when the ghosts drawn are known. -/
theorem framed_step {loaded : Map ℤ (Node D)} (hf : Framed loaded sys.nodes)
    (h : Served handle sys e sys') : Framed loaded sys'.nodes ↔ DrawsKnown sys e := by
  have hserved := h
  cases effect_of_served h with
  | nothing hno _ _ =>
    -- a refused request meets the condition, since it draws nothing
    refine ⟨fun _ r hr => ?_, fun _ => hf⟩
    obtain ⟨request, reply⟩ := e
    obtain rfl : request = .route r := hr
    obtain ⟨routeReply, hroute, rfl⟩ := route_of_served hserved
    refine ghostsKnown_of_refused hroute ?_
    rintro grant body rfl
    simp [grant?] at hno
  | @grant r _ grant body t hg =>
    obtain ⟨hiff, heq⟩ := hg.nodes_eq_iff
    constructor
    · rintro hf' r' hr'
      obtain rfl : r = r' := Request.route.inj hr'
      exact hiff.mp fun k => (hf'.keys k).trans (hf.keys k).symm
    · intro hk
      rw [heq (hk r rfl)]
      exact hf
  | update _ hn _ _ _ => exact ⟨fun _ r hr => by simp at hr, fun _ => hf.update hn⟩

/-- **The frame over a run.**  In every state the table is framed, and `/route`
leaves it alone, exactly when every request granted finds its ghosts. -/
theorem framed_iff {nodesList adjacencyList transport : Text} {es : List (Event D)}
    (h : Run (Served handle) (start nodesList adjacencyList transport) es sys) :
    (Along (Served handle) (start nodesList adjacencyList transport) es
        (fun _ s => Framed (loadNodes nodesList).1 s.nodes) ∧
      Steps (Served handle) (start nodesList adjacencyList transport) es
        (fun _ s e => RouteKeepsNodes s e)) ↔
    Steps (Served handle) (start nodesList adjacencyList transport) es
      (fun _ s e => DrawsKnown s e) := by
  have halong := along_iff_steps (served_deterministic handle)
    (P := fun _ s => Framed (loadNodes nodesList).1 s.nodes) (Q := fun _ s e => DrawsKnown s e)
    (framed_start nodesList adjacencyList transport) h
    fun _ _ _ _ _ hf hstep => framed_step hf hstep
  exact ⟨fun hc => halong.mp hc.1,
    fun hk => ⟨halong.mpr hk, fun pre e s hpre hs => (hk pre e s hpre hs).routeKeepsNodes⟩⟩

/-! ### A file without its ghosts -/

end frame

/-- Two nodes joined by a road, between which the table has the ghosts 1 and 2. -/
def pairFile : Text := "0 A 0 0 0 0\n3 B 1 0 0 0\n".toList

def pair : SmartParking ℤ := start pairFile "0 3 1\n".toList []

def fromAToB : RouteRequest := { s := some ['A'], e := some ['B'], sh := none, eh := none }

theorem framed_iff_pair : ∃ es s, Run (Served handle) pair es s ∧ granted es 3 10 = 1 ∧
    ((Along (Served handle) pair es (fun _ s => Framed (loadNodes pairFile).1 s.nodes) ∧
      Steps (Served handle) pair es (fun _ s e => RouteKeepsNodes s e)) ↔
      Steps (Served handle) pair es (fun _ s e => DrawsKnown s e)) := by
  obtain ⟨es, s, hrun, htest⟩ := run_of_execThen handle pair [.route fromAToB]
    (fun es _ => granted es 3 10 = 1) (by decide)
  exact ⟨es, s, hrun, by simpa using htest, framed_iff hrun⟩

/-- One request from A to B creates a node of key 1 and id 0. -/
theorem route_creates_node : ∃ es s, Run (Served handle) pair es s ∧ es.length = 1 ∧
    s.nodes[(1 : ℤ)]? = some default ∧ ¬ Framed (loadNodes pairFile).1 s.nodes := by
  obtain ⟨es, s, hrun, htest⟩ := run_of_execThen handle pair [.route fromAToB]
    (fun es s => es.length = 1 ∧ s.nodes[(1 : ℤ)]? = some default) (by decide)
  simp only [decide_eq_true_eq] at htest
  refine ⟨es, s, hrun, htest.1, htest.2, fun hf => ?_⟩
  have hid := hf.id 1 default htest.2
  exact absurd hid (by decide)

/-! ### Files that have every ghost -/

section known
variable [StreamDouble D] {sys sys' : SmartParking D} {e : Event D}

/-- Every id in the table of ghosts is in the node table. -/
def TableKnown (sys : SmartParking D) : Prop :=
  ∀ (k : ℤ ×ₗ ℤ) (ids : List ℤ), sys.visualPaths[k]? = some ids → ∀ id ∈ ids, id ∈ sys.nodes

omit [StreamDouble D] in
theorem TableKnown.ghostsKnown (h : TableKnown sys) (r : RouteRequest) : GhostsKnown sys r := by
  intro t _ _ id hid
  obtain ⟨k, ids, hk, hmem⟩ := exists_of_mem_ghostsAlong hid
  exact h k ids hk id hmem

theorem Effect.visualPaths (h : Effect sys e sys') : sys'.visualPaths = sys.visualPaths := by
  cases h with
  | nothing _ _ _ => rfl
  | grant hg => rw [hg.frame]
  | update _ hn _ _ _ =>
    rw [updateCapacity_eq hn]
    rfl

theorem Effect.road (h : Effect sys e sys') : sys'.road = sys.road := by
  cases h with
  | nothing _ _ _ => rfl
  | grant hg => rw [hg.frame]
  | update _ _ _ _ _ => exact road_updateCapacity sys _ _

/-- No request changes the roads. -/
theorem road_of_served_run {es : List (Event D)} (h : Run (Served handle) sys es sys') :
    sys'.road = sys.road :=
  h.invariant (I := fun _ s => s.road = sys.road) rfl
    fun _ _ _ _ _ ih hstep => (effect_of_served hstep).road.trans ih

theorem TableKnown.effect (hk : TableKnown sys) (h : Effect sys e sys') : TableKnown sys' := by
  intro k ids hids id hid
  rw [h.visualPaths] at hids
  obtain ⟨n, hn⟩ := (mem_iff_getElem? sys.nodes id).mp (hk k ids hids id hid)
  obtain ⟨cap, hn'⟩ := h.node_kept hn
  exact mem_of_getElem? hn'

/-- With every ghost in the file, the node table is framed in every state. -/
theorem framed_of_tableKnown {nodesList adjacencyList transport : Text}
    (hk : TableKnown (start (D := D) nodesList adjacencyList transport)) {es : List (Event D)}
    (h : Run (Served handle) (start nodesList adjacencyList transport) es sys) :
    TableKnown sys ∧ Framed (loadNodes nodesList).1 sys.nodes :=
  h.invariant (I := fun _ s => TableKnown s ∧ Framed (loadNodes nodesList).1 s.nodes)
    ⟨hk, framed_start nodesList adjacencyList transport⟩
    fun _ _ _ _ _ ⟨hk, hf⟩ hstep => ⟨hk.effect (effect_of_served hstep),
      (framed_step hf hstep).mpr fun r _ => hk.ghostsKnown r⟩

end known

/-! ### Writing the table and reading it back -/

section save
variable [StreamDouble D] {P : D → Prop} {f : D → D}

/-- What is assumed of the stream for `double`s with the property `P`: between
blanks they are read as they were printed. -/
def ReadsBack (P : D → Prop) : Prop :=
  ∀ d, P d → ∀ rest, AtBreak rest →
    StreamDouble.extract (' ' :: (StreamDouble.print d ++ rest)) = some (d, rest)

/-- The same for a stream that prints less than the whole of a number: what it has
printed of `d` is read as `f d`. -/
def ReadsAs (P : D → Prop) (f : D → D) : Prop :=
  ∀ d, P d → ∀ rest, AtBreak rest →
    StreamDouble.extract (' ' :: (StreamDouble.print d ++ rest)) = some (f d, rest)

theorem ReadsBack.readsAs (h : ReadsBack P) : ReadsAs P id := h

omit [StreamDouble D] in
def Node.mapCoords (f : D → D) (n : Node D) : Node D := { n with x := f n.x, y := f n.y }

/-- The fields survive being written to a stream of words and `int`s. -/
structure Node.Printable (P : D → Prop) (n : Node D) : Prop where
  id : IsInt n.id
  name : IsWord n.name
  capacity : IsInt n.capacity
  x : P n.x
  y : P n.y

omit [StreamDouble D] in
/-- The last field of a line is an `int`. -/
theorem Node.isInt_ghost (n : Node D) : IsInt (if n.ghost then 1 else 0) := by
  cases n.ghost <;> decide

omit [StreamDouble D] in
/-- The record of a node's line. -/
def Node.record (n : Node D) : NodeRecord D :=
  { id := n.id, name := n.name, cap := n.capacity, x := n.x, y := n.y
    ghost := if n.ghost then 1 else 0 }

omit [StreamDouble D] in
theorem Node.node_record (n : Node D) : n.record.node = n := by
  obtain ⟨id, name, capacity, x, y, ghost⟩ := n
  cases ghost <;> rfl

/-- A line is read back, up to its newline. -/
theorem readRecord_nodeLine (hP : ReadsAs P f) {n : Node D} (hn : n.Printable P) (rest : Text) :
    readRecord (nodeLine n ++ rest) = some ((n.mapCoords f).record, '\n' :: rest) := by
  have hend : AtBreak ('\n' :: rest) := atBreak_cons (by decide)
  have hbreak : ∀ s : Text, AtBreak (' ' :: s) := fun s => atBreak_cons (by decide)
  simp only [readRecord, nodeLine, List.append_assoc, List.cons_append, List.nil_append]
  -- field by field, each up to the blank that ends it
  rw [extractInt_printInt hn.id (hbreak _).not_digit]
  simp only [Option.bind_eq_bind, Option.bind_some]
  rw [extractWord_space (by decide), extractWord_word hn.name (hbreak _)]
  simp only [Option.bind_some]
  rw [extractInt_space (by decide), extractInt_printInt hn.capacity (hbreak _).not_digit]
  simp only [Option.bind_some]
  rw [hP n.x hn.x _ (hbreak _)]
  simp only [Option.bind_some]
  rw [hP n.y hn.y _ (hbreak _)]
  simp only [Option.bind_some]
  rw [extractInt_space (by decide), extractInt_printInt n.isInt_ghost hend.not_digit]
  rfl

theorem readRecord_newline (s : Text) :
    (readRecord ('\n' :: s) : Option (NodeRecord D × Text)) = readRecord s := by
  rw [readRecord, extractInt_space (by decide)]
  rfl

/-- The reader finds one record a line, and stops at the end. -/
theorem nodeRecords_lines (hP : ReadsAs P f) (ns : List (Node D))
    (hns : ∀ n ∈ ns, n.Printable P) :
    nodeRecords (ns.flatMap nodeLine) = ns.map fun n => (n.mapCoords f).record := by
  induction ns with
  | nil => rfl
  | cons n ns ih =>
    rw [List.flatMap_cons, nodeRecords,
      readAll_of_some readRecord_consumes (readRecord_nodeLine hP (hns n (by simp)) _),
      readAll_congr readRecord_consumes (readRecord_newline _), List.map_cons]
    rw [nodeRecords] at ih
    rw [ih fun m hm => hns m (List.mem_cons_of_mem _ hm)]

theorem loadNodes_fst (file : Text) :
    (loadNodes (D := D) file).1 =
      (nodeRecords file).foldl (fun m (r : NodeRecord D) => m.insert r.id r.node) ∅ := by
  have hfold : ∀ (rs : List (NodeRecord D)) (t : Map ℤ (Node D) × Slots),
      (rs.foldl loadRecord t).1 = rs.foldl (fun m r => m.insert r.id r.node) t.1 := by
    intro rs
    induction rs with
    | nil => exact fun t => rfl
    | cons r rs ih => exact fun t => ih (loadRecord t r)
  exact hfold _ _

/-- **Reading back what was written**, node by node. -/
theorem getElem?_loadNodes_nodesText (hP : ReadsAs P f) {nodes : Map ℤ (Node D)}
    (hnodes : ∀ (k : ℤ) (n : Node D), nodes[k]? = some n → n.id = k ∧ n.Printable P) (k : ℤ) :
    (loadNodes (nodesText nodes)).1[k]? = nodes[k]?.map (Node.mapCoords f) := by
  have hmem : ∀ p ∈ nodes.toList, p.2.id = p.1 ∧ p.2.Printable P := fun p hp =>
    hnodes p.1 p.2 (Std.ExtTreeMap.mem_toList_iff_getElem?_eq_some.mp hp)
  have hlines : nodesText nodes = (nodes.toList.map Prod.snd).flatMap nodeLine := by
    rw [nodesText, List.flatMap_map]
  have hprintable : ∀ n ∈ nodes.toList.map Prod.snd, n.Printable P := by
    intro n hn
    obtain ⟨p, hp, rfl⟩ := List.mem_map.mp hn
    exact (hmem p hp).2
  rw [loadNodes_fst, hlines, nodeRecords_lines hP _ hprintable, List.foldl_map, List.foldl_map,
    ← getElem?_foldl_insert]
  -- each node is stored under the id that its line carries
  refine congrArg (fun m : Map ℤ (Node D) => m[k]?) (List.foldl_ext _ _ _ fun acc p hp => ?_)
  rw [Node.node_record]
  exact congrArg (fun k => acc.insert k (p.2.mapCoords f)) (hmem p hp).1

theorem loadNodes_nodesText (hP : ReadsBack P) {nodes : Map ℤ (Node D)}
    (hnodes : ∀ (k : ℤ) (n : Node D), nodes[k]? = some n → n.id = k ∧ n.Printable P) :
    (loadNodes (nodesText nodes)).1 = nodes := by
  refine Std.ExtTreeMap.ext_getElem? fun k => ?_
  rw [getElem?_loadNodes_nodesText hP.readsAs hnodes k]
  exact Option.map_id'

/-- A successful capacity change has written the file. -/
theorem nodesList_of_update {sys sys' : SmartParking D} {r : UpdateRequest} {id cap : ℤ}
    (h : Served handle sys (.update r, .update (.success id cap)) sys') :
    sys'.nodesList = nodesText sys'.nodes := by
  cases effect_of_served h with
  | nothing _ _ hno => exact absurd rfl (hno id cap)
  | update _ hn _ _ _ =>
    rw [updateCapacity_eq hn]
    rfl

/-- All but the capacity of a node is as it was read from the file. -/
theorem Framed.printable {nodesList : Text} {nodes : Map ℤ (Node D)}
    (hframed : Framed (loadNodes nodesList).1 nodes) (hcaps : IntCapacities nodes)
    (hcoords : ∀ r ∈ (nodeRecords nodesList : List (NodeRecord D)), P r.x ∧ P r.y) :
    ∀ (k : ℤ) (n : Node D), nodes[k]? = some n → n.id = k ∧ n.Printable P := by
  intro k n hn
  obtain ⟨n₀, hn₀, heq⟩ := hframed.fields k n hn
  obtain ⟨r, hr, hid, rfl⟩ := exists_record hn₀
  obtain ⟨hint, hword, _⟩ := nodeRecords_fields hr
  obtain ⟨hx, hy⟩ := hcoords r hr
  refine ⟨hframed.id k n hn, ?_⟩
  have hcap := hcaps k n hn
  rw [heq]
  exact ⟨hint, hword, hcap, hx, hy⟩

/-- **After each capacity change** the file holds the table: loading it gives the
table in memory, and saving that again gives the same text. -/
theorem saved_reloads (hP : ReadsBack P) {nodesList adjacencyList transport : Text}
    (hcoords : ∀ r ∈ (nodeRecords nodesList : List (NodeRecord D)), P r.x ∧ P r.y)
    (hk : TableKnown (start (D := D) nodesList adjacencyList transport)) {es : List (Event D)}
    {s s' : SmartParking D}
    (h : Run (Served handle) (start nodesList adjacencyList transport) es s)
    {r : UpdateRequest} {id cap : ℤ}
    (hstep : Served handle s (.update r, .update (.success id cap)) s') :
    s'.nodesList = nodesText s'.nodes ∧ (loadNodes s'.nodesList).1 = s'.nodes ∧
      nodesText (loadNodes (D := D) s'.nodesList).1 = s'.nodesList := by
  have hrun := h.snoc hstep
  obtain ⟨_, hframed⟩ := framed_of_tableKnown hk hrun
  have hsaved := nodesList_of_update hstep
  have hnodes := hframed.printable (intCapacities_of_run hrun) hcoords
  have hload : (loadNodes s'.nodesList).1 = s'.nodes := by
    rw [hsaved]
    exact loadNodes_nodesText hP hnodes
  exact ⟨hsaved, hload, by rw [hload, hsaved]⟩

end save

/-- Whole numbers of at most six digits are read as they were printed. -/
theorem readsBack_whole : ReadsBack fun d : ℤ => -999999 ≤ d ∧ d ≤ 999999 := by
  intro d hd rest hrest
  show extractInt (' ' :: (printInt d ++ rest)) = some (d, rest)
  rw [extractInt_space (by decide)]
  exact extractInt_printInt ⟨by simp only [intMin]; omega, by simp only [intMax]; omega⟩
    hrest.not_digit

/-- One place, and ghosts under all ids that the table has. -/
def townFile : Text :=
  "71 A 2 0 0 0\n".toList ++ (List.range 71).flatMap fun i => printInt i ++ " g 5 -3 7 1\n".toList

def town : SmartParking ℤ := start townFile [] []

theorem tableKnown_town : TableKnown town := by
  have hall : ∀ p ∈ town.visualPaths.toList, ∀ id ∈ p.2, id ∈ town.nodes := by decide +kernel
  intro k ids hk
  exact hall (k, ids) (Std.ExtTreeMap.mem_toList_iff_getElem?_eq_some.mpr hk)

def resizeTown : UpdateRequest := { idParam := some "71".toList, capParam := some ['5'] }

theorem saved_reloads_town : ∃ s',
    Served handle town (.update resizeTown, .update (.success 71 5)) s' ∧
      (loadNodes s'.nodesList).1 = s'.nodes := by
  have hstep : Served handle town (.update resizeTown, .update (.success 71 5))
      (town.updateCapacity 71 5) := served_of_updateEnter (by decide +kernel)
  have hcoords : ∀ r ∈ (nodeRecords townFile : List (NodeRecord ℤ)),
      (-999999 ≤ r.x ∧ r.x ≤ 999999) ∧ (-999999 ≤ r.y ∧ r.y ≤ 999999) := by decide +kernel
  exact ⟨_, hstep, (saved_reloads readsBack_whole hcoords tableKnown_town .nil hstep).2.1⟩

end SmartParking
