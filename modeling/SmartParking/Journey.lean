/-
What a client is told of a granted request.

The reply has coordinates and one name, and no ids.  They describe one journey:

* `exists_of_getId` — a name that is found is that of a node;
* `guides_of_route` — the line drawn starts at the place whose name was asked for and
  ends at the place whose name is given as the parking node; from there, unless it is
  the destination, the transport line leads to the place asked for.
-/
import SmartParking.ParkingChoice

open StdMap TextStream LabelSetting

namespace SmartParking

variable {D : Type}

theorem exists_of_getId {sys : SmartParking D} {name : Text} {id : ℤ}
    (h : getId sys name = id) (hne : id ≠ -1) :
    ∃ n, sys.nodes[id]? = some n ∧ n.name = name := by
  rw [getId] at h
  cases hf : sys.nodes.toList.find? fun p => p.2.name = name with
  | none =>
    rw [hf] at h
    exact absurd h.symm hne
  | some p =>
    rw [hf] at h
    obtain rfl : p.1 = id := h
    exact ⟨p.2, Std.ExtTreeMap.mem_toList_iff_getElem?_eq_some.mp (List.mem_of_find?_eq_some hf),
      by simpa using List.find?_some hf⟩

/-! ### The journey -/

/-- A reply describes a journey: the line drawn runs from the first node to the parking
node, whose name it gives, and the transport line from there to the last node. -/
structure Journey (n₀ p n₁ : Node D) (body : RouteBody D) : Prop where
  starts : body.path.head? = some n₀.point
  ends : body.path.getLast? = some p.point
  parked : body.parkingNode = p.name
  transport : body.transport =
    if body.fallback then some { x₀ := p.x, y₀ := p.y, x₁ := n₁.x, y₁ := n₁.y } else none

theorem Journey.path_ne_nil {n₀ p n₁ : Node D} {body : RouteBody D} (h : Journey n₀ p n₁ body) :
    body.path ≠ [] := by
  intro hc
  have hstarts := h.starts
  rw [hc] at hstarts
  simp at hstarts

/-- A reply describes a journey between nodes with the names asked for, by way of the
node reserved, which is the destination unless the reply says otherwise. -/
def Guides (sys : SmartParking D) (r : RouteRequest) (grant : Grant) (body : RouteBody D) : Prop :=
  ∃ n₀ p n₁ : Node D, sys.nodes[grant.src]? = some n₀ ∧ n₀.name = r.s.getD [] ∧
    sys.nodes[grant.parkingNode]? = some p ∧ p.ghost = false ∧
    sys.nodes[grant.dest]? = some n₁ ∧ n₁.name = r.e.getD [] ∧
    Journey n₀ p n₁ body ∧ (body.fallback = true ↔ grant.parkingNode ≠ grant.dest)

theorem guides_of_route [Zero D] {sys sys' : SmartParking D} {r : RouteRequest} {grant : Grant}
    {body : RouteBody D} (h : route sys r = .ok (sys', .success grant body)) :
    Guides sys r grant body := by
  obtain ⟨t, hg⟩ := route_success h
  have ht := hg.found
  have hp : (chooseParking sys t).parkingNode ≠ -1 := by
    have := hg.parking
    rwa [hg.grant_eq] at this
  have hplace : isPlace sys.nodes (chooseParking sys t).parkingNode = true :=
    (availableAtTime_iff.mp (chooseParking_available hp)).2.1
  obtain ⟨n₀, hn₀, hname₀⟩ := exists_of_getId ht.src ht.src_known
  obtain ⟨n₁, hn₁, hname₁⟩ := exists_of_getId ht.dest ht.dest_known
  obtain ⟨p, hnp, hghost⟩ := isPlace_iff.mp hplace
  have hpoint : ∀ {id : ℤ} {n : Node D}, sys.nodes[id]? = some n → sys.nodes.getD id default = n :=
    fun hn => by rw [getD_eq, hn, Option.getD_some]
  rw [body_of_route h, hg.grant_eq]
  have hline : ((t.grant sys (chooseParking sys t)).body sys.nodes).path =
      (displayPath sys t (chooseParking sys t)).map (pointAt sys.nodes) := rfl
  obtain ⟨pre, post, hpath, hdisplay⟩ :=
    displayPath_eq ht (nodup_dijkstra ht.search) ht.getLast? hp
  obtain ⟨_, _, hlast⟩ := buildVisualRoute_append sys.visualPaths pre
    (chooseParking sys t).parkingNode post
  have hhead : (pre ++ [(chooseParking sys t).parkingNode]).head? = some t.src := by
    obtain ⟨_, htraces⟩ := traces_of_dijkstra ht.search ht.nonempty
    rw [← htraces.head?_eq, hpath]
    cases pre <;> rfl
  refine ⟨n₀, p, n₁, hn₀, hname₀, hnp, hghost, hn₁, hname₁, ⟨?_, ?_, ?_, ?_⟩, ?_⟩
  · rw [hline, List.head?_map, hdisplay, head?_buildVisualRoute, hhead, Option.map_some, pointAt,
      hpoint hn₀]
  · rw [hline, List.getLast?_map, hdisplay, hlast, Option.map_some, pointAt, hpoint hnp]
  · exact congrArg Node.name (hpoint hnp)
  · simp only [Grant.body, Trip.grant, pointAt]
    rw [hpoint hnp, hpoint hn₁]
    rfl
  · rcases chooseParking_cases sys ht.getLast? with ⟨_, hnone⟩ | ⟨_, _, rfl, _, hfall⟩
    · exact absurd hnone hp
    · exact hfall

end SmartParking
