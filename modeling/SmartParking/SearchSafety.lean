/-
When the route search returns, whatever weights the road file has.

`loadGraph` takes any `int` as a weight, and `dijkstra` adds weights to distances
without a check.  A run of the search that leaves the `int` range has no result.

* `dijkstra_returns_iff` — the search returns exactly when every road that leaves a
  node within reach (at a distance below `INT_MAX`, over roads that are not negative)
  has a nonnegative weight that can be added to the distance of that node;
* `dijkstra_ne_diverges` — otherwise it leaves the range: both loops end.

In one direction the search is the label-setting method, in which labels are
distances.  In the other it has come to an end: nothing is queued, so all roads of
all reached nodes have been relaxed (`Relaxing`), which a negative road, usable in
both directions, rules out.
-/
import SmartParking.ShortestRoutes

open StdMap TextStream Walks LabelSetting

namespace SmartParking

variable {D : Type} {nodes : Map ℤ (Node D)} {graph : Adjacency} {src : ℤ}

/-! ### A search that has returned -/

/-- The search has reached `v`, at distance `d`. -/
def Search.Reached (s : Search) (v d : ℤ) : Prop := s.dist[v]? = some d ∧ d < intMax

/-- What the queue loop keeps, whatever the weights.  `edges u` are edges of `u` that
have been relaxed unless `u` is queued with its distance. -/
structure Relaxing (nodes : Map ℤ (Node D)) (graph : Adjacency) (src : ℤ)
    (edges : ℤ → List (ℤ × ℤ)) (s : Search) : Prop where
  keys : ∀ v, (∃ d, s.dist[v]? = some d) ↔ isPlace nodes v = true
  src_dist : ∃ d, s.dist[src]? = some d ∧ d ≤ 0
  le_top : ∀ v d : ℤ, s.dist[v]? = some d → d ≤ intMax
  queued : ∀ e ∈ s.pq, (ofLex e).1 < intMax ∧
    ∃ d, s.dist[(ofLex e).2]? = some d ∧ d ≤ (ofLex e).1
  walk : ∀ v d, s.Reached v d → ∃ p, Walk (ArcOf (roads nodes graph)) src p v d ∧
    ∀ x ∈ p, ∃ dx, s.Reached x dx
  relaxed : ∀ u d, s.Reached u d → toLex (d, u) ∈ s.pq ∨ ∀ a ∈ edges u, IsInt (d + a.2) ∧
    ∃ dv, s.dist[a.1]? = some dv ∧ dv ≤ d + a.2

theorem relaxing_initSearch (hsrc : isPlace nodes src = true) :
    Relaxing nodes graph src (roads nodes graph) (initSearch nodes src) := by
  have hdist : ∀ v d : ℤ, (initSearch nodes src).dist[v]? = some d →
      (v = src ∧ d = 0) ∨ (isPlace nodes v = true ∧ d = intMax) := by
    intro v d hv
    rw [getElem?_initSearch_dist] at hv
    split at hv
    · rename_i heq
      exact .inl ⟨heq, (Option.some_inj.mp hv).symm⟩
    · split at hv
      · rename_i hplace
        exact .inr ⟨hplace, (Option.some_inj.mp hv).symm⟩
      · exact absurd hv (by simp)
  have hreached : ∀ v d, (initSearch nodes src).Reached v d → v = src ∧ d = 0 := by
    rintro v d ⟨hv, hlt⟩
    exact (hdist v d hv).resolve_right fun hc => by omega
  have hzero : (initSearch nodes src).dist[src]? = some 0 := by
    rw [getElem?_initSearch_dist, if_pos rfl]
  refine ⟨fun v => ?_, ⟨0, hzero, le_rfl⟩, ?_, ?_, ?_, ?_⟩
  · -- keys
    rw [getElem?_initSearch_dist]
    by_cases hv : v = src
    · simp [hv, hsrc]
    · cases isPlace nodes v <;> simp [hv]
  · -- le_top
    intro v d hv
    rcases hdist v d hv with ⟨_, rfl⟩ | ⟨_, rfl⟩
    · simp [intMax]
    · exact le_rfl
  · -- queued
    intro e he
    rw [mem_initSearch_pq.mp he]
    exact ⟨by simp [intMax], 0, hzero, le_rfl⟩
  · -- walk
    intro v d hv
    obtain ⟨rfl, rfl⟩ := hreached v d hv
    exact ⟨[v], .nil v, fun x hx => ⟨0, List.mem_singleton.mp hx ▸ hv⟩⟩
  · -- relaxed
    intro u d hu
    obtain ⟨rfl, rfl⟩ := hreached u d hu
    exact .inl (mem_initSearch_pq.mpr rfl)

/-- What one round of the inner loop finds and does. -/
theorem relaxEdge_eq_ok {s s' : Search} {u : ℤ} {e : ℤ × ℤ}
    (hkeys : ∀ v, (∃ d, s.dist[v]? = some d) ↔ isPlace nodes v = true)
    (h : relaxEdge nodes u s e = .ok s') :
    (isPlace nodes e.1 = false ∧ s' = s) ∨
      ∃ old, s.dist[e.1]? = some old ∧ IsInt (s.distAt u + e.2) ∧
        ((old ≤ s.distAt u + e.2 ∧ s' = s) ∨
          (s.distAt u + e.2 < old ∧ s' = s.improve u e.1 (s.distAt u + e.2))) := by
  cases hplace : isPlace nodes e.1 with
  | false =>
    have hnone : s.dist[e.1]? = none := by
      cases hd : s.dist[e.1]? with
      | none => rfl
      | some d => simp [(hkeys e.1).mp ⟨d, hd⟩] at hplace
    rw [relaxEdge, hnone] at h
    refine .inl ⟨rfl, ?_⟩
    split at h <;> exact (Except.ok.inj h).symm
  | true =>
    obtain ⟨old, hold⟩ := (hkeys e.1).mpr hplace
    obtain ⟨n, hn, hghost⟩ := isPlace_iff.mp hplace
    rw [relaxEdge, hn, Option.map_some, hghost, hold] at h
    simp only [Option.getD_some, Bool.false_eq_true, if_false] at h
    obtain ⟨sum, hsum, h⟩ := bind_eq_ok h
    obtain ⟨rfl, hint⟩ := addInt_eq_ok hsum
    refine .inr ⟨old, hold, hint, ?_⟩
    split at h
    · rename_i hlt
      exact .inr ⟨hlt, (Except.ok.inj h).symm⟩
    · rename_i hge
      exact .inl ⟨not_lt.mp hge, (Except.ok.inj h).symm⟩

section relax
variable {s s' : Search} {edges : ℤ → List (ℤ × ℤ)} {u du : ℤ}

theorem Search.Reached.distAt (hu : s.Reached u du) : s.distAt u = du := distAt_of_getElem? hu.1

/-- No distance goes up when one is improved. -/
theorem exists_improve_le {v sum old : ℤ} (hold : s.dist[v]? = some old) (hle : sum ≤ old) (u : ℤ)
    {x d : ℤ} (hx : s.dist[x]? = some d) :
    ∃ d', (s.improve u v sum).dist[x]? = some d' ∧ d' ≤ d := by
  rw [getElem?_improve]
  by_cases hxv : x = v
  · obtain rfl : old = d := by
      rw [hxv, hold, Option.some_inj] at hx
      exact hx
    exact ⟨sum, by rw [if_pos hxv], hle⟩
  · exact ⟨d, by rw [if_neg hxv, hx], le_rfl⟩

theorem Search.Reached.improve_cases {u v sum x d : ℤ} (h : (s.improve u v sum).Reached x d) :
    (x = v ∧ d = sum) ∨ s.Reached x d := by
  obtain ⟨hx, hlt⟩ := h
  rw [getElem?_improve] at hx
  by_cases hxv : x = v
  · rw [if_pos hxv, Option.some_inj] at hx
    exact .inl ⟨hxv, hx.symm⟩
  · rw [if_neg hxv] at hx
    exact .inr ⟨hx, hlt⟩

/-- Improving one distance keeps the invariant: the node improved is queued, and no
distance goes up. -/
theorem Relaxing.improve (h : Relaxing nodes graph src edges s) (hu : s.Reached u du)
    {v w old : ℤ} (harc : ArcOf (roads nodes graph) u v w) (hold : s.dist[v]? = some old)
    (hlt : du + w < old) : Relaxing nodes graph src edges (s.improve u v (du + w)) := by
  have htop := h.le_top v old hold
  have hv : (s.improve u v (du + w)).Reached v (du + w) := by
    refine ⟨?_, by omega⟩
    rw [getElem?_improve, if_pos rfl]
  have hdown : ∀ x d : ℤ, s.dist[x]? = some d →
      ∃ d', (s.improve u v (du + w)).dist[x]? = some d' ∧ d' ≤ d :=
    fun _ _ hx => exists_improve_le hold hlt.le u hx
  have hreached : ∀ x, (∃ d, s.Reached x d) → ∃ d, (s.improve u v (du + w)).Reached x d := by
    rintro x ⟨d, hx, hxlt⟩
    obtain ⟨d', hd', hle⟩ := hdown x d hx
    exact ⟨d', hd', by omega⟩
  refine ⟨fun x => ?_, ?_, ?_, ?_, ?_, ?_⟩
  · -- keys
    rw [← h.keys x, getElem?_improve]
    by_cases hxv : x = v
    · simp [hxv, hold]
    · rw [if_neg hxv]
  · -- src_dist
    obtain ⟨d, hd, hd0⟩ := h.src_dist
    obtain ⟨d', hd', hle⟩ := hdown src d hd
    exact ⟨d', hd', by omega⟩
  · -- le_top
    intro x d hx
    rw [getElem?_improve] at hx
    split at hx
    · rw [Option.some_inj] at hx
      omega
    · exact h.le_top x d hx
  · -- queued
    intro e he
    rcases PriorityQueue.mem_push.mp he with rfl | he
    · exact ⟨hv.2, du + w, hv.1, le_rfl⟩
    · obtain ⟨htop', d, hd, hle⟩ := h.queued e he
      obtain ⟨d', hd', hle'⟩ := hdown _ d hd
      exact ⟨htop', d', hd', hle'.trans hle⟩
  · -- walk
    intro x d hx
    rcases hx.improve_cases with ⟨rfl, rfl⟩ | hx
    · obtain ⟨p, hwalk, hp⟩ := h.walk u du hu
      refine ⟨p ++ [x], hwalk.snoc harc, fun y hy => ?_⟩
      rcases List.mem_append.mp hy with hy | hy
      · exact hreached y (hp y hy)
      · exact ⟨du + w, List.mem_singleton.mp hy ▸ hv⟩
    · obtain ⟨p, hwalk, hp⟩ := h.walk x d hx
      exact ⟨p, hwalk, fun y hy => hreached y (hp y hy)⟩
  · -- relaxed
    intro x d hx
    rw [Search.improve, PriorityQueue.mem_push]
    rcases hx.improve_cases with ⟨rfl, rfl⟩ | hx
    · exact .inl (.inl rfl)
    · rcases h.relaxed x d hx with hq | hall
      · exact .inl (.inr hq)
      · refine .inr fun a ha => ?_
        obtain ⟨hint, dv, hdv, hle⟩ := hall a ha
        obtain ⟨d', hd', hle'⟩ := hdown a.1 dv hdv
        exact ⟨hint, d', hd', hle'.trans hle⟩

/-- One more edge of `u` has been relaxed, or `u` is queued. -/
theorem Relaxing.snoc {es : List (ℤ × ℤ)} {e : ℤ × ℤ}
    (h : Relaxing nodes graph src (Function.update edges u es) s)
    (he : ∀ d, s.Reached u d → toLex (d, u) ∈ s.pq ∨ IsInt (d + e.2) ∧
      ∃ dv, s.dist[e.1]? = some dv ∧ dv ≤ d + e.2) :
    Relaxing nodes graph src (Function.update edges u (es ++ [e])) s := by
  refine ⟨h.keys, h.src_dist, h.le_top, h.queued, h.walk, fun x d hx => ?_⟩
  have hold := h.relaxed x d hx
  by_cases hxu : x = u
  · subst hxu
    rw [Function.update_self] at hold ⊢
    rcases hold with hq | hall
    · exact .inl hq
    · rcases he d hx with hq | hnew
      · exact .inl hq
      · refine .inr fun a ha => ?_
        rcases List.mem_append.mp ha with ha | ha
        · exact hall a ha
        · exact List.mem_singleton.mp ha ▸ hnew
  · rwa [Function.update_of_ne hxu] at hold ⊢

/-- One round of the inner loop, at the reached node `u`. -/
theorem Relaxing.relaxEdge {es : List (ℤ × ℤ)} {e : ℤ × ℤ}
    (h : Relaxing nodes graph src (Function.update edges u es) s) (hu : ∃ d, s.Reached u d)
    (hmem : isPlace nodes e.1 = true → e ∈ roads nodes graph u)
    (hs : SmartParking.relaxEdge nodes u s e = .ok s') :
    Relaxing nodes graph src
        (Function.update edges u (es ++ [e].filter fun e => isPlace nodes e.1)) s' ∧
      ∃ d, s'.Reached u d := by
  obtain ⟨du, hu⟩ := hu
  rcases relaxEdge_eq_ok h.keys hs with ⟨hplace, rfl⟩ | ⟨old, hold, hint, hcases⟩
  · rw [List.filter_singleton, hplace]
    simp only [cond_false, List.append_nil]
    exact ⟨h, du, hu⟩
  · have hplace : isPlace nodes e.1 = true := (h.keys e.1).mp ⟨old, hold⟩
    rw [List.filter_singleton, hplace, cond_true]
    rw [hu.distAt] at hint hcases
    have hunique : ∀ d, s.Reached u d → d = du := by
      rintro d ⟨hd, _⟩
      rw [hu.1, Option.some_inj] at hd
      exact hd.symm
    rcases hcases with ⟨hle, rfl⟩ | ⟨hlt, rfl⟩
    · refine ⟨h.snoc fun d hd => .inr ?_, du, hu⟩
      rw [hunique d hd]
      exact ⟨hint, old, hold, hle⟩
    · have himprove := h.improve hu (hmem hplace) hold hlt
      by_cases hloop : u = e.1
      · -- a negative loop at `u`: the node is queued again
        have hnew : (s.improve u e.1 (du + e.2)).dist[u]? = some (du + e.2) := by
          rw [getElem?_improve, if_pos hloop]
        have htop := h.le_top e.1 old hold
        refine ⟨himprove.snoc fun d hd => .inl ?_, du + e.2, hnew, by omega⟩
        obtain rfl : du + e.2 = d := by
          have := hd.1
          rwa [hnew, Option.some_inj] at this
        rw [Search.improve, PriorityQueue.mem_push, ← hloop]
        exact .inl rfl
      · have hkeep : (s.improve u e.1 (du + e.2)).dist[u]? = some du := by
          rw [getElem?_improve, if_neg hloop, hu.1]
        refine ⟨himprove.snoc fun d hd => .inr ?_, du, hkeep, hu.2⟩
        obtain rfl : du = d := by
          have := hd.1
          rwa [hkeep, Option.some_inj] at this
        exact ⟨hint, _, by rw [getElem?_improve, if_pos rfl], le_rfl⟩

/-- The inner loop. -/
theorem Relaxing.foldlM_relaxEdge (l : List (ℤ × ℤ))
    (hmem : ∀ e ∈ l, isPlace nodes e.1 = true → e ∈ roads nodes graph u) :
    ∀ {s s' : Search} {es : List (ℤ × ℤ)},
      Relaxing nodes graph src (Function.update edges u es) s → (∃ d, s.Reached u d) →
      l.foldlM (SmartParking.relaxEdge nodes u) s = .ok s' →
      Relaxing nodes graph src
        (Function.update edges u (es ++ l.filter fun e => isPlace nodes e.1)) s' := by
  induction l with
  | nil =>
    intro s s' es h _ hs
    obtain rfl : s = s' := Except.ok.inj hs
    simpa using h
  | cons e l ih =>
    intro s s' es h hu hs
    rw [List.foldlM_cons] at hs
    obtain ⟨s₁, hs₁, hs⟩ := bind_eq_ok hs
    obtain ⟨h₁, hu₁⟩ := h.relaxEdge hu (hmem e (by simp)) hs₁
    have hrest := ih (fun a ha => hmem a (List.mem_cons_of_mem _ ha)) h₁ hu₁ hs
    rwa [List.append_assoc, ← List.filter_append, List.singleton_append] at hrest

/-- An entry is taken from the queue; if it was that of a reached node with its
distance, nothing is known any more of the edges of that node. -/
theorem Relaxing.pop (h : Relaxing nodes graph src edges s) {entry : ℤ ×ₗ ℤ}
    {pq : PriorityQueue (ℤ ×ₗ ℤ)} (hpop : s.pq.pop? = some (entry, pq))
    {edges' : ℤ → List (ℤ × ℤ)}
    (hkeep : ∀ x d, s.Reached x d → toLex (d, x) ≠ entry → edges' x = edges x)
    (hempty : ∀ x d, s.Reached x d → toLex (d, x) = entry → edges' x = []) :
    Relaxing nodes graph src edges' { s with pq := pq } := by
  have hmem := PriorityQueue.mem_iff_of_pop? hpop
  refine ⟨h.keys, h.src_dist, h.le_top, fun e he => h.queued e ?_, h.walk, fun x d hx => ?_⟩
  · exact (hmem e).mpr (.inr he)
  · by_cases hentry : toLex (d, x) = entry
    · rw [hempty x d hx hentry]
      exact .inr (by simp)
    · rw [hkeep x d hx hentry]
      exact (h.relaxed x d hx).imp_left fun hq => ((hmem _).mp hq).resolve_left hentry

/-- The queue loop keeps the invariant, and ends with nothing queued. -/
theorem Relaxing.searchLoop {fuel : ℕ} (h : Relaxing nodes graph src (roads nodes graph) s)
    (hs : SmartParking.searchLoop nodes graph fuel s = .ok s') :
    Relaxing nodes graph src (roads nodes graph) s' ∧ s'.pq.pop? = none := by
  refine searchLoop_invariant (I := Relaxing nodes graph src (roads nodes graph)) ?_ ?_ fuel h hs
  · intro s entry pq h hpop hstale
    refine h.pop hpop (fun _ _ _ _ => rfl) fun x d hx hentry => ?_
    rw [← hentry] at hstale
    simp only [ofLex_toLex, hx.distAt] at hstale
    exact absurd hstale (lt_irrefl d)
  · intro s entry pq s' h hpop hfresh hfold
    obtain ⟨htop, d, hd, hle⟩ := h.queued entry (PriorityQueue.mem_of_pop? hpop)
    have hu : s.Reached (ofLex entry).2 d := ⟨hd, hle.trans_lt htop⟩
    have hplace : isPlace nodes (ofLex entry).2 = true := (h.keys _).mp ⟨d, hd⟩
    rw [hu.distAt] at hfresh
    have hentry : toLex (d, (ofLex entry).2) = entry := by
      rw [le_antisymm hle hfresh]
      rfl
    have hpopped : Relaxing nodes graph src
        (Function.update (roads nodes graph) (ofLex entry).2 []) { s with pq := pq } := by
      refine h.pop hpop (fun x dx hx hne => ?_) fun x dx _ heq => ?_
      · refine Function.update_of_ne (fun hxu => hne ?_) _ _
        obtain rfl : d = dx := by
          have := hx.1
          rwa [hxu, hd, Option.some_inj] at this
        rw [hxu, hentry]
      · have hxu : x = (ofLex entry).2 := congrArg (fun e => (ofLex e).2) heq
        rw [hxu, Function.update_self]
    have hroads := roads_of_isPlace hplace graph
    have hdone := hpopped.foldlM_relaxEdge (neighbours graph (ofLex entry).2)
      (fun e he hv => by
        rw [hroads]
        exact List.mem_filter.mpr ⟨he, hv⟩) ⟨d, hu⟩ hfold
    rwa [List.nil_append, ← hroads, Function.update_eq_self] at hdone

end relax

/-! ### Roads within reach -/

/-- Every road that leaves a node within reach of `src` is nonnegative, and its weight
added to the distance of that node is an `int`. -/
def SafeFrom (nodes : Map ℤ (Node D)) (lines : List (ℤ × ℤ × ℤ)) (src : ℤ) : Prop :=
  ∀ u c, IsDist (Nonneg (Road nodes lines)) src u c → c < intMax →
    ∀ v w, Road nodes lines u v w → 0 ≤ w ∧ c + w ≤ intMax

section ended
variable {lines : List (ℤ × ℤ × ℤ)} {s : Search}

/-- The roads of a reached node, when the search has come to an end. -/
theorem Relaxing.road (h : Relaxing nodes (roadOf lines) src (roads nodes (roadOf lines)) s)
    (hend : s.pq.pop? = none) {u d : ℤ} (hu : s.Reached u d) {v w : ℤ}
    (hroad : Road nodes lines u v w) :
    IsInt (d + w) ∧ ∃ dv, s.dist[v]? = some dv ∧ dv ≤ d + w := by
  rw [← arcOf_roads_roadOf] at hroad
  exact ((h.relaxed u d hu).resolve_left (PriorityQueue.pop?_eq_none hend _)) (v, w) hroad

/-- A negative road would improve the distances of its ends on each other for ever. -/
theorem Relaxing.road_nonneg
    (h : Relaxing nodes (roadOf lines) src (roads nodes (roadOf lines)) s)
    (hend : s.pq.pop? = none) {u d : ℤ} (hu : s.Reached u d) {v w : ℤ}
    (hroad : Road nodes lines u v w) : 0 ≤ w := by
  by_contra hneg
  obtain ⟨_, dv, hdv, hle⟩ := h.road hend hu hroad
  have hlt := hu.2
  have hv : s.Reached v dv := ⟨hdv, by omega⟩
  obtain ⟨_, du, hdu, hle'⟩ := h.road hend hv ⟨hroad.2.1, hroad.1, hroad.2.2.symm⟩
  rw [hu.1, Option.some_inj] at hdu
  omega

/-- Along roads that are not negative the search has reached what is near enough. -/
theorem Relaxing.reached_of_walk
    (h : Relaxing nodes (roadOf lines) src (roads nodes (roadOf lines)) s)
    (hend : s.pq.pop? = none) {x u : ℤ} {p : List ℤ} {c : ℤ}
    (hwalk : Walk (Nonneg (Road nodes lines)) x p u c) :
    ∀ dx, s.Reached x dx → dx + c < intMax → ∃ d, s.Reached u d ∧ d ≤ dx + c := by
  induction hwalk with
  | nil x => exact fun dx hx _ => ⟨dx, hx, by omega⟩
  | @cons x v u p w c harc hrest ih =>
    intro dx hx hlt
    have hc : 0 ≤ c := hrest.cost_nonneg fun _ _ _ ha => ha.2
    obtain ⟨_, dv, hdv, hle⟩ := h.road hend hx harc.1
    obtain ⟨d, hd, hle'⟩ := ih dv ⟨hdv, by omega⟩ (by omega)
    exact ⟨d, hd, by omega⟩

/-- **A search that has ended** has found all roads within reach safe. -/
theorem Relaxing.safeFrom (h : Relaxing nodes (roadOf lines) src (roads nodes (roadOf lines)) s)
    (hend : s.pq.pop? = none) : SafeFrom nodes lines src := by
  intro u c hdist hc v w hroad
  obtain ⟨d₀, hd₀, hd₀0⟩ := h.src_dist
  have hpos : (0 : ℤ) < intMax := by simp [intMax]
  obtain ⟨p, hwalk⟩ := hdist.1
  obtain ⟨d, hu, hle⟩ := h.reached_of_walk hend hwalk d₀ ⟨hd₀, by omega⟩ (by omega)
  refine ⟨h.road_nonneg hend hu hroad, ?_⟩
  -- the distance found is the weight of a walk, over reached nodes and so without negative roads
  obtain ⟨q, hq, hreached⟩ := h.walk u d hu
  rw [arcOf_roads_roadOf] at hq
  have hq' : Walk (Nonneg (Road nodes lines)) src q u d := by
    refine hq.mono_of_mem fun x y w hx harc => ⟨harc, ?_⟩
    obtain ⟨dx, hdx⟩ := hreached x hx
    exact h.road_nonneg hend hdx harc
  have hcd : c ≤ d := hdist.2 ⟨q, hq'⟩
  have hint := (h.road hend hu hroad).1.2
  omega

end ended

section returns
variable {lines : List (ℤ × ℤ × ℤ)} {dest : ℤ}

theorem safeFrom_of_searchLoop (hsrc : isPlace nodes src = true) {fuel : ℕ} {s : Search}
    (hs : searchLoop nodes (roadOf lines) fuel (initSearch nodes src) = .ok s) :
    SafeFrom nodes lines src := by
  obtain ⟨h, hend⟩ := (relaxing_initSearch hsrc).searchLoop hs
  exact h.safeFrom hend

/-- **A search over safe roads** returns: the next node to settle is within reach, and
its label is its distance. -/
theorem dijkstra_of_safeFrom (hsafe : SafeFrom nodes lines src) (hsrc : isPlace nodes src = true)
    (hdest : isPlace nodes dest = true) :
    ∃ path, dijkstra nodes src dest (roadOf lines) = .ok path := by
  have hfits : ∀ (l : Labels ℤ) (done : List ℤ) (u : ℤ),
      (Explored (roads nodes (roadOf lines)) intMax src l done ∧
        ∀ x ∈ done, ∀ a ∈ roads nodes (roadOf lines) x, 0 ≤ a.2) → Least intMax l done u →
      ∀ a ∈ roads nodes (roadOf lines) u, 0 ≤ a.2 ∧ l.dist u + a.2 ≤ intMax := by
    rintro l done u ⟨hexp, hnonneg⟩ hu a ha
    have hdist := hexp.isDist_of_least hnonneg hu
    have harc : ArcOf (roads nodes (roadOf lines)) u a.1 a.2 := ha
    rw [arcOf_roads_roadOf] at hdist harc
    exact hsafe u _ hdist hu.reached a.1 a.2 harc
  obtain ⟨s, l, done, hloop, hsim, ⟨hexp, _⟩, _⟩ := searchLoop_ends hsrc
    (I := fun l done => Explored (roads nodes (roadOf lines)) intMax src l done ∧
      ∀ x ∈ done, ∀ a ∈ roads nodes (roadOf lines) x, 0 ≤ a.2)
    (fun _ _ hI => hI.1) hfits
    (fun l done u hI hu => by
      have hadj : ∀ a ∈ roads nodes (roadOf lines) u, 0 ≤ a.2 :=
        fun a ha => (hfits l done u hI hu a ha).1
      refine ⟨explored_step hI.1 hadj hu, fun x hx => ?_⟩
      rcases List.mem_append.mp hx with hx | hx
      · exact hI.2 x hx
      · exact List.mem_singleton.mp hx ▸ hadj)
    ⟨explored_initial (by simp [intMax]), by simp⟩
  rcases (hexp.le_top dest).eq_or_lt with htop | hlt
  · exact ⟨[], by rw [dijkstra_of_searchLoop hsrc hdest hloop hsim, if_pos htop]⟩
  · obtain ⟨p, htrace, _, hnodup, _⟩ := hexp.exists_trace hlt
    exact ⟨p, dijkstra_of_traces hsrc hdest hloop hsim hlt htrace hnodup⟩

/-- **When the search returns.**  Both loops end and no sum leaves the `int` range
exactly when an end is no place, or every road within reach is safe. -/
theorem dijkstra_returns_iff (nodes : Map ℤ (Node D)) (lines : List (ℤ × ℤ × ℤ)) (src dest : ℤ) :
    (∃ path, dijkstra nodes src dest (roadOf lines) = .ok path) ↔
      (isPlace nodes src = true → isPlace nodes dest = true → SafeFrom nodes lines src) := by
  constructor
  · rintro ⟨path, hpath⟩ hsrc hdest
    rw [dijkstra, contains_initDist, contains_initDist, hsrc, hdest] at hpath
    obtain ⟨s, hs, _⟩ := bind_eq_ok hpath
    exact safeFrom_of_searchLoop hsrc hs
  · intro hsafe
    by_cases hplaces : isPlace nodes src = true ∧ isPlace nodes dest = true
    · exact dijkstra_of_safeFrom (hsafe hplaces.1 hplaces.2) hplaces.1 hplaces.2
    · exact ⟨[], dijkstra_of_not_places hplaces⟩

/-- A road of more than half of `INT_MAX` is enough: going back over it is tried too. -/
theorem search_leaves_range :
    dijkstra villageNodes 1 2 (loadGraph "1 2 1500000000\n".toList) = .error .overflow := by
  have hlines : readAll readEdge "1 2 1500000000\n".toList = [(1, 2, 1500000000)] := by
    decide +kernel
  rw [loadGraph, hlines]
  decide +kernel

/-- Both loops end on every road file: a search that does not return has left the
`int` range. -/
theorem dijkstra_ne_diverges (nodes : Map ℤ (Node D)) (lines : List (ℤ × ℤ × ℤ)) (src dest : ℤ) :
    dijkstra nodes src dest (roadOf lines) ≠ .error .diverges := by
  by_cases hplaces : isPlace nodes src = true ∧ isPlace nodes dest = true
  · obtain ⟨hsrc, hdest⟩ := hplaces
    intro hdiv
    have hloop : searchLoop nodes (roadOf lines) (searchFuel nodes) (initSearch nodes src) ≠
        .error .diverges := searchLoop_initSearch_ne_diverges hsrc _
    cases hs : searchLoop nodes (roadOf lines) (searchFuel nodes) (initSearch nodes src) with
    | ok s =>
      obtain ⟨path, hpath⟩ := dijkstra_of_safeFrom (safeFrom_of_searchLoop hsrc hs) hsrc hdest
      simp [hpath] at hdiv
    | error halt =>
      have hhalt : dijkstra nodes src dest (roadOf lines) = .error halt := by
        rw [dijkstra, contains_initDist, contains_initDist, hsrc, hdest, hs]
        rfl
      rw [hdiv] at hhalt
      rw [hs, Except.error.inj hhalt] at hloop
      exact hloop rfl
  · rw [dijkstra_of_not_places hplaces]
    simp

end returns

end SmartParking
