/-
`dijkstra` returns a shortest road path.

The search is compared with the label-setting method: `Sim` relates the local
variables of `dijkstra` to labels and to the list of nodes settled so far.  The
queue may hold several entries for one node; the entry that carries the current
distance of an unsettled node is always there (`live`), and every entry of a
settled node is stale (`queued`).

* `Sim.foldlM_relaxEdge` — the inner loop is `expand`;
* `searchLoop_sim`, `searchLoop_ends` — the queue loop is the label-setting
  method, and ends with nothing reached left to settle;
* `dijkstra_spec` — on a `Light` graph the search returns, and the result is
  empty if there is no walk and else a shortest one without repeated nodes;
* `light_roadOf`, `arcOf_roads_roadOf` — a road map built by `loadGraph` is
  `Light` when the weights are nonnegative and twice their sum is below
  `INT_MAX`, and its arcs are the lines of the file in both directions.
-/
import SmartParking.Library.LabelSetting
import SmartParking.Search

open StdMap TextStream Walks LabelSetting

namespace SmartParking

variable {D : Type}

/-- The edges the search can use: between nodes that are present and no ghosts. -/
def roads (nodes : Map ℤ (Node D)) (graph : Adjacency) (u : ℤ) : List (ℤ × ℤ) :=
  if isPlace nodes u = true then (neighbours graph u).filter fun e => isPlace nodes e.1 else []

theorem roads_of_isPlace {nodes : Map ℤ (Node D)} {u : ℤ} (hu : isPlace nodes u = true)
    (graph : Adjacency) :
    roads nodes graph u = (neighbours graph u).filter fun e => isPlace nodes e.1 := by
  rw [roads, if_pos hu]

/-- Weights are nonnegative and the sum of all of them is below `INT_MAX`. -/
structure Light (graph : Adjacency) : Prop where
  nonneg : ∀ u, ∀ e ∈ neighbours graph u, 0 ≤ e.2
  total : ∀ l : List ℤ, l.Nodup → weight (neighbours graph) l < intMax

/-- The variables of the search and the labels agree, and the queue is in order. -/
structure Sim (nodes : Map ℤ (Node D)) (s : Search) (l : Labels ℤ) (done : List ℤ) : Prop where
  dist : ∀ v, s.dist[v]? = if isPlace nodes v = true then some (l.dist v) else none
  parent : ∀ v, s.parent[v]? = l.parent v
  places : ∀ v, l.dist v < intMax → isPlace nodes v = true
  le_top : ∀ v, l.dist v ≤ intMax
  nodup : s.pq.entries.Nodup
  queued : ∀ e ∈ s.pq, l.dist (ofLex e).2 ≤ (ofLex e).1 ∧ (ofLex e).1 < intMax ∧
    ((ofLex e).2 ∈ done → l.dist (ofLex e).2 < (ofLex e).1)
  live : ∀ v, v ∉ done → l.dist v < intMax → toLex (l.dist v, v) ∈ s.pq

variable {nodes : Map ℤ (Node D)} {graph : Adjacency} {s : Search} {l : Labels ℤ} {done : List ℤ}

theorem Sim.distAt (h : Sim nodes s l done) {u : ℤ} (hu : isPlace nodes u = true) :
    s.distAt u = l.dist u :=
  distAt_of_getElem? (by rw [h.dist, if_pos hu])

/-! ### One edge -/

/-- An edge to a ghost or to an unknown node is skipped. -/
theorem relaxEdge_of_not_place (h : Sim nodes s l done) {u : ℤ} {e : ℤ × ℤ}
    (he : isPlace nodes e.1 = false) : relaxEdge nodes u s e = .ok s := by
  have hnone : s.dist[e.1]? = none := by
    rw [h.dist, he]
    rfl
  rw [relaxEdge, hnone]
  split <;> rfl

theorem relaxEdge_of_place (h : Sim nodes s l done) {u : ℤ} {e : ℤ × ℤ}
    (hu : isPlace nodes u = true) (he : isPlace nodes e.1 = true)
    (hint : IsInt (l.dist u + e.2)) :
    relaxEdge nodes u s e =
      .ok (if l.dist u + e.2 < l.dist e.1 then s.improve u e.1 (l.dist u + e.2) else s) := by
  obtain ⟨n, hn, hghost⟩ := isPlace_iff.mp he
  have hdist : s.dist[e.1]? = some (l.dist e.1) := by rw [h.dist, if_pos he]
  rw [relaxEdge, hn, Option.map_some, hghost, hdist, h.distAt hu, addInt, if_pos hint]
  simp only [Option.getD_some, Bool.false_eq_true, if_false, bind, Except.bind]
  split <;> rfl

/-- Improving one distance keeps the simulation: no settled node is improved. -/
theorem Sim.improve (h : Sim nodes s l done) {u v w : ℤ} (hw : 0 ≤ w)
    (hdone : ∀ x ∈ done, l.dist x ≤ l.dist u) (hv : isPlace nodes v = true)
    (hlt : l.dist u + w < l.dist v) :
    Sim nodes (s.improve u v (l.dist u + w)) (relax u l (v, w)) done := by
  have hvd : v ∉ done := fun hc => by
    have := hdone v hc
    omega
  have hdist : (relax u l (v, w)).dist = Function.update l.dist v (l.dist u + w) := by
    rw [relax, if_pos hlt]
  have hparent : (relax u l (v, w)).parent = Function.update l.parent v (some u) := by
    rw [relax, if_pos hlt]
  have htop := h.le_top v
  -- the new entry is smaller than every entry of `v` in the queue
  have hnew : toLex (l.dist u + w, v) ∉ s.pq := by
    intro hc
    have := (h.queued _ hc).1
    simp only [ofLex_toLex] at this
    omega
  have hle : ∀ x, (relax u l (v, w)).dist x ≤ l.dist x := relax_dist_le u l (v, w)
  refine ⟨?_, ?_, ?_, ?_, PriorityQueue.nodup_push h.nodup hnew, ?_, ?_⟩
  · -- dist
    intro x
    rw [hdist, getElem?_improve, h.dist]
    by_cases hx : x = v
    · rw [if_pos hx, hx, if_pos hv, Function.update_self]
    · rw [if_neg hx, Function.update_of_ne hx]
  · -- parent
    intro x
    rw [hparent, getElem?_improve_parent, h.parent]
    by_cases hx : x = v
    · rw [if_pos hx, hx, Function.update_self]
    · rw [if_neg hx, Function.update_of_ne hx]
  · -- places
    intro x hx
    by_cases hxv : x = v
    · rw [hxv]
      exact hv
    · rw [hdist, Function.update_of_ne hxv] at hx
      exact h.places x hx
  · -- le_top
    exact fun x => (hle x).trans (h.le_top x)
  · -- queued
    intro e he
    rcases PriorityQueue.mem_push.mp he with rfl | he
    · rw [hdist, ofLex_toLex, Function.update_self]
      exact ⟨le_rfl, by omega, fun hc => absurd hc hvd⟩
    · obtain ⟨h1, h2, h3⟩ := h.queued e he
      exact ⟨(hle _).trans h1, h2, fun hc => (hle _).trans_lt (h3 hc)⟩
  · -- live
    intro x hx hlt'
    rw [Search.improve, PriorityQueue.mem_push]
    by_cases hxv : x = v
    · rw [hdist, hxv, Function.update_self]
      exact .inl rfl
    · rw [hdist, Function.update_of_ne hxv] at hlt' ⊢
      exact .inr (h.live x hx hlt')

/-- One round of the inner loop: `relax`, for an edge the search can use. -/
theorem Sim.relaxEdge (h : Sim nodes s l done) {u : ℤ} {e : ℤ × ℤ} (hu : 0 ≤ l.dist u)
    (hplace : isPlace nodes u = true) (hdone : ∀ x ∈ done, l.dist x ≤ l.dist u)
    (hfits : isPlace nodes e.1 = true → 0 ≤ e.2 ∧ l.dist u + e.2 ≤ intMax) :
    ∃ s', SmartParking.relaxEdge nodes u s e = .ok s' ∧
      Sim nodes s' (if isPlace nodes e.1 = true then relax u l e else l) done := by
  cases hv : isPlace nodes e.1 with
  | false =>
    exact ⟨s, relaxEdge_of_not_place h hv, by simpa using h⟩
  | true =>
    obtain ⟨he, htop⟩ := hfits hv
    have hint : IsInt (l.dist u + e.2) := ⟨by simp only [intMin]; omega, htop⟩
    refine ⟨_, relaxEdge_of_place h hplace hv hint, ?_⟩
    rw [if_pos rfl]
    by_cases hlt : l.dist u + e.2 < l.dist e.1
    · rw [if_pos hlt]
      exact h.improve he hdone hv hlt
    · rw [if_neg hlt, relax, if_neg hlt]
      exact h

/-! ### One settled node -/

/-- The inner loop relaxes the edges the search can use. -/
theorem Sim.foldlM_relaxEdge {u : ℤ} (hplace : isPlace nodes u = true) (es : List (ℤ × ℤ)) :
    ∀ {s : Search} {l : Labels ℤ}, Sim nodes s l done → 0 ≤ l.dist u →
      (∀ x ∈ done, l.dist x ≤ l.dist u) →
      (∀ e ∈ es, isPlace nodes e.1 = true → 0 ≤ e.2 ∧ l.dist u + e.2 ≤ intMax) →
      ∃ s', es.foldlM (SmartParking.relaxEdge nodes u) s = .ok s' ∧
        Sim nodes s' ((es.filter fun e => isPlace nodes e.1).foldl (relax u) l) done := by
  induction es with
  | nil =>
    intro s l h _ _ _
    exact ⟨s, rfl, h⟩
  | cons e es ih =>
    intro s l h hu hdone hfits
    obtain ⟨s₁, hs₁, h₁⟩ := h.relaxEdge hu hplace hdone (hfits e (by simp))
    -- the label of `u` stays, and no label goes up
    have hself : (if isPlace nodes e.1 = true then relax u l e else l).dist u = l.dist u := by
      split
      · rename_i hv
        exact relax_self (hfits e (by simp) hv).1
      · rfl
    have hle : ∀ x, (if isPlace nodes e.1 = true then relax u l e else l).dist x ≤ l.dist x := by
      intro x
      split
      · exact relax_dist_le u l e x
      · exact le_rfl
    obtain ⟨s', hs', h'⟩ := ih h₁ (by rw [hself]; exact hu)
      (fun x hx => by rw [hself]; exact (hle x).trans (hdone x hx))
      (fun a ha => by rw [hself]; exact hfits a (List.mem_cons_of_mem _ ha))
    refine ⟨s', ?_, ?_⟩
    · rw [List.foldlM_cons, hs₁]
      exact hs'
    · rw [List.filter_cons]
      cases hv : isPlace nodes e.1 with
      | false => simpa [hv] using h'
      | true => simpa [hv] using h'

theorem roads_nonneg (hg : Light graph) (u : ℤ) : ∀ e ∈ roads nodes graph u, 0 ≤ e.2 := by
  intro e he
  rw [roads] at he
  split at he
  · exact hg.nonneg u e (List.mem_of_mem_filter he)
  · simp at he

/-- Fewer edges weigh less. -/
theorem weight_roads_lt (hg : Light graph) {done : List ℤ} (hd : done.Nodup) :
    weight (roads nodes graph) done < intMax := by
  refine lt_of_le_of_lt ?_ (hg.total done hd)
  refine List.sum_le_sum fun u _ => ?_
  rw [roads]
  split
  · refine ((List.filter_sublist (p := fun e : ℤ × ℤ => isPlace nodes e.1)).map
      Prod.snd).sum_le_sum ?_
    intro w hw
    obtain ⟨e, he, rfl⟩ := List.mem_map.mp hw
    exact hg.nonneg u e he
  · exact sum_weights_nonneg (hg.nonneg u)

/-- A stale entry is dropped. -/
theorem Sim.pop_stale (h : Sim nodes s l done) {entry : ℤ ×ₗ ℤ} {pq : PriorityQueue (ℤ ×ₗ ℤ)}
    (hpop : s.pq.pop? = some (entry, pq)) (hstale : l.dist (ofLex entry).2 < (ofLex entry).1) :
    Sim nodes { s with pq := pq } l done := by
  have hmem := PriorityQueue.mem_iff_of_pop? hpop
  have hnodup := PriorityQueue.nodup_of_pop? h.nodup hpop
  refine ⟨h.dist, h.parent, h.places, h.le_top, hnodup.2, fun e he => h.queued e ?_, ?_⟩
  · exact (hmem e).mpr (.inr he)
  · intro v hv hlt
    rcases (hmem _).mp (h.live v hv hlt) with heq | hlive
    · rw [← heq] at hstale
      simp at hstale
    · exact hlive

/-- An entry that is not stale belongs to the least unsettled node. -/
theorem Sim.least_of_pop (h : Sim nodes s l done) {entry : ℤ ×ₗ ℤ}
    {pq : PriorityQueue (ℤ ×ₗ ℤ)} (hpop : s.pq.pop? = some (entry, pq))
    (hfresh : (ofLex entry).1 ≤ l.dist (ofLex entry).2) :
    entry = toLex (l.dist (ofLex entry).2, (ofLex entry).2) ∧
      Least intMax l done (ofLex entry).2 := by
  obtain ⟨_, hmin⟩ := PriorityQueue.pop?_eq_some hpop
  obtain ⟨hle, htop, hsettled⟩ := h.queued entry (PriorityQueue.mem_of_pop? hpop)
  have hcost : l.dist (ofLex entry).2 = (ofLex entry).1 := le_antisymm hle hfresh
  have heq : entry = toLex (l.dist (ofLex entry).2, (ofLex entry).2) := by
    rw [hcost]
    rfl
  refine ⟨heq, ?_, by omega, ?_⟩
  · intro hc
    have := hsettled hc
    omega
  · intro v hv hlt
    rw [← heq]
    exact hmin _ (h.live v hv hlt)

/-- Settling the popped node: what is left in the queue for it is stale. -/
theorem Sim.pop_settle (h : Sim nodes s l done) {u : ℤ} {pq : PriorityQueue (ℤ ×ₗ ℤ)}
    (hpop : s.pq.pop? = some (toLex (l.dist u, u), pq)) :
    Sim nodes { s with pq := pq } l (done ++ [u]) := by
  have hmem := PriorityQueue.mem_iff_of_pop? hpop
  have hnodup := PriorityQueue.nodup_of_pop? h.nodup hpop
  refine ⟨h.dist, h.parent, h.places, h.le_top, hnodup.2, ?_, ?_⟩
  · -- an entry of `u` with the current distance was in the queue only once
    intro e he
    obtain ⟨hle, htop, hsettled⟩ := h.queued e ((hmem e).mpr (.inr he))
    refine ⟨hle, htop, fun hdone => ?_⟩
    rcases List.mem_append.mp hdone with hdone | hdone
    · exact hsettled hdone
    · rw [List.mem_singleton] at hdone
      refine lt_of_le_of_ne hle fun heq => hnodup.1 ?_
      have he' : e = toLex (l.dist u, u) := by
        rw [← hdone, heq]
        rfl
      rw [← he']
      exact he
  · intro v hv hlt
    have hvd : v ∉ done := fun hc => hv (by simp [hc])
    have hvu : v ≠ u := fun hc => hv (by simp [hc])
    rcases (hmem _).mp (h.live v hvd hlt) with heq | hlive
    · have := congrArg (fun e => (ofLex e).2) heq
      exact absurd this hvu
    · exact hlive

/-! ### The queue loop -/

/-- **The queue loop is the label-setting method.**  An invariant `I` that each step of
the method keeps, and under which the edges of the next node fit the `int` range,
holds of the labels at the end, where every reached node is settled. -/
theorem searchLoop_sim {src : ℤ} {I : Labels ℤ → List ℤ → Prop}
    (hexplored : ∀ l done, I l done → Explored (roads nodes graph) intMax src l done)
    (hfits : ∀ l done u, I l done → Least intMax l done u →
      ∀ a ∈ roads nodes graph u, 0 ≤ a.2 ∧ l.dist u + a.2 ≤ intMax)
    (hstep : ∀ l done u, I l done → Least intMax l done u →
      I (expand (roads nodes graph) u l) (done ++ [u])) (fuel : ℕ) :
    ∀ {s : Search} {l : Labels ℤ} {done : List ℤ}, Sim nodes s l done → I l done →
      searchLoop nodes graph fuel s = .error .diverges ∨
      ∃ s' l' done', searchLoop nodes graph fuel s = .ok s' ∧ Sim nodes s' l' done' ∧
        I l' done' ∧ Exhausted intMax l' done' := by
  induction fuel with
  | zero =>
    intro s l done _ _
    exact .inl rfl
  | succ fuel ih =>
    intro s l done h hI
    have hset := hexplored l done hI
    rw [searchLoop]
    cases hpop : s.pq.pop? with
    | none =>
      refine .inr ⟨s, l, done, rfl, h, hI, fun v hv => ?_⟩
      by_contra hlt
      -- a reached unsettled node would still be in the queue
      exact PriorityQueue.pop?_eq_none hpop _ (h.live v hv (not_le.mp hlt))
    | some p =>
      obtain ⟨entry, pq⟩ := p
      obtain ⟨hle, htop, _⟩ := h.queued entry (PriorityQueue.mem_of_pop? hpop)
      have hplace : isPlace nodes (ofLex entry).2 = true := h.places _ (by omega)
      dsimp only
      rw [h.distAt hplace]
      by_cases hstale : l.dist (ofLex entry).2 < (ofLex entry).1
      · rw [if_pos hstale]
        exact ih (h.pop_stale hpop hstale) hI
      · -- the popped node is settled, and its edges are relaxed
        rw [if_neg hstale]
        obtain ⟨heq, hleast⟩ := h.least_of_pop hpop (not_lt.mp hstale)
        generalize (ofLex entry).2 = u at *
        subst heq
        have hroads := roads_of_isPlace hplace graph
        obtain ⟨s', hs', h'⟩ := (h.pop_settle hpop).foldlM_relaxEdge hplace
          (neighbours graph u) (hset.nonneg u)
          (fun x hx => by
            rcases List.mem_append.mp hx with hx | hx
            · exact hset.mono x hx u hleast.unsettled
            · rw [List.mem_singleton.mp hx])
          (fun e he hv => by
            have hmem : e ∈ roads nodes graph u := by
              rw [hroads]
              exact List.mem_filter.mpr ⟨he, hv⟩
            exact hfits l done u hI hleast e hmem)
        rw [← hroads] at h'
        rw [hs']
        exact ih h' (hstep l done u hI hleast)

/-- On a light graph the edges of the next node fit the `int` range. -/
theorem Light.fits (hg : Light graph) {src u : ℤ}
    (hset : Settled (roads nodes graph) intMax src l done) (hu : Least intMax l done u) :
    ∀ a ∈ roads nodes graph u, 0 ≤ a.2 ∧ l.dist u + a.2 ≤ intMax := by
  intro a ha
  have hset' := settled_step (roads_nonneg hg) hset hu
  have hself := (expand_settled (v := u) hset.explored (roads_nonneg hg u) hu (by simp)).1
  have hbound := hset'.arc_bound u (by simp) a ha
  rw [hself] at hbound
  exact ⟨roads_nonneg hg u a ha, hbound.trans (weight_roads_lt hg hset'.nodup).le⟩

theorem sim_initSearch {src : ℤ} (hsrc : isPlace nodes src = true) :
    Sim nodes (initSearch nodes src) (initial src intMax) [] := by
  refine ⟨?_, ?_, ?_, ?_, ?_, ?_, ?_⟩
  · intro v
    rw [getElem?_initSearch_dist]
    by_cases hv : v = src
    · rw [if_pos hv, hv, if_pos hsrc]
      simp [initial]
    · rw [if_neg hv]
      simp [initial, hv]
  · intro v
    exact Std.ExtTreeMap.getElem?_empty
  · intro v hv
    simp only [initial] at hv
    split at hv
    · rename_i heq
      rw [heq]
      exact hsrc
    · omega
  · intro v
    simp only [initial]
    split
    · simp [intMax]
    · exact le_rfl
  · exact PriorityQueue.nodup_push List.nodup_nil (PriorityQueue.not_mem_empty _)
  · intro e he
    rw [mem_initSearch_pq.mp he]
    simp [initial, intMax]
  · intro v _ hlt
    rw [mem_initSearch_pq]
    simp only [initial] at hlt ⊢
    split at hlt
    · rename_i heq
      rw [if_pos heq, heq]
    · omega

/-- **The search from a place** ends: with the labels at an end of the method, where an
invariant as in `searchLoop_sim` holds. -/
theorem searchLoop_ends {src : ℤ} (hsrc : isPlace nodes src = true)
    {I : Labels ℤ → List ℤ → Prop}
    (hexplored : ∀ l done, I l done → Explored (roads nodes graph) intMax src l done)
    (hfits : ∀ l done u, I l done → Least intMax l done u →
      ∀ a ∈ roads nodes graph u, 0 ≤ a.2 ∧ l.dist u + a.2 ≤ intMax)
    (hstep : ∀ l done u, I l done → Least intMax l done u →
      I (expand (roads nodes graph) u l) (done ++ [u])) (hinit : I (initial src intMax) []) :
    ∃ s l done, searchLoop nodes graph (searchFuel nodes) (initSearch nodes src) = .ok s ∧
      Sim nodes s l done ∧ I l done ∧ Exhausted intMax l done := by
  rcases searchLoop_sim hexplored hfits hstep (searchFuel nodes) (sim_initSearch hsrc) hinit with
    hdiv | hends
  · -- the rounds given are enough on every graph
    exact absurd hdiv (searchLoop_initSearch_ne_diverges hsrc graph)
  · exact hends

/-- On a light graph it has settled what is within reach. -/
theorem searchLoop_settled (hg : Light graph) {src : ℤ} (hsrc : isPlace nodes src = true) :
    ∃ s l done, searchLoop nodes graph (searchFuel nodes) (initSearch nodes src) = .ok s ∧
      Sim nodes s l done ∧ Settled (roads nodes graph) intMax src l done ∧
      Exhausted intMax l done := by
  have hinit : Settled (roads nodes graph) intMax src (initial src intMax) [] :=
    settled_initial (by simp [intMax])
  exact searchLoop_ends hsrc (I := Settled (roads nodes graph) intMax src)
    (fun _ _ h => h.explored) (fun _ _ _ h hu => hg.fits h hu)
    (fun _ _ _ h hu => settled_step (roads_nonneg hg) h hu) hinit

/-! ### The walk back -/

theorem Traces.mem_cases {parent : ℤ → Option ℤ} {src v : ℤ} {p : List ℤ}
    (h : Traces parent src v p) : ∀ x ∈ p, x = src ∨ ∃ u, parent x = some u := by
  induction h with
  | src => simp
  | step _ hp _ ih =>
    intro x hx
    rcases List.mem_append.mp hx with hx | hx
    · exact ih x hx
    · rw [List.mem_singleton.mp hx]
      exact .inr ⟨_, hp⟩

/-- The walk back reads the trace off, given as many rounds as it has nodes. -/
theorem walkBack_of_traces {parent : Map ℤ ℤ} {src v : ℤ} {p : List ℤ}
    (h : Traces (fun x => parent[x]?) src v p) {fuel : ℕ} (hfuel : p.length ≤ fuel)
    (acc : List ℤ) : walkBack parent src fuel v acc = .ok (p ++ acc) := by
  induction h generalizing fuel acc with
  | src =>
    obtain ⟨fuel, rfl⟩ : ∃ k, fuel = k + 1 := ⟨fuel - 1, by simp at hfuel; omega⟩
    rw [walkBack, if_pos rfl]
    rfl
  | @step u v p hv hp _ ih =>
    obtain ⟨fuel, rfl⟩ : ∃ k, fuel = k + 1 := ⟨fuel - 1, by simp at hfuel; omega⟩
    have hfuel' : p.length ≤ fuel := by
      simp only [List.length_append, List.length_singleton] at hfuel
      omega
    rw [walkBack, if_neg hv, hp, List.append_assoc]
    exact ih hfuel' (v :: acc)

/-- What the walk back returns is a trace. -/
theorem traces_of_walkBack {parent : Map ℤ ℤ} {src : ℤ} {fuel : ℕ} : ∀ {v : ℤ} {acc path : List ℤ},
    walkBack parent src fuel v acc = .ok path → path ≠ [] →
    ∃ p, Traces (fun x => parent[x]?) src v p ∧ path = p ++ acc := by
  induction fuel with
  | zero => exact fun h => absurd h (by simp [walkBack])
  | succ fuel ih =>
    intro v acc path h hne
    rw [walkBack] at h
    split at h
    · rename_i hv
      subst hv
      exact ⟨[v], .src, (Except.ok.inj h).symm⟩
    · rename_i hv
      split at h
      · exact absurd (Except.ok.inj h).symm hne
      · rename_i u hu
        obtain ⟨p, hp, rfl⟩ := ih h hne
        exact ⟨p ++ [v], .step hv hu hp, by simp⟩

/-- Whatever the weights, a route is read off the parents. -/
theorem traces_of_dijkstra {src dest : ℤ} {path : List ℤ}
    (h : dijkstra nodes src dest graph = .ok path) (hne : path ≠ []) :
    ∃ parent : Map ℤ ℤ, Traces (fun x => parent[x]?) src dest path := by
  rw [dijkstra] at h
  split at h
  · exact absurd (Except.ok.inj h).symm hne
  · obtain ⟨s, _, h⟩ := bind_eq_ok h
    split at h
    · exact absurd (Except.ok.inj h).symm hne
    · split at h
      · exact absurd (Except.ok.inj h).symm hne
      · obtain ⟨p, hp, rfl⟩ := traces_of_walkBack h hne
        rw [List.append_nil]
        exact ⟨s.parent, hp⟩

/-- No route meets a node twice. -/
theorem nodup_dijkstra {src dest : ℤ} {path : List ℤ}
    (h : dijkstra nodes src dest graph = .ok path) : path.Nodup := by
  by_cases hne : path = []
  · rw [hne]
    exact List.nodup_nil
  · obtain ⟨_, htraces⟩ := traces_of_dijkstra h hne
    exact htraces.nodup

/-- A trace without repeated nodes is no longer than the walk back may be. -/
theorem Traces.length_le {parent : Map ℤ ℤ} {src v : ℤ} {p : List ℤ}
    (h : Traces (fun x => parent[x]?) src v p) (hp : p.Nodup) : p.length ≤ parent.size + 1 := by
  have hsub : p ⊆ src :: parent.keys := by
    intro x hx
    rcases Traces.mem_cases h x hx with rfl | ⟨u, hu⟩
    · exact List.mem_cons_self
    · exact List.mem_cons_of_mem _
        (Std.ExtTreeMap.mem_keys.mpr (mem_of_getElem? hu))
  have hlen := (hp.subperm hsub).length_le
  rw [List.length_cons, Std.ExtTreeMap.length_keys] at hlen
  exact hlen

/-! ### The whole search -/

theorem dijkstra_of_not_places {src dest : ℤ}
    (h : ¬ (isPlace nodes src = true ∧ isPlace nodes dest = true)) :
    dijkstra nodes src dest graph = .ok [] := by
  rw [dijkstra, contains_initDist, contains_initDist, if_pos]
  cases hsrc : isPlace nodes src with
  | false => rfl
  | true => simpa [hsrc] using h

section ends
variable {src dest : ℤ}

/-- A search between places, once the queue loop has ended. -/
theorem dijkstra_of_searchLoop (hsrc : isPlace nodes src = true) (hdest : isPlace nodes dest = true)
    (hloop : searchLoop nodes graph (searchFuel nodes) (initSearch nodes src) = .ok s)
    (hsim : Sim nodes s l done) :
    dijkstra nodes src dest graph =
      if l.dist dest = intMax then .ok []
      else walkBack s.parent src (s.parent.size + 1) dest [] := by
  have hdist : s.dist[dest]? = some (l.dist dest) := by rw [hsim.dist, if_pos hdest]
  rw [dijkstra, contains_initDist, contains_initDist, hsrc, hdest]
  simp only [Bool.not_true, Bool.or_self, Bool.false_eq_true, if_false]
  rw [hloop]
  simp only [bind, Except.bind, hdist]

/-- What is returned for a reached destination is read off the parents. -/
theorem dijkstra_of_traces (hsrc : isPlace nodes src = true) (hdest : isPlace nodes dest = true)
    (hloop : searchLoop nodes graph (searchFuel nodes) (initSearch nodes src) = .ok s)
    (hsim : Sim nodes s l done) (hreach : l.dist dest < intMax) {p : List ℤ}
    (htrace : Traces l.parent src dest p) (hnodup : p.Nodup) :
    dijkstra nodes src dest graph = .ok p := by
  have htrace' : Traces (fun x => s.parent[x]?) src dest p := by
    rw [funext hsim.parent]
    exact htrace
  rw [dijkstra_of_searchLoop hsrc hdest hloop hsim, if_neg hreach.ne,
    walkBack_of_traces htrace' (Traces.length_le htrace' hnodup), List.append_nil]

end ends

/-- **The search.**  It returns; the result is empty when the destination cannot
be reached, and otherwise a shortest road path without repeated nodes. -/
theorem dijkstra_spec (hg : Light graph) {src dest : ℤ} (hsrc : isPlace nodes src = true)
    (hdest : isPlace nodes dest = true) :
    ∃ path, dijkstra nodes src dest graph = .ok path ∧
      ((path = [] ∧ ∀ p c, ¬ Walk (ArcOf (roads nodes graph)) src p dest c) ∨
        (Shortest (ArcOf (roads nodes graph)) src path dest ∧ path.Nodup)) := by
  have hpos : (0 : ℤ) < intMax := by simp [intMax]
  obtain ⟨s, l, done, hloop, hsim, hset, hex⟩ := searchLoop_settled hg hsrc
  obtain ⟨hreach, hnone⟩ :=
    hset.shortest_of_exhausted hex hpos (weight_roads_lt hg hset.nodup) dest
  rcases (hset.le_top dest).eq_or_lt with htop | hlt
  · refine ⟨[], ?_, .inl ⟨rfl, hnone htop⟩⟩
    rw [dijkstra_of_searchLoop hsrc hdest hloop hsim, if_pos htop]
  · obtain ⟨p, htrace, hshort, hnodup⟩ := hreach hlt
    exact ⟨p, dijkstra_of_traces hsrc hdest hloop hsim hlt htrace hnodup, .inr ⟨hshort, hnodup⟩⟩

/-! ### Road maps read from a file -/

theorem neighbours_pushBack (graph : Adjacency) (u : ℤ) (e : ℤ × ℤ) (v : ℤ) :
    neighbours (pushBack graph u e) v =
      if v = u then neighbours graph v ++ [e] else neighbours graph v := by
  rw [neighbours, pushBack, getD_insert_eq]
  by_cases hv : v = u
  · rw [if_pos hv, if_pos hv, hv]
    rfl
  · rw [if_neg hv, if_neg hv]
    rfl

theorem neighbours_empty (v : ℤ) : neighbours ∅ v = [] := by
  rw [neighbours, Std.ExtTreeMap.getD_empty]

/-- The neighbours in a road map: the lines of the file, in both directions. -/
theorem mem_neighbours_roadOf (lines : List (ℤ × ℤ × ℤ)) (u v w : ℤ) :
    (v, w) ∈ neighbours (roadOf lines) u ↔ (u, v, w) ∈ lines ∨ (v, u, w) ∈ lines := by
  induction lines using List.reverseRecOn with
  | nil => simp [roadOf, neighbours_empty]
  | append_singleton lines e ih =>
    obtain ⟨a, b, c⟩ := e
    have hroad : roadOf (lines ++ [(a, b, c)]) =
        pushBack (pushBack (roadOf lines) a (b, c)) b (a, c) := by
      rw [roadOf, List.foldl_append]
      rfl
    have hmem : (v, w) ∈ neighbours (roadOf (lines ++ [(a, b, c)])) u ↔
        (v, w) ∈ neighbours (roadOf lines) u ∨ (u = a ∧ v = b ∧ w = c) ∨
          (u = b ∧ v = a ∧ w = c) := by
      rw [hroad, neighbours_pushBack, neighbours_pushBack]
      by_cases hb : u = b
      · by_cases ha : u = a
        · rw [if_pos hb, if_pos ha]
          simp [hb.symm, ha.symm]
        · rw [if_pos hb, if_neg ha]
          simp [hb.symm, ha]
      · by_cases ha : u = a
        · rw [if_neg hb, if_pos ha]
          simp [hb, ha.symm]
        · rw [if_neg hb, if_neg ha]
          simp [hb, ha]
    rw [hmem, ih]
    simp only [List.mem_append, List.mem_singleton, Prod.mk.injEq]
    grind

theorem weight_pushBack_le (graph : Adjacency) (u : ℤ) (e : ℤ × ℤ) (he : 0 ≤ e.2)
    {l : List ℤ} (hl : l.Nodup) :
    weight (neighbours (pushBack graph u e)) l ≤ weight (neighbours graph) l + e.2 ∧
      (u ∉ l → weight (neighbours (pushBack graph u e)) l = weight (neighbours graph) l) := by
  induction l with
  | nil => exact ⟨by simp [weight, he], fun _ => rfl⟩
  | cons x l ih =>
    obtain ⟨hx, hl'⟩ := List.nodup_cons.mp hl
    obtain ⟨ih1, ih2⟩ := ih hl'
    have hcons : ∀ g : Adjacency, weight (neighbours g) (x :: l) =
        ((neighbours g x).map Prod.snd).sum + weight (neighbours g) l := by
      intro g
      simp [weight]
    rw [hcons, hcons, neighbours_pushBack]
    -- the new edge counts once, at the one place where `u` stands in the list
    by_cases hxu : x = u
    · subst hxu
      rw [if_pos rfl, ih2 hx]
      refine ⟨?_, fun hc => absurd (by simp) hc⟩
      simp only [List.map_append, List.sum_append, List.map_cons, List.map_nil, List.sum_cons,
        List.sum_nil]
      omega
    · rw [if_neg hxu]
      refine ⟨by omega, fun hc => ?_⟩
      rw [ih2 fun hu => hc (List.mem_cons_of_mem _ hu)]

/-- Every line is entered twice, so the edges weigh at most twice the lines. -/
theorem weight_roadOf_le {lines : List (ℤ × ℤ × ℤ)} (hw : ∀ e ∈ lines, 0 ≤ e.2.2)
    {l : List ℤ} (hl : l.Nodup) :
    weight (neighbours (roadOf lines)) l ≤ 2 * (lines.map fun e => e.2.2).sum := by
  induction lines using List.reverseRecOn with
  | nil => simp [roadOf, weight, neighbours_empty]
  | append_singleton lines e ih =>
    have he : 0 ≤ e.2.2 := hw e (by simp)
    have hrest := ih fun a ha => hw a (List.mem_append_left _ ha)
    have hroad : roadOf (lines ++ [e]) =
        pushBack (pushBack (roadOf lines) e.1 (e.2.1, e.2.2)) e.2.1 (e.1, e.2.2) := by
      rw [roadOf, List.foldl_append]
      rfl
    have h1 := (weight_pushBack_le (roadOf lines) e.1 (e.2.1, e.2.2) he hl).1
    have h2 := (weight_pushBack_le (pushBack (roadOf lines) e.1 (e.2.1, e.2.2)) e.2.1
      (e.1, e.2.2) he hl).1
    rw [hroad, List.map_append, List.sum_append]
    simp only [List.map_cons, List.map_nil, List.sum_cons, List.sum_nil]
    simp only at h1 h2
    omega

/-- The weights of the lines of a road file: none negative, and twice their sum
below `INT_MAX`. -/
structure LightLines (lines : List (ℤ × ℤ × ℤ)) : Prop where
  nonneg : ∀ e ∈ lines, 0 ≤ e.2.2
  total : 2 * (lines.map fun e => e.2.2).sum < intMax

theorem light_roadOf {lines : List (ℤ × ℤ × ℤ)} (h : LightLines lines) : Light (roadOf lines) where
  nonneg u e he := by
    obtain ⟨v, w⟩ := e
    rcases (mem_neighbours_roadOf lines u v w).mp he with hmem | hmem
    · exact h.nonneg _ hmem
    · exact h.nonneg _ hmem
  total l hl := (weight_roadOf_le h.nonneg hl).trans_lt h.total

/-- A road from `u` to `v` of weight `w`: a line of the file, in either direction,
between two nodes that are present and no ghosts. -/
def Road (nodes : Map ℤ (Node D)) (lines : List (ℤ × ℤ × ℤ)) (u v w : ℤ) : Prop :=
  isPlace nodes u = true ∧ isPlace nodes v = true ∧ ((u, v, w) ∈ lines ∨ (v, u, w) ∈ lines)

theorem arcOf_roads_roadOf (nodes : Map ℤ (Node D)) (lines : List (ℤ × ℤ × ℤ)) :
    ArcOf (roads nodes (roadOf lines)) = Road nodes lines := by
  funext u v w
  rw [ArcOf, roads, Road, ← mem_neighbours_roadOf]
  by_cases hu : isPlace nodes u = true
  · rw [if_pos hu, List.mem_filter]
    simp only [hu, true_and]
    exact propext and_comm
  · rw [if_neg hu]
    simp [hu]

theorem Road.nonneg {lines : List (ℤ × ℤ × ℤ)} (h : LightLines lines) {u v w : ℤ}
    (hroad : Road nodes lines u v w) : 0 ≤ w := by
  rcases hroad.2.2 with hmem | hmem
  · exact h.nonneg _ hmem
  · exact h.nonneg _ hmem

/-- `dijkstra` on a road map built by `loadGraph`. -/
theorem dijkstra_roadOf {lines : List (ℤ × ℤ × ℤ)} (h : LightLines lines) {src dest : ℤ}
    (hsrc : isPlace nodes src = true) (hdest : isPlace nodes dest = true) :
    ∃ path, dijkstra nodes src dest (roadOf lines) = .ok path ∧
      ((path = [] ∧ ∀ p c, ¬ Walk (Road nodes lines) src p dest c) ∨
        (Shortest (Road nodes lines) src path dest ∧ path.Nodup)) := by
  rw [← arcOf_roads_roadOf]
  exact dijkstra_spec (light_roadOf h) hsrc hdest

/-- What it has returned. -/
theorem dijkstra_roadOf_cases {lines : List (ℤ × ℤ × ℤ)} (h : LightLines lines) {src dest : ℤ}
    (hsrc : isPlace nodes src = true) (hdest : isPlace nodes dest = true) {path : List ℤ}
    (hpath : dijkstra nodes src dest (roadOf lines) = .ok path) :
    (path = [] ∧ ∀ p c, ¬ Walk (Road nodes lines) src p dest c) ∨
      (Shortest (Road nodes lines) src path dest ∧ path.Nodup) := by
  obtain ⟨path', hpath', hcases⟩ := dijkstra_roadOf h hsrc hdest
  obtain rfl := Except.ok.inj (hpath.symm.trans hpath')
  exact hcases

/-! ### What `dijkstra` returns -/

/-- A route of the road file: it runs from `src` to `dest`, repeats no node, steps
along roads, and with the lightest of parallel roads at each step it is no heavier
than any way from `src` to `dest`. -/
structure IsRoute (nodes : Map ℤ (Node D)) (lines : List (ℤ × ℤ × ℤ)) (src dest : ℤ)
    (path : List ℤ) : Prop where
  starts : path.head? = some src
  ends : path.getLast? = some dest
  nodup : path.Nodup
  least : ∃ c, Walk (Lightest (Road nodes lines)) src path dest c ∧
    ∀ q d, Walk (Road nodes lines) src q dest d → c ≤ d

theorem isRoute_of_shortest {lines : List (ℤ × ℤ × ℤ)} {src dest : ℤ} {path : List ℤ}
    (h : Shortest (Road nodes lines) src path dest) (hnodup : path.Nodup) :
    IsRoute nodes lines src dest path := by
  obtain ⟨c, hwalk, hleast⟩ := h
  refine ⟨?_, hwalk.getLast?_eq, hnodup, c, hwalk.lightest hleast, hleast⟩
  obtain ⟨q, rfl⟩ := hwalk.exists_cons
  rfl

/-- **Shortest routes.**  For all ids the search returns: nothing where an end is
unknown or a ghost or no roads join the ends, and otherwise a route. -/
theorem dijkstra_correct {lines : List (ℤ × ℤ × ℤ)} (h : LightLines lines) (src dest : ℤ) :
    ∃ path, dijkstra nodes src dest (roadOf lines) = .ok path ∧
      (isPlace nodes src = false ∨ isPlace nodes dest = false → path = []) ∧
      ((∀ p c, ¬ Walk (Road nodes lines) src p dest c) → path = []) ∧
      (isPlace nodes src = true → isPlace nodes dest = true →
        (∃ p c, Walk (Road nodes lines) src p dest c) → IsRoute nodes lines src dest path) := by
  by_cases hplaces : isPlace nodes src = true ∧ isPlace nodes dest = true
  · obtain ⟨hsrc, hdest⟩ := hplaces
    obtain ⟨path, hpath, hcases⟩ := dijkstra_roadOf h hsrc hdest
    refine ⟨path, hpath, fun hno => by simp [hsrc, hdest] at hno, ?_, fun _ _ hwalk => ?_⟩
    · intro hnone
      rcases hcases with ⟨hempty, _⟩ | ⟨⟨c, hwalk, _⟩, _⟩
      · exact hempty
      · exact absurd hwalk (hnone path c)
    · rcases hcases with ⟨_, hnone⟩ | ⟨hshort, hnodup⟩
      · obtain ⟨p, c, hwalk⟩ := hwalk
        exact absurd hwalk (hnone p c)
      · exact isRoute_of_shortest hshort hnodup
  · refine ⟨[], dijkstra_of_not_places hplaces, fun _ => rfl, fun _ => rfl, fun hsrc hdest => ?_⟩
    exact absurd ⟨hsrc, hdest⟩ hplaces

/-- Three nodes and a ghost. -/
def villageNodes : Map ℤ (Node ℤ) :=
  (loadNodes "1 A 0 0 0 0\n2 B 0 1 0 0\n3 C 0 2 0 0\n4 g 0 1 1 1\n".toList).1

/-- Parallel roads, one of weight 0, and a way over the ghost. -/
def villageLines : List (ℤ × ℤ × ℤ) :=
  [(1, 2, 5), (2, 1, 3), (2, 3, 0), (1, 3, 9), (1, 4, 0), (4, 3, 0)]

theorem lightLines_villageLines : LightLines villageLines := ⟨by decide, by decide⟩

theorem dijkstra_correct_village : IsRoute villageNodes villageLines 1 3 [1, 2, 3] := by
  obtain ⟨path, hpath, _, _, hroute⟩ := @dijkstra_correct ℤ villageNodes villageLines
    lightLines_villageLines 1 3
  have hsearch : dijkstra villageNodes 1 3 (roadOf villageLines) = .ok [1, 2, 3] := by
    decide +kernel
  obtain rfl := Except.ok.inj (hpath.symm.trans hsearch)
  have hroad : Road villageNodes villageLines 1 3 9 := ⟨by decide, by decide, by decide⟩
  exact hroute (by decide) (by decide) ⟨_, _, .cons hroad (.nil 3)⟩

end SmartParking
