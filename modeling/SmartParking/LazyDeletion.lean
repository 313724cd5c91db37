/-
The queue loop of `dijkstra` expands no node twice.

`pq` keeps superseded entries until they are popped, and there is no set of
visited nodes: the test `cost > dist[node]` alone drops them.  The loop is
followed here step by step, a step being a pop with its test or one round of the
inner loop.

* `run_of_searchLoop` — these steps are those of `searchLoop`;
* `Lazy` — queue, distances and the nodes that have passed the test: the
  passed nodes lie below all that is queued, and strictly below what is queued
  for themselves;
* `Lazy.step`, `lazy_of_run` — every step keeps it;
* `lazy_deletion` — the test is passed once by a node, in the order of costs;
  what has passed is final; and the pushes are paid for by the edges of the
  graph.
-/
import SmartParking.Library.Runs
import SmartParking.ShortestRoutes

open StdMap TextStream Runs

namespace SmartParking

variable {D : Type}

/-! ### The steps of the queue loop -/

/-- What a step does: an entry popped is stale or passes the test, an edge is
skipped or pushes an entry. -/
inductive LoopEvent
  | stale (cost node : ℤ)
  | pass (cost node : ℤ)
  | skip
  | push (cost node : ℤ)
  deriving DecidableEq, Repr

/-- Inside the queue loop: the node popped last, and its edges still to come. -/
structure Loop where
  vars : Search
  node : ℤ
  edges : List (ℤ × ℤ)

/-- One step; none when the queue is empty, or a sum leaves the `int` range. -/
def loopStep (nodes : Map ℤ (Node D)) (graph : Adjacency) (t : Loop) :
    Option (LoopEvent × Loop) :=
  match t.edges with
  | e :: edges =>
    match relaxEdge nodes t.node t.vars e with
    | .error _ => none
    | .ok s =>
      if s.pq.size = t.vars.pq.size then some (.skip, ⟨s, t.node, edges⟩)
      else some (.push (s.distAt e.1) e.1, ⟨s, t.node, edges⟩)
  | [] =>
    match t.vars.pq.pop? with
    | none => none
    | some (entry, pq) =>
      let cost := (ofLex entry).1
      let node := (ofLex entry).2
      if cost > t.vars.distAt node then
        some (.stale cost node, ⟨{ t.vars with pq := pq }, node, []⟩)
      else some (.pass cost node, ⟨{ t.vars with pq := pq }, node, neighbours graph node⟩)

def LoopStep (nodes : Map ℤ (Node D)) (graph : Adjacency) (t : Loop) (e : LoopEvent)
    (t' : Loop) : Prop :=
  loopStep nodes graph t = some (e, t')

def loopStart (nodes : Map ℤ (Node D)) (src : ℤ) : Loop := ⟨initSearch nodes src, src, []⟩

/-- The `(cost, node)` pairs that have passed the test. -/
def passed (es : List LoopEvent) : List (ℤ × ℤ) :=
  es.filterMap fun
    | .pass cost node => some (cost, node)
    | _ => none

/-- The pairs that have been pushed, the first before the loop. -/
def pushes (src : ℤ) (es : List LoopEvent) : List (ℤ × ℤ) :=
  (0, src) :: es.filterMap fun
    | .push cost node => some (cost, node)
    | _ => none

@[simp] theorem passed_snoc_pass (es : List LoopEvent) (cost node : ℤ) :
    passed (es ++ [LoopEvent.pass cost node]) = passed es ++ [(cost, node)] := by simp [passed]

@[simp] theorem passed_snoc_stale (es : List LoopEvent) (cost node : ℤ) :
    passed (es ++ [LoopEvent.stale cost node]) = passed es := by simp [passed]

@[simp] theorem passed_snoc_skip (es : List LoopEvent) :
    passed (es ++ [LoopEvent.skip]) = passed es := by simp [passed]

@[simp] theorem passed_snoc_push (es : List LoopEvent) (cost node : ℤ) :
    passed (es ++ [LoopEvent.push cost node]) = passed es := by simp [passed]

@[simp] theorem pushes_snoc_pass (src : ℤ) (es : List LoopEvent) (cost node : ℤ) :
    pushes src (es ++ [LoopEvent.pass cost node]) = pushes src es := by simp [pushes]

@[simp] theorem pushes_snoc_stale (src : ℤ) (es : List LoopEvent) (cost node : ℤ) :
    pushes src (es ++ [LoopEvent.stale cost node]) = pushes src es := by simp [pushes]

@[simp] theorem pushes_snoc_skip (src : ℤ) (es : List LoopEvent) :
    pushes src (es ++ [LoopEvent.skip]) = pushes src es := by simp [pushes]

@[simp] theorem pushes_snoc_push (src : ℤ) (es : List LoopEvent) (cost node : ℤ) :
    pushes src (es ++ [LoopEvent.push cost node]) = pushes src es ++ [(cost, node)] := by
  simp [pushes]

variable {nodes : Map ℤ (Node D)} {graph : Adjacency} {src : ℤ}

/-- The four things a step can do. -/
inductive Stepped (graph : Adjacency) : Loop → LoopEvent → Loop → Prop
  | skip {s : Search} {u : ℤ} {e : ℤ × ℤ} {edges : List (ℤ × ℤ)} :
      Stepped graph ⟨s, u, e :: edges⟩ .skip ⟨s, u, edges⟩
  | push {s : Search} {u v w old : ℤ} {edges : List (ℤ × ℤ)} :
      s.dist[v]? = some old → s.distAt u + w < old →
      Stepped graph ⟨s, u, (v, w) :: edges⟩ (.push (s.distAt u + w) v)
        ⟨s.improve u v (s.distAt u + w), u, edges⟩
  | stale {s : Search} {u cost node : ℤ} {pq : PriorityQueue (ℤ ×ₗ ℤ)} :
      s.pq.pop? = some (toLex (cost, node), pq) → s.distAt node < cost →
      Stepped graph ⟨s, u, []⟩ (.stale cost node) ⟨{ s with pq := pq }, node, []⟩
  | pass {s : Search} {u cost node : ℤ} {pq : PriorityQueue (ℤ ×ₗ ℤ)} :
      s.pq.pop? = some (toLex (cost, node), pq) → cost ≤ s.distAt node →
      Stepped graph ⟨s, u, []⟩ (.pass cost node)
        ⟨{ s with pq := pq }, node, neighbours graph node⟩

theorem distAt_improve (s : Search) (u v sum : ℤ) : (s.improve u v sum).distAt v = sum := by
  rw [Search.distAt, getD_eq, getElem?_improve, if_pos rfl, Option.getD_some]

theorem size_improve_ne (s : Search) (u v sum : ℤ) : (s.improve u v sum).pq.size ≠ s.pq.size := by
  rw [Search.improve, PriorityQueue.size_push]
  omega

/-- The step of the inner loop that `relaxEdge` makes. -/
theorem loopStep_of_relaxEdge (graph : Adjacency) (edges : List (ℤ × ℤ)) {s s' : Search} {u : ℤ}
    {e : ℤ × ℤ} (h : relaxEdge nodes u s e = .ok s') :
    ∃ ev, LoopStep nodes graph ⟨s, u, e :: edges⟩ ev ⟨s', u, edges⟩ := by
  by_cases hsize : s'.pq.size = s.pq.size
  · exact ⟨.skip, by simp only [LoopStep, loopStep, h, if_pos hsize]⟩
  · exact ⟨.push (s'.distAt e.1) e.1, by simp only [LoopStep, loopStep, h, if_neg hsize]⟩

theorem LoopStep.stepped {t t' : Loop} {ev : LoopEvent} (h : LoopStep nodes graph t ev t') :
    Stepped graph t ev t' := by
  obtain ⟨s, u, edges⟩ := t
  rw [LoopStep, loopStep] at h
  cases edges with
  | cons e edges =>
    dsimp only at h
    split at h
    · exact absurd h (by simp)
    · rename_i s' hrelax
      rcases relaxEdge_cases hrelax with rfl | ⟨old, hold, hlt, _, rfl⟩
      · rw [if_pos rfl] at h
        obtain ⟨rfl, rfl⟩ := Prod.mk.inj (Option.some_inj.mp h)
        exact .skip
      · rw [if_neg (size_improve_ne _ _ _ _), distAt_improve] at h
        obtain ⟨rfl, rfl⟩ := Prod.mk.inj (Option.some_inj.mp h)
        exact .push hold hlt
  | nil =>
    dsimp only at h
    split at h
    · exact absurd h (by simp)
    · rename_i entry pq hpop
      split at h
      · rename_i hstale
        obtain ⟨rfl, rfl⟩ := Prod.mk.inj (Option.some_inj.mp h)
        exact .stale hpop hstale
      · rename_i hfresh
        obtain ⟨rfl, rfl⟩ := Prod.mk.inj (Option.some_inj.mp h)
        exact .pass hpop (not_lt.mp hfresh)

theorem loopStep_deterministic (nodes : Map ℤ (Node D)) (graph : Adjacency) :
    Deterministic (LoopStep nodes graph) := by
  intro t e t₁ t₂ h₁ h₂
  exact (Prod.mk.inj (Option.some_inj.mp (h₁.symm.trans h₂))).2

/-! ### The steps are those of the loop -/

/-- The inner loop, edge by edge. -/
theorem run_of_foldlM (graph : Adjacency) {u : ℤ} (edges : List (ℤ × ℤ)) :
    ∀ {s s' : Search}, edges.foldlM (relaxEdge nodes u) s = .ok s' →
      ∃ es, Run (LoopStep nodes graph) ⟨s, u, edges⟩ es ⟨s', u, []⟩ := by
  induction edges with
  | nil =>
    intro s s' h
    obtain rfl : s = s' := Except.ok.inj h
    exact ⟨[], .nil⟩
  | cons e edges ih =>
    intro s s' h
    rw [List.foldlM_cons] at h
    obtain ⟨s₁, hrelax, h⟩ := bind_eq_ok h
    obtain ⟨ev, hstep⟩ := loopStep_of_relaxEdge graph edges hrelax
    obtain ⟨es, hrun⟩ := ih h
    have hone : Run (LoopStep nodes graph) ⟨s, u, e :: edges⟩ ([] ++ [ev]) ⟨s₁, u, edges⟩ :=
      .snoc .nil hstep
    exact ⟨_, hone.append hrun⟩

/-- **The queue loop** is a run of these steps, to where no step is left. -/
theorem run_of_searchLoop {fuel : ℕ} :
    ∀ {s s' : Search} (u : ℤ), searchLoop nodes graph fuel s = .ok s' →
      ∃ es t, Run (LoopStep nodes graph) ⟨s, u, []⟩ es t ∧ t.vars = s' ∧
        loopStep nodes graph t = none := by
  induction fuel with
  | zero =>
    intro s s' u h
    exact absurd h (by simp [searchLoop])
  | succ fuel ih =>
    intro s s' u h
    rw [searchLoop] at h
    cases hpop : s.pq.pop? with
    | none =>
      rw [hpop] at h
      obtain rfl : s = s' := Except.ok.inj h
      refine ⟨[], ⟨s, u, []⟩, .nil, rfl, ?_⟩
      rw [loopStep, hpop]
    | some p =>
      obtain ⟨entry, pq⟩ := p
      rw [hpop] at h
      dsimp only at h
      by_cases hstale : (ofLex entry).1 > s.distAt (ofLex entry).2
      · rw [if_pos hstale] at h
        obtain ⟨es, t, hrun, ht, hend⟩ := ih (ofLex entry).2 h
        have hstep : LoopStep nodes graph ⟨s, u, []⟩ (.stale (ofLex entry).1 (ofLex entry).2)
            ⟨{ s with pq := pq }, (ofLex entry).2, []⟩ := by
          simp only [LoopStep, loopStep, hpop, if_pos hstale]
        exact ⟨_, t, (Run.snoc .nil hstep).append hrun, ht, hend⟩
      · rw [if_neg hstale] at h
        obtain ⟨s₁, hfold, h⟩ := bind_eq_ok h
        obtain ⟨es₁, hinner⟩ := run_of_foldlM graph _ hfold
        obtain ⟨es, t, hrun, ht, hend⟩ := ih (ofLex entry).2 h
        have hstep : LoopStep nodes graph ⟨s, u, []⟩ (.pass (ofLex entry).1 (ofLex entry).2)
            ⟨{ s with pq := pq }, (ofLex entry).2, neighbours graph (ofLex entry).2⟩ := by
          simp only [LoopStep, loopStep, hpop, if_neg hstale]
        exact ⟨_, t, ((Run.snoc .nil hstep).append hinner).append hrun, ht, hend⟩

/-! ### Passed nodes lie below the queue -/

/-- What every step keeps; `es` are the steps so far. -/
structure Lazy (graph : Adjacency) (src : ℤ) (es : List LoopEvent) (t : Loop) : Prop where
  nodup : t.vars.pq.entries.Nodup
  queued : ∀ x ∈ t.vars.pq, ofLex x ∈ pushes src es
  pushed : ∀ p ∈ pushes src es, ∃ d, t.vars.dist[p.2]? = some d ∧ d ≤ p.1
  settled : ∀ p ∈ passed es, t.vars.dist[p.2]? = some p.1 ∧
    ∀ cost node, toLex (cost, node) ∈ t.vars.pq → p.1 ≤ cost ∧ (node = p.2 → p.1 < cost)
  current : t.edges ≠ [] → ∀ p ∈ passed es, p.1 ≤ t.vars.distAt t.node
  nonneg : ∀ e ∈ t.edges, 0 ≤ e.2
  once : ((passed es).map Prod.snd).Nodup
  ordered : ((passed es).map Prod.fst).Pairwise (· ≤ ·)
  paid : (pushes src es).length + t.edges.length ≤
    1 + ((passed es).map fun p => (neighbours graph p.2).length).sum

theorem lazy_loopStart (nodes : Map ℤ (Node D)) (graph : Adjacency) (src : ℤ) :
    Lazy graph src [] (loopStart nodes src) where
  nodup := PriorityQueue.nodup_push List.nodup_nil (PriorityQueue.not_mem_empty _)
  queued := by
    intro x hx
    rw [mem_initSearch_pq.mp hx]
    simp [pushes]
  pushed := by
    intro p hp
    obtain rfl : p = (0, src) := by simpa [pushes] using hp
    refine ⟨0, ?_, le_rfl⟩
    rw [loopStart, getElem?_initSearch_dist, if_pos rfl]
  settled := by simp [passed]
  current := by simp [loopStart]
  nonneg := by simp [loopStart]
  once := by simp [passed]
  ordered := by simp [passed]
  paid := by simp [pushes, passed, loopStart]

section step
variable {es : List LoopEvent} {s : Search} {u cost node : ℤ} {edges : List (ℤ × ℤ)}
  {pq : PriorityQueue (ℤ ×ₗ ℤ)}

/-- No entry is below the distance of its node. -/
theorem Lazy.le_of_queued {t : Loop} (h : Lazy graph src es t)
    (hmem : toLex (cost, node) ∈ t.vars.pq) : ∃ d, t.vars.dist[node]? = some d ∧ d ≤ cost :=
  h.pushed _ (h.queued _ hmem)

/-- No improvement is left for a node that has passed. -/
theorem Lazy.ne_of_improved {v w old : ℤ} (h : Lazy graph src es ⟨s, u, (v, w) :: edges⟩)
    (hold : s.dist[v]? = some old) (hlt : s.distAt u + w < old) :
    ∀ p ∈ passed es, p.2 ≠ v := by
  intro p hp hpv
  have hdist := (h.settled p hp).1
  have hle := h.current (by simp) p hp
  have hw := h.nonneg (v, w) (by simp)
  rw [hpv, hold, Option.some_inj] at hdist
  simp only at hle hw
  omega

theorem Lazy.skip {e : ℤ × ℤ} (h : Lazy graph src es ⟨s, u, e :: edges⟩) :
    Lazy graph src (es ++ [LoopEvent.skip]) ⟨s, u, edges⟩ where
  nodup := h.nodup
  queued := by simpa using h.queued
  pushed := by simpa using h.pushed
  settled := by simpa using h.settled
  current := fun _ => by simpa using h.current (by simp)
  nonneg := fun a ha => h.nonneg a (List.mem_cons_of_mem _ ha)
  once := by simpa using h.once
  ordered := by simpa using h.ordered
  paid := by
    have := h.paid
    simp only [List.length_cons] at this
    simp only [pushes_snoc_skip, passed_snoc_skip]
    omega

theorem Lazy.push {v w old : ℤ} (h : Lazy graph src es ⟨s, u, (v, w) :: edges⟩)
    (hold : s.dist[v]? = some old) (hlt : s.distAt u + w < old) :
    Lazy graph src (es ++ [LoopEvent.push (s.distAt u + w) v])
      ⟨s.improve u v (s.distAt u + w), u, edges⟩ := by
  have hne := h.ne_of_improved hold hlt
  have hw : 0 ≤ w := h.nonneg (v, w) (by simp)
  have huv : u ≠ v := by
    intro huv
    rw [huv, distAt_of_getElem? hold] at hlt
    omega
  have hself : (s.improve u v (s.distAt u + w)).distAt u = s.distAt u := by
    rw [Search.distAt, getD_eq, getElem?_improve, if_neg huv, ← getD_eq, Search.distAt]
  have hcurrent := h.current (by simp)
  refine ⟨PriorityQueue.nodup_push h.nodup fun hmem => ?_, ?_, ?_, ?_, ?_, ?_, ?_, ?_, ?_⟩
  · -- nodup: the entries of `v` carry at least the distance it had
    obtain ⟨d, hd, hle⟩ := h.le_of_queued hmem
    simp only [hold, Option.some_inj] at hd
    omega
  · -- queued
    intro x hx
    rw [pushes_snoc_push, List.mem_append, List.mem_singleton]
    rcases PriorityQueue.mem_push.mp hx with rfl | hx
    · exact .inr rfl
    · exact .inl (h.queued x hx)
  · -- pushed
    intro p hp
    rw [pushes_snoc_push, List.mem_append, List.mem_singleton] at hp
    simp only [getElem?_improve]
    by_cases hpv : p.2 = v
    · rw [if_pos hpv]
      refine ⟨_, rfl, ?_⟩
      rcases hp with hp | rfl
      · obtain ⟨d, hd, hle⟩ := h.pushed p hp
        simp only at hd
        rw [hpv, hold, Option.some_inj] at hd
        omega
      · exact le_rfl
    · rw [if_neg hpv]
      exact h.pushed p (hp.resolve_right fun hc => hpv (by rw [hc]))
  · -- settled
    intro p hp
    rw [passed_snoc_push] at hp
    obtain ⟨hdist, hbelow⟩ := h.settled p hp
    refine ⟨by rw [getElem?_improve, if_neg (hne p hp)]; exact hdist, fun cost node hmem => ?_⟩
    rcases PriorityQueue.mem_push.mp hmem with heq | hmem
    · obtain ⟨rfl, rfl⟩ := Prod.mk.inj (toLex.injective heq)
      have hle := hcurrent p hp
      simp only at hle
      exact ⟨by omega, fun hc => absurd hc.symm (hne p hp)⟩
    · exact hbelow cost node hmem
  · -- current
    intro _ p hp
    rw [passed_snoc_push] at hp
    rw [hself]
    exact hcurrent p hp
  · exact fun a ha => h.nonneg a (List.mem_cons_of_mem _ ha)
  · simpa using h.once
  · simpa using h.ordered
  · -- paid: by the edge just relaxed
    have := h.paid
    simp only [List.length_cons] at this
    simp only [pushes_snoc_push, passed_snoc_push, List.length_append, List.length_singleton]
    omega

theorem Lazy.stale (h : Lazy graph src es ⟨s, u, []⟩)
    (hpop : s.pq.pop? = some (toLex (cost, node), pq)) :
    Lazy graph src (es ++ [LoopEvent.stale cost node]) ⟨{ s with pq := pq }, node, []⟩ := by
  have hmem := PriorityQueue.mem_iff_of_pop? hpop
  have hnodup := PriorityQueue.nodup_of_pop? h.nodup hpop
  refine ⟨hnodup.2, fun x hx => ?_, ?_, fun p hp => ?_, ?_, ?_, ?_, ?_, ?_⟩
  · rw [pushes_snoc_stale]
    exact h.queued x ((hmem x).mpr (.inr hx))
  · simpa using h.pushed
  · rw [passed_snoc_stale] at hp
    obtain ⟨hdist, hbelow⟩ := h.settled p hp
    exact ⟨hdist, fun c v hv => hbelow c v ((hmem _).mpr (.inr hv))⟩
  · simp
  · simp
  · simpa using h.once
  · simpa using h.ordered
  · simpa using h.paid

/-- The entry that passes carries the distance of its node. -/
theorem Lazy.getElem?_of_pass (h : Lazy graph src es ⟨s, u, []⟩)
    (hpop : s.pq.pop? = some (toLex (cost, node), pq)) (hfresh : cost ≤ s.distAt node) :
    s.dist[node]? = some cost := by
  obtain ⟨d, hd, hle⟩ := h.le_of_queued (PriorityQueue.mem_of_pop? hpop)
  rw [distAt_of_getElem? hd] at hfresh
  rw [hd, le_antisymm hle hfresh]

theorem Lazy.pass (h : Lazy graph src es ⟨s, u, []⟩)
    (hnonneg : ∀ e ∈ neighbours graph node, 0 ≤ e.2)
    (hpop : s.pq.pop? = some (toLex (cost, node), pq)) (hfresh : cost ≤ s.distAt node) :
    Lazy graph src (es ++ [LoopEvent.pass cost node])
      ⟨{ s with pq := pq }, node, neighbours graph node⟩ := by
  have hmem := PriorityQueue.mem_iff_of_pop? hpop
  have hmin := (PriorityQueue.pop?_eq_some hpop).2
  have hnodup := PriorityQueue.nodup_of_pop? h.nodup hpop
  have hdist := h.getElem?_of_pass hpop hfresh
  have hbelow : ∀ p ∈ passed es, p.1 ≤ cost ∧ (node = p.2 → p.1 < cost) :=
    fun p hp => (h.settled p hp).2 cost node (PriorityQueue.mem_of_pop? hpop)
  refine ⟨hnodup.2, fun x hx => ?_, ?_, fun p hp => ?_, fun _ p hp => ?_, hnonneg, ?_, ?_, ?_⟩
  · rw [pushes_snoc_pass]
    exact h.queued x ((hmem x).mpr (.inr hx))
  · simpa using h.pushed
  · -- settled: the entry was least, and in the queue only once
    rw [passed_snoc_pass, List.mem_append, List.mem_singleton] at hp
    rcases hp with hp | rfl
    · obtain ⟨hd, hq⟩ := h.settled p hp
      exact ⟨hd, fun c v hv => hq c v ((hmem _).mpr (.inr hv))⟩
    · refine ⟨hdist, fun c v hv => ?_⟩
      have hle : cost ≤ c := Prod.Lex.monotone_fst _ _ (hmin _ ((hmem _).mpr (.inr hv)))
      refine ⟨hle, fun hvn => lt_of_le_of_ne hle fun hcost => hnodup.1 ?_⟩
      obtain rfl : cost = c := hcost
      obtain rfl : v = node := hvn
      exact hv
  · -- current
    rw [passed_snoc_pass, List.mem_append, List.mem_singleton] at hp
    have hat : ({ s with pq := pq } : Search).distAt node = cost := distAt_of_getElem? hdist
    simp only [hat]
    rcases hp with hp | rfl
    · exact (hbelow p hp).1
    · exact le_rfl
  · -- once: a node that has passed has no entry with its distance
    rw [passed_snoc_pass, List.map_append, List.nodup_append]
    refine ⟨h.once, by simp, fun v hv => ?_⟩
    obtain ⟨p, hp, rfl⟩ := List.mem_map.mp hv
    simp only [List.map_cons, List.map_nil, List.mem_singleton, forall_eq]
    intro hpn
    have hp1 := (h.settled p hp).1
    rw [hpn, hdist, Option.some_inj] at hp1
    have := (hbelow p hp).2 hpn.symm
    omega
  · -- ordered
    rw [passed_snoc_pass, List.map_append, List.pairwise_append]
    refine ⟨h.ordered, by simp, fun c hc => ?_⟩
    obtain ⟨p, hp, rfl⟩ := List.mem_map.mp hc
    simpa using (hbelow p hp).1
  · -- paid: the node passed brings its edges
    have := h.paid
    simp only [List.length_nil] at this
    simp only [pushes_snoc_pass, passed_snoc_pass, List.map_append, List.sum_append, List.map_cons,
      List.map_nil, List.sum_cons, List.sum_nil]
    omega

end step

/-- One step. -/
theorem Lazy.step {es : List LoopEvent} {t t' : Loop} {ev : LoopEvent}
    (h : Lazy graph src es t) (hg : ∀ u, ∀ e ∈ neighbours graph u, 0 ≤ e.2)
    (hs : Stepped graph t ev t') : Lazy graph src (es ++ [ev]) t' := by
  cases hs with
  | skip => exact h.skip
  | push hold hlt => exact h.push hold hlt
  | stale hpop _ => exact h.stale hpop
  | pass hpop hfresh => exact h.pass (hg _) hpop hfresh

theorem lazy_of_run (hg : ∀ u, ∀ e ∈ neighbours graph u, 0 ≤ e.2) {es : List LoopEvent}
    {t : Loop} (hrun : Run (LoopStep nodes graph) (loopStart nodes src) es t) :
    Lazy graph src es t :=
  Run.invariant (I := Lazy graph src) (lazy_loopStart nodes graph src)
    (fun _ _ _ _ _ h hs => h.step hg hs.stepped) hrun

/-- A step leaves a node that has passed alone. -/
theorem Lazy.frozen {es : List LoopEvent} {t t' : Loop} {ev : LoopEvent}
    (h : Lazy graph src es t) (hs : Stepped graph t ev t') {p : ℤ × ℤ} (hp : p ∈ passed es) :
    t'.vars.dist[p.2]? = t.vars.dist[p.2]? ∧ t'.vars.parent[p.2]? = t.vars.parent[p.2]? := by
  cases hs with
  | skip => exact ⟨rfl, rfl⟩
  | push hold hlt =>
    have hne := h.ne_of_improved hold hlt p hp
    exact ⟨by rw [getElem?_improve, if_neg hne], by rw [getElem?_improve_parent, if_neg hne]⟩
  | stale hpop _ => exact ⟨rfl, rfl⟩
  | pass hpop hfresh => exact ⟨rfl, rfl⟩

theorem passed_append (es fs : List LoopEvent) : passed (es ++ fs) = passed es ++ passed fs :=
  List.filterMap_append

theorem frozen_of_run (hg : ∀ u, ∀ e ∈ neighbours graph u, 0 ≤ e.2) {es fs : List LoopEvent}
    {t₀ t : Loop} (h₀ : Lazy graph src es t₀) (hrun : Run (LoopStep nodes graph) t₀ fs t)
    {p : ℤ × ℤ} (hp : p ∈ passed es) :
    t.vars.dist[p.2]? = t₀.vars.dist[p.2]? ∧ t.vars.parent[p.2]? = t₀.vars.parent[p.2]? := by
  have hboth : Lazy graph src (es ++ fs) t ∧ t.vars.dist[p.2]? = t₀.vars.dist[p.2]? ∧
      t.vars.parent[p.2]? = t₀.vars.parent[p.2]? := by
    induction hrun with
    | nil => exact ⟨by simpa using h₀, rfl, rfl⟩
    | @snoc fs t t' ev _ hs ih =>
      obtain ⟨h, hdist, hparent⟩ := ih
      have hpass : p ∈ passed (es ++ fs) := by
        rw [passed_append]
        exact List.mem_append_left _ hp
      obtain ⟨hdist', hparent'⟩ := h.frozen hs.stepped hpass
      rw [← List.append_assoc]
      exact ⟨h.step hg hs.stepped, hdist'.trans hdist, hparent'.trans hparent⟩
  exact hboth.2

/-! ### The edges of the graph -/

/-- The entries of all adjacency lists. -/
def entries (graph : Adjacency) : List (ℤ × ℤ) := graph.toList.flatMap Prod.snd

/-- Weights are nonnegative, and their sum is below `INT_MAX`. -/
structure LightGraph (graph : Adjacency) : Prop where
  nonneg : ∀ e ∈ entries graph, 0 ≤ e.2
  total : ((entries graph).map Prod.snd).sum < intMax

theorem neighbours_subset_entries (graph : Adjacency) (u : ℤ) :
    neighbours graph u ⊆ entries graph := by
  intro e he
  rw [neighbours, getD_eq] at he
  cases hu : graph[u]? with
  | none => simp [hu] at he
  | some l =>
    rw [hu, Option.getD_some] at he
    exact List.mem_flatMap.mpr
      ⟨(u, l), Std.ExtTreeMap.mem_toList_iff_getElem?_eq_some.mpr hu, he⟩

/-- Distinct nodes share no entries. -/
theorem sum_neighbours_le {M : Type} [AddCommMonoid M] [PartialOrder M] [IsOrderedAddMonoid M]
    (graph : Adjacency) {f : ℤ × ℤ → M} (hf : ∀ e ∈ entries graph, 0 ≤ f e) {l : List ℤ}
    (hl : l.Nodup) :
    (l.map fun u => ((neighbours graph u).map f).sum).sum ≤ ((entries graph).map f).sum := by
  have hsum : ((entries graph).map f).sum = (graph.toList.map fun p => (p.2.map f).sum).sum := by
    rw [entries, List.map_flatMap, List.flatMap, List.sum_flatten, List.map_map]
    rfl
  rw [hsum]
  refine sum_map_getD_le graph (d := []) (f := fun l => (l.map f).sum) (by simp) (fun p hp => ?_) hl
  refine List.sum_nonneg fun x hx => ?_
  obtain ⟨e, he, rfl⟩ := List.mem_map.mp hx
  exact hf e (List.mem_flatMap.mpr ⟨p, hp, he⟩)

theorem LightGraph.light (h : LightGraph graph) : Light graph where
  nonneg u e he := h.nonneg e (neighbours_subset_entries graph u he)
  total _ hl := (sum_neighbours_le graph h.nonneg hl).trans_lt h.total

/-! ### No repeated work -/

/-- What holds of the queue loop from `src` after the steps `es`. -/
structure NoRepeatedWork (nodes : Map ℤ (Node D)) (graph : Adjacency) (src : ℤ)
    (es : List LoopEvent) (t : Loop) : Prop where
  /-- A node passes the test once. -/
  once : ((passed es).map Prod.snd).Nodup
  /-- The pairs that pass have costs that do not go down. -/
  ordered : ((passed es).map Prod.fst).Pairwise (· ≤ ·)
  /-- A node is as it was when it passed. -/
  final : ∀ pre cost node t₀, pre ++ [LoopEvent.pass cost node] <+: es →
    Run (LoopStep nodes graph) (loopStart nodes src) (pre ++ [LoopEvent.pass cost node]) t₀ →
    t.vars.dist[node]? = t₀.vars.dist[node]? ∧ t.vars.parent[node]? = t₀.vars.parent[node]?
  /-- No entry ever pushed is below the distance of its node. -/
  above : ∀ p ∈ pushes src es, ∃ d, t.vars.dist[p.2]? = some d ∧ d ≤ p.1
  /-- The first push, and one for an entry of `graph`. -/
  few : (pushes src es).length ≤ 1 + (entries graph).length

/-- After every run. -/
theorem noRepeatedWork_of_run (hg : LightGraph graph) {es : List LoopEvent} {t : Loop}
    (hrun : Run (LoopStep nodes graph) (loopStart nodes src) es t) :
    NoRepeatedWork nodes graph src es t := by
  have hnonneg := hg.light.nonneg
  have h := lazy_of_run hnonneg hrun
  refine ⟨h.once, h.ordered, ?_, h.pushed, ?_⟩
  · rintro pre cost node t₀ ⟨fs, rfl⟩ hrun₀
    obtain ⟨t₁, hrun₁, hrest⟩ := hrun.exists_append
    obtain rfl := Run.unique (loopStep_deterministic nodes graph) hrun₀ hrun₁
    exact frozen_of_run hnonneg (lazy_of_run hnonneg hrun₀) hrest (p := (cost, node)) (by simp)
  · have hedges : ((passed es).map fun p => (neighbours graph p.2).length).sum ≤
        (entries graph).length := by
      have hcount := sum_neighbours_le graph (f := fun _ => 1) (fun _ _ => Nat.zero_le 1) h.once
      simpa [List.map_map, Function.comp_def] using hcount
    have := h.paid
    omega

/-- **Lazy deletion** does no repeated work.  On a light graph the queue loop runs to
its end, and after every run of its steps no node has been expanded twice. -/
theorem lazy_deletion (hg : LightGraph graph) (hsrc : isPlace nodes src = true) :
    (∃ es t, Run (LoopStep nodes graph) (loopStart nodes src) es t ∧
      loopStep nodes graph t = none ∧
      searchLoop nodes graph (searchFuel nodes) (initSearch nodes src) = .ok t.vars) ∧
    ∀ es t, Run (LoopStep nodes graph) (loopStart nodes src) es t →
      NoRepeatedWork nodes graph src es t := by
  refine ⟨?_, fun es t hrun => noRepeatedWork_of_run hg hrun⟩
  obtain ⟨s, l, done, hloop, _⟩ := searchLoop_settled hg.light hsrc
  obtain ⟨es, t, hrun, rfl, hend⟩ := run_of_searchLoop src hloop
  exact ⟨es, t, hrun, hend, hloop⟩

theorem lazy_deletion_village :
    ∃ es t, Run (LoopStep villageNodes (roadOf villageLines)) (loopStart villageNodes 1) es t ∧
      loopStep villageNodes (roadOf villageLines) t = none ∧
      NoRepeatedWork villageNodes (roadOf villageLines) 1 es t := by
  have hlight : LightGraph (roadOf villageLines) := ⟨by decide +kernel, by decide +kernel⟩
  obtain ⟨⟨es, t, hrun, hend, _⟩, hall⟩ :=
    @lazy_deletion ℤ villageNodes (roadOf villageLines) 1 hlight (by decide)
  exact ⟨es, t, hrun, hend, hall es t hrun⟩

end SmartParking
