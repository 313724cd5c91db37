/-
The route search: `dijkstra` of `SmartParking.cpp`.

`int` addition is checked, since leaving the range is undefined behaviour: the
search then has no result (`Halt.overflow`).  Both loops carry a bound on their
rounds, and running out of it is `Halt.diverges`:

* the queue loop is given `searchFuel` rounds, which `searchLoop_ne_diverges`
  shows to be enough on every graph: each push lowers a distance by at least one
  and no distance leaves the `int` range;
* the walk back along `parent` is given one round more than `parent` has keys; a
  longer walk has met a node twice and never ends.

`mem_dijkstra_place`: the nodes of a route are present and no ghosts, also where
weights are negative.
-/
import SmartParking.Library.PriorityQueue
import SmartParking.State

open StdMap TextStream

namespace SmartParking

variable {D : Type}

/-- How a search can fail to return. -/
inductive Halt
  | overflow
  | diverges
  deriving DecidableEq, Repr

/-- `a + b` on `int`. -/
def addInt (a b : ℤ) : Except Halt ℤ := if IsInt (a + b) then .ok (a + b) else .error .overflow

/-- The local variables of `dijkstra`. -/
structure Search where
  dist : Map ℤ ℤ
  parent : Map ℤ ℤ
  pq : PriorityQueue (ℤ ×ₗ ℤ)

/-- `dist[v]` for a key `v`; every node that enters the queue is one. -/
def Search.distAt (s : Search) (v : ℤ) : ℤ := s.dist.getD v 0

theorem distAt_of_getElem? {s : Search} {v d : ℤ} (h : s.dist[v]? = some d) : s.distAt v = d := by
  rw [Search.distAt, getD_eq, h, Option.getD_some]

/-- The entries of `graph.at(node)`, none if `node` is no key. -/
def neighbours (graph : Adjacency) (node : ℤ) : List (ℤ × ℤ) := graph.getD node []

/-- The assignments made when the edge to `next` improves on `dist[next]`. -/
def Search.improve (s : Search) (node next sum : ℤ) : Search :=
  { dist := s.dist.insert next sum
    parent := s.parent.insert next node
    pq := s.pq.push (toLex (sum, next)) }

/-- The body of the loop over the edges that leave `node`. -/
def relaxEdge (nodes : Map ℤ (Node D)) (node : ℤ) (s : Search) (e : ℤ × ℤ) : Except Halt Search :=
  if (nodes[e.1]?.map Node.ghost).getD false then .ok s
  else
    match s.dist[e.1]? with
    -- an edge to an id that is no node is skipped
    | none => .ok s
    | some old => do
      let sum ← addInt (s.distAt node) e.2
      if sum < old then .ok (s.improve node e.1 sum) else .ok s

/-- `while(!pq.empty())`. -/
def searchLoop (nodes : Map ℤ (Node D)) (graph : Adjacency) : ℕ → Search → Except Halt Search
  | 0, _ => .error .diverges
  | fuel + 1, s =>
    match s.pq.pop? with
    | none => .ok s
    | some (entry, pq) =>
      let cost := (ofLex entry).1
      let node := (ofLex entry).2
      -- the distance has been lowered since the entry was pushed
      if cost > s.distAt node then searchLoop nodes graph fuel { s with pq := pq }
      else do
        let s' ← (neighbours graph node).foldlM (relaxEdge nodes node) { s with pq := pq }
        searchLoop nodes graph fuel s'

/-- `while(cur != src)`; `path` is what has been pushed so far, last first. -/
def walkBack (parent : Map ℤ ℤ) (src : ℤ) : ℕ → ℤ → List ℤ → Except Halt (List ℤ)
  | 0, _, _ => .error .diverges
  | fuel + 1, cur, path =>
    if cur = src then .ok (src :: path)
    else
      match parent[cur]? with
      | none => .ok []
      | some u => walkBack parent src fuel u (cur :: path)

/-- The distances at the start: `INT_MAX` for every node that is no ghost. -/
def initDist (nodes : Map ℤ (Node D)) : Map ℤ ℤ :=
  nodes.toList.foldl (fun dist p => if !p.2.ghost then dist.insert p.1 intMax else dist) ∅

/-- Rounds that suffice for the queue loop. -/
def searchFuel (nodes : Map ℤ (Node D)) : ℕ := nodes.size * 2 ^ 32 + 2

def initSearch (nodes : Map ℤ (Node D)) (src : ℤ) : Search :=
  { dist := (initDist nodes).insert src 0
    parent := ∅
    pq := PriorityQueue.empty.push (toLex (0, src)) }

/-- The guard after the loop over `nodes` reads `return {};`. -/
def dijkstra (nodes : Map ℤ (Node D)) (src dest : ℤ) (graph : Adjacency) : Except Halt (List ℤ) :=
  if !(initDist nodes).contains src || !(initDist nodes).contains dest then .ok []
  else do
    let s ← searchLoop nodes graph (searchFuel nodes) (initSearch nodes src)
    match s.dist[dest]? with
    | none => .ok []
    | some d =>
      if d = intMax then .ok []
      else walkBack s.parent src (s.parent.size + 1) dest []

/-! ### Computations that may halt -/

theorem bind_eq_ok {α β : Type} {x : Except Halt α} {f : α → Except Halt β} {b : β}
    (h : (x >>= f) = .ok b) : ∃ a, x = .ok a ∧ f a = .ok b := by
  cases x with
  | error halt => exact absurd h (by simp [bind, Except.bind])
  | ok a => exact ⟨a, rfl, h⟩

theorem bind_ne_diverges {α β : Type} {x : Except Halt α} {f : α → Except Halt β}
    (hx : x ≠ .error .diverges) (hf : ∀ a, x = .ok a → f a ≠ .error .diverges) :
    (x >>= f) ≠ .error .diverges := by
  cases x with
  | error halt => simpa [bind, Except.bind] using hx
  | ok a => exact hf a rfl

/-- A loop keeps what its body keeps. -/
theorem foldlM_invariant {α σ : Type} {f : σ → α → Except Halt σ} {I : σ → Prop}
    (hbody : ∀ s a s', I s → f s a = .ok s' → I s') (l : List α) :
    ∀ {s s' : σ}, I s → l.foldlM f s = .ok s' → I s' := by
  induction l with
  | nil =>
    intro s s' hs h
    obtain rfl : s = s' := Except.ok.inj h
    exact hs
  | cons a l ih =>
    intro s s' hs h
    rw [List.foldlM_cons] at h
    obtain ⟨s₁, ha, hl⟩ := bind_eq_ok h
    exact ih (hbody s a s₁ hs ha) hl

theorem foldlM_ne_diverges {α σ : Type} {f : σ → α → Except Halt σ}
    (hbody : ∀ s a, f s a ≠ .error .diverges) (l : List α) :
    ∀ s : σ, l.foldlM f s ≠ .error .diverges := by
  induction l with
  | nil => exact fun s => by simp [pure, Except.pure]
  | cons a l ih =>
    intro s
    rw [List.foldlM_cons]
    exact bind_ne_diverges (hbody s a) fun s₁ _ => ih s₁

/-! ### The distances at the start -/

theorem getElem?_foldl_initDist (l : List (ℤ × Node D)) (dist : Map ℤ ℤ) (v : ℤ) :
    (l.foldl (fun dist p => if !p.2.ghost then dist.insert p.1 intMax else dist) dist)[v]? =
      if ∃ p ∈ l, p.1 = v ∧ p.2.ghost = false then some intMax else dist[v]? := by
  induction l generalizing dist with
  | nil => simp
  | cons p l ih =>
    rw [List.foldl_cons, ih]
    by_cases hl : ∃ q ∈ l, q.1 = v ∧ q.2.ghost = false
    · obtain ⟨q, hq, hqv⟩ := hl
      rw [if_pos ⟨q, hq, hqv⟩, if_pos ⟨q, List.mem_cons_of_mem _ hq, hqv⟩]
    · rw [if_neg hl]
      cases hg : p.2.ghost with
      | true =>
        have hcons : ¬ ∃ q ∈ p :: l, q.1 = v ∧ q.2.ghost = false := by
          rintro ⟨q, hq, hqv, hqg⟩
          rcases List.mem_cons.mp hq with rfl | hq
          · rw [hg] at hqg
            exact absurd hqg (by simp)
          · exact hl ⟨q, hq, hqv, hqg⟩
        rw [if_neg hcons]
        simp
      | false =>
        rw [Bool.not_false, if_pos rfl, getElem?_insert_eq]
        by_cases hv : v = p.1
        · rw [if_pos hv, if_pos ⟨p, by simp, hv.symm, hg⟩]
        · have hcons : ¬ ∃ q ∈ p :: l, q.1 = v ∧ q.2.ghost = false := by
            rintro ⟨q, hq, hqv, hqg⟩
            rcases List.mem_cons.mp hq with rfl | hq
            · exact hv hqv.symm
            · exact hl ⟨q, hq, hqv, hqg⟩
          rw [if_neg hv, if_neg hcons]

theorem getElem?_initDist (nodes : Map ℤ (Node D)) (v : ℤ) :
    (initDist nodes)[v]? = if isPlace nodes v = true then some intMax else none := by
  have hiff : (∃ p ∈ nodes.toList, p.1 = v ∧ p.2.ghost = false) ↔ isPlace nodes v = true := by
    rw [isPlace_iff]
    constructor
    · rintro ⟨p, hp, rfl, hg⟩
      exact ⟨p.2, Std.ExtTreeMap.mem_toList_iff_getElem?_eq_some.mp hp, hg⟩
    · rintro ⟨n, hn, hg⟩
      exact ⟨(v, n), Std.ExtTreeMap.mem_toList_iff_getElem?_eq_some.mpr hn, rfl, hg⟩
  rw [initDist, getElem?_foldl_initDist, Std.ExtTreeMap.getElem?_empty]
  simp only [hiff]

theorem contains_initDist (nodes : Map ℤ (Node D)) (v : ℤ) :
    (initDist nodes).contains v = isPlace nodes v := by
  rw [Std.ExtTreeMap.contains_eq_isSome_getElem?, getElem?_initDist]
  cases isPlace nodes v <;> rfl

/-! ### The queue loop ends -/

/-- Queue entries still to come: those in the queue, and one for each unit by
which a distance can still go down. -/
def potential (keys : Finset ℤ) (s : Search) : ℤ :=
  s.pq.size + ∑ k ∈ keys, (s.dist.getD k 0 - intMin)

/-- The keys of `dist` are among the given ones and the distances are `int`s. -/
def DistIn (keys : Finset ℤ) (s : Search) : Prop :=
  ∀ k d, s.dist[k]? = some d → k ∈ keys ∧ intMin ≤ d

theorem addInt_eq_ok {a b c : ℤ} (h : addInt a b = .ok c) : c = a + b ∧ IsInt c := by
  rw [addInt] at h
  split at h
  · rename_i hint
    simp only [Except.ok.injEq] at h
    exact ⟨h.symm, h ▸ hint⟩
  · exact absurd h (by simp)

/-- What one round of the inner loop can do. -/
theorem relaxEdge_cases {nodes : Map ℤ (Node D)} {node : ℤ} {s s' : Search} {e : ℤ × ℤ}
    (h : relaxEdge nodes node s e = .ok s') :
    s' = s ∨ ∃ old, s.dist[e.1]? = some old ∧ s.distAt node + e.2 < old ∧
      IsInt (s.distAt node + e.2) ∧ s' = s.improve node e.1 (s.distAt node + e.2) := by
  rw [relaxEdge] at h
  split at h
  · exact .inl (Except.ok.inj h).symm
  · split at h
    · exact .inl (Except.ok.inj h).symm
    · rename_i old hold
      obtain ⟨sum, hsum, h⟩ := bind_eq_ok h
      obtain ⟨rfl, hint⟩ := addInt_eq_ok hsum
      split at h
      · rename_i hlt
        exact .inr ⟨old, hold, hlt, hint, (Except.ok.inj h).symm⟩
      · exact .inl (Except.ok.inj h).symm

theorem getElem?_improve (s : Search) (u v sum x : ℤ) :
    (s.improve u v sum).dist[x]? = if x = v then some sum else s.dist[x]? :=
  getElem?_insert_eq _ _ _ _

theorem getElem?_improve_parent (s : Search) (u v sum x : ℤ) :
    (s.improve u v sum).parent[x]? = if x = v then some u else s.parent[x]? :=
  getElem?_insert_eq _ _ _ _

theorem relaxEdge_ne_diverges {nodes : Map ℤ (Node D)} {node : ℤ} {s : Search} {e : ℤ × ℤ} :
    relaxEdge nodes node s e ≠ .error .diverges := by
  have hsum : ∀ a b, addInt a b ≠ .error .diverges := by
    intro a b
    rw [addInt]
    split <;> simp
  rw [relaxEdge]
  split
  · simp
  · split
    · simp
    · refine bind_ne_diverges (hsum _ _) fun sum _ => ?_
      split <;> simp

theorem sum_insert {keys : Finset ℤ} {dist : Map ℤ ℤ} {k old new : ℤ} (hk : k ∈ keys)
    (hold : dist[k]? = some old) :
    ∑ x ∈ keys, ((dist.insert k new).getD x 0 - intMin) =
      ∑ x ∈ keys, (dist.getD x 0 - intMin) + (new - old) := by
  have hget : dist.getD k 0 = old := by rw [getD_eq, hold, Option.getD_some]
  rw [← Finset.add_sum_erase keys _ hk, ← Finset.add_sum_erase keys (fun x => dist.getD x 0 - _) hk]
  have hrest : ∑ x ∈ keys.erase k, ((dist.insert k new).getD x 0 - intMin) =
      ∑ x ∈ keys.erase k, (dist.getD x 0 - intMin) := by
    refine Finset.sum_congr rfl fun x hx => ?_
    rw [getD_insert_eq, if_neg (Finset.ne_of_mem_erase hx)]
  rw [hrest, getD_insert_eq, if_pos rfl, hget]
  omega

theorem relaxEdge_potential {nodes : Map ℤ (Node D)} {node : ℤ} {s s' : Search} {e : ℤ × ℤ}
    {keys : Finset ℤ} (hs : DistIn keys s) (h : relaxEdge nodes node s e = .ok s') :
    DistIn keys s' ∧ potential keys s' ≤ potential keys s := by
  rcases relaxEdge_cases h with rfl | ⟨old, hold, hlt, hint, rfl⟩
  · exact ⟨hs, le_rfl⟩
  · obtain ⟨hk, _⟩ := hs _ _ hold
    constructor
    · intro k d hd
      rw [getElem?_improve] at hd
      by_cases hke : k = e.1
      · rw [if_pos hke, Option.some_inj] at hd
        subst hke hd
        exact ⟨hk, hint.1⟩
      · rw [if_neg hke] at hd
        exact hs k d hd
    · rw [potential, potential, Search.improve, PriorityQueue.size_push, sum_insert hk hold]
      push_cast
      omega

theorem potential_nonneg {keys : Finset ℤ} {s : Search} (hs : DistIn keys s) :
    0 ≤ potential keys s := by
  refine add_nonneg (Int.natCast_nonneg _) (Finset.sum_nonneg fun k _ => ?_)
  rw [getD_eq]
  cases hk : s.dist[k]? with
  | none => simp [intMin]
  | some d =>
    have := (hs k d hk).2
    simp only [Option.getD_some]
    omega

/-- With more rounds than the potential, the queue loop does not run out of them. -/
theorem searchLoop_ne_diverges {nodes : Map ℤ (Node D)} {graph : Adjacency} {keys : Finset ℤ}
    {fuel : ℕ} {s : Search} (hs : DistIn keys s) (hfuel : potential keys s < fuel) :
    searchLoop nodes graph fuel s ≠ .error .diverges := by
  -- every round takes one off the potential
  induction fuel generalizing s with
  | zero =>
    have := potential_nonneg hs
    exact absurd hfuel (by push_cast; omega)
  | succ fuel ih =>
    rw [searchLoop]
    split
    · simp
    · rename_i entry pq hpop
      have hpopped : potential keys { s with pq := pq } + 1 = potential keys s := by
        have hlen := congrArg List.length (PriorityQueue.pop?_eq_some hpop).1
        simp only [potential, PriorityQueue.size, hlen, List.length_cons]
        push_cast
        omega
      push_cast at hfuel
      dsimp only
      split
      · exact ih (s := { s with pq := pq }) hs (by omega)
      · refine bind_ne_diverges
          (foldlM_ne_diverges (fun _ _ => relaxEdge_ne_diverges) _ _) fun s' hfold => ?_
        -- the inner loop lowers the potential, and the pop has lowered it by one
        have hbody : ∀ t e t',
            (DistIn keys t ∧ potential keys t ≤ potential keys { s with pq := pq }) →
            relaxEdge nodes (ofLex entry).2 t e = .ok t' →
            DistIn keys t' ∧ potential keys t' ≤ potential keys { s with pq := pq } := by
          intro t e t' ht hstep
          obtain ⟨ht', hle⟩ := relaxEdge_potential ht.1 hstep
          exact ⟨ht', hle.trans ht.2⟩
        have hs₀ : DistIn keys { s with pq := pq } := hs
        obtain ⟨hs', hle⟩ := foldlM_invariant hbody _ ⟨hs₀, le_rfl⟩ hfold
        exact ih hs' (by omega)

theorem getElem?_initSearch_dist {nodes : Map ℤ (Node D)} {src : ℤ} (v : ℤ) :
    (initSearch nodes src).dist[v]? =
      if v = src then some 0 else if isPlace nodes v = true then some intMax else none := by
  rw [initSearch, getElem?_insert_eq, getElem?_initDist]

theorem mem_initSearch_pq {nodes : Map ℤ (Node D)} {src : ℤ} {e : ℤ ×ₗ ℤ} :
    e ∈ (initSearch nodes src).pq ↔ e = toLex (0, src) := by
  rw [initSearch, PriorityQueue.mem_push]
  simp

/-- The queue loop of `dijkstra` ends on every graph. -/
theorem searchLoop_initSearch_ne_diverges {nodes : Map ℤ (Node D)} {src : ℤ}
    (hsrc : isPlace nodes src = true) (graph : Adjacency) :
    searchLoop nodes graph (searchFuel nodes) (initSearch nodes src) ≠ .error .diverges := by
  have hkey : ∀ v, isPlace nodes v = true → v ∈ nodes.keys.toFinset := by
    intro v hv
    rw [List.mem_toFinset, Std.ExtTreeMap.mem_keys]
    exact mem_of_isPlace hv
  have hdist : DistIn nodes.keys.toFinset (initSearch nodes src) := by
    intro k d hd
    rw [getElem?_initSearch_dist] at hd
    split at hd
    · rename_i hk
      simp only [Option.some.injEq] at hd
      subst hk hd
      exact ⟨hkey k hsrc, by decide⟩
    · split at hd
      · rename_i hk
        simp only [Option.some.injEq] at hd
        subst hd
        exact ⟨hkey k hk, by decide⟩
      · exact absurd hd (by simp)
  refine searchLoop_ne_diverges hdist ?_
  have hterm : ∀ k ∈ nodes.keys.toFinset,
      (initSearch nodes src).dist.getD k 0 - intMin ≤ 2 ^ 32 := by
    intro k _
    rw [getD_eq, getElem?_initSearch_dist]
    split
    · simp [intMin]
    · split <;> simp [intMin, intMax]
  have hcard : nodes.keys.toFinset.card ≤ nodes.size := by
    rw [← Std.ExtTreeMap.length_keys]
    exact List.toFinset_card_le _
  -- each distance can go down by less than 2 ^ 32
  have hsum := Finset.sum_le_card_nsmul nodes.keys.toFinset _ _ hterm
  have hsize : (initSearch nodes src).pq.size = 1 := by
    rw [initSearch, PriorityQueue.size_push]
    rfl
  rw [potential, hsize, searchFuel]
  rw [nsmul_eq_mul] at hsum
  push_cast
  have hmul : ((nodes.keys.toFinset.card : ℕ) : ℤ) * 2 ^ 32 ≤ (nodes.size : ℤ) * 2 ^ 32 := by
    refine mul_le_mul_of_nonneg_right ?_ (by norm_num)
    exact_mod_cast hcard
  omega

/-! ### What the queue loop keeps -/

/-- An invariant of the queue loop: kept when a stale entry is dropped, and when the
edges of a popped node have been relaxed.  In the end the queue is empty. -/
theorem searchLoop_invariant {nodes : Map ℤ (Node D)} {graph : Adjacency} {I : Search → Prop}
    (hstale : ∀ s entry pq, I s → s.pq.pop? = some (entry, pq) →
      s.distAt (ofLex entry).2 < (ofLex entry).1 → I { s with pq := pq })
    (hexpand : ∀ s entry pq s', I s → s.pq.pop? = some (entry, pq) →
      (ofLex entry).1 ≤ s.distAt (ofLex entry).2 →
      (neighbours graph (ofLex entry).2).foldlM (relaxEdge nodes (ofLex entry).2)
        { s with pq := pq } = .ok s' → I s') (fuel : ℕ) :
    ∀ {s s' : Search}, I s → searchLoop nodes graph fuel s = .ok s' →
      I s' ∧ s'.pq.pop? = none := by
  induction fuel with
  | zero =>
    intro s s' _ hs
    exact absurd hs (by simp [searchLoop])
  | succ fuel ih =>
    intro s s' h hs
    rw [searchLoop] at hs
    split at hs
    · rename_i hpop
      obtain rfl : s = s' := Except.ok.inj hs
      exact ⟨h, hpop⟩
    · rename_i entry pq hpop
      dsimp only at hs
      split at hs
      · rename_i hlt
        exact ih (hstale s entry pq h hpop hlt) hs
      · rename_i hfresh
        obtain ⟨s₁, hfold, hs⟩ := bind_eq_ok hs
        exact ih (hexpand s entry pq s₁ h hpop (not_lt.mp hfresh) hfold) hs

/-! ### The nodes of a route -/

/-- What the search knows of are places: keys of `dist`, queued nodes and parents. -/
structure OverPlaces (nodes : Map ℤ (Node D)) (s : Search) : Prop where
  dist : ∀ v d : ℤ, s.dist[v]? = some d → isPlace nodes v = true
  queued : ∀ e ∈ s.pq, isPlace nodes (ofLex e).2 = true
  parent : ∀ v u : ℤ, s.parent[v]? = some u → isPlace nodes u = true

theorem OverPlaces.relaxEdge {nodes : Map ℤ (Node D)} {s s' : Search} {u : ℤ} {e : ℤ × ℤ}
    (h : OverPlaces nodes s) (hu : isPlace nodes u = true)
    (hs : SmartParking.relaxEdge nodes u s e = .ok s') : OverPlaces nodes s' := by
  rcases relaxEdge_cases hs with rfl | ⟨old, hold, _, _, rfl⟩
  · exact h
  · have he := h.dist _ _ hold
    refine ⟨?_, ?_, ?_⟩
    · intro v d hv
      rw [getElem?_improve] at hv
      by_cases hve : v = e.1
      · rw [hve]
        exact he
      · rw [if_neg hve] at hv
        exact h.dist v d hv
    · intro x hx
      rcases PriorityQueue.mem_push.mp hx with rfl | hx
      · exact he
      · exact h.queued x hx
    · intro v w hv
      rw [getElem?_improve_parent] at hv
      by_cases hve : v = e.1
      · rw [if_pos hve, Option.some_inj] at hv
        rw [← hv]
        exact hu
      · rw [if_neg hve] at hv
        exact h.parent v w hv

theorem OverPlaces.searchLoop {nodes : Map ℤ (Node D)} {graph : Adjacency} {fuel : ℕ}
    {s s' : Search} (h : OverPlaces nodes s)
    (hs : SmartParking.searchLoop nodes graph fuel s = .ok s') : OverPlaces nodes s' := by
  have hpopped : ∀ {s : Search} {entry : ℤ ×ₗ ℤ} {pq : PriorityQueue (ℤ ×ₗ ℤ)},
      OverPlaces nodes s → s.pq.pop? = some (entry, pq) → OverPlaces nodes { s with pq := pq } := by
    intro s entry pq h hpop
    refine ⟨h.dist, fun e he => h.queued e ?_, h.parent⟩
    exact (PriorityQueue.mem_iff_of_pop? hpop e).mpr (.inr he)
  refine (searchLoop_invariant (I := OverPlaces nodes) (fun s entry pq h hpop _ => hpopped h hpop)
    ?_ fuel h hs).1
  intro s entry pq s' h hpop _ hfold
  have hplace := h.queued entry (PriorityQueue.mem_of_pop? hpop)
  exact foldlM_invariant (fun t e t' ht hstep => ht.relaxEdge hplace hstep) _ (hpopped h hpop) hfold

theorem walkBack_mem {nodes : Map ℤ (Node D)} {parent : Map ℤ ℤ} {src : ℤ}
    (hsrc : isPlace nodes src = true)
    (hparent : ∀ v u : ℤ, parent[v]? = some u → isPlace nodes u = true) (fuel : ℕ) :
    ∀ {cur : ℤ} {acc path : List ℤ}, isPlace nodes cur = true →
      (∀ id ∈ acc, isPlace nodes id = true) → walkBack parent src fuel cur acc = .ok path →
      ∀ id ∈ path, isPlace nodes id = true := by
  induction fuel with
  | zero =>
    intro cur acc path _ _ h
    exact absurd h (by simp [walkBack])
  | succ fuel ih =>
    intro cur acc path hcur hacc h
    rw [walkBack] at h
    split at h
    · obtain rfl := Except.ok.inj h
      exact List.forall_mem_cons.mpr ⟨hsrc, hacc⟩
    · split at h
      · obtain rfl := Except.ok.inj h
        simp
      · rename_i u hu
        exact ih (hparent _ _ hu) (List.forall_mem_cons.mpr ⟨hcur, hacc⟩) h

/-- A route runs over nodes that are present and no ghosts. -/
theorem mem_dijkstra_place {nodes : Map ℤ (Node D)} {graph : Adjacency} {src dest : ℤ}
    {path : List ℤ} (h : dijkstra nodes src dest graph = .ok path) :
    ∀ id ∈ path, isPlace nodes id = true := by
  rw [dijkstra, contains_initDist, contains_initDist] at h
  split at h
  · obtain rfl := Except.ok.inj h
    simp
  · rename_i hplaces
    simp only [Bool.or_eq_true, Bool.not_eq_true', not_or, Bool.not_eq_false] at hplaces
    obtain ⟨hsrc, hdest⟩ := hplaces
    have hinit : OverPlaces nodes (initSearch nodes src) := by
      refine ⟨fun v d hv => ?_, fun e he => ?_, fun v u hv => ?_⟩
      · rw [getElem?_initSearch_dist] at hv
        split at hv
        · rename_i hvs
          rw [hvs]
          exact hsrc
        · split at hv
          · assumption
          · exact absurd hv (by simp)
      · rw [mem_initSearch_pq.mp he]
        exact hsrc
      · rw [initSearch, Std.ExtTreeMap.getElem?_empty] at hv
        exact absurd hv (by simp)
    obtain ⟨s, hloop, h⟩ := bind_eq_ok h
    have hs := hinit.searchLoop hloop
    split at h
    · obtain rfl := Except.ok.inj h
      simp
    · split at h
      · obtain rfl := Except.ok.inj h
        simp
      · exact walkBack_mem hsrc hs.parent _ hdest (by simp) h

/-- A route exists between places only. -/
theorem places_of_dijkstra {nodes : Map ℤ (Node D)} {graph : Adjacency} {src dest : ℤ}
    {path : List ℤ} (h : dijkstra nodes src dest graph = .ok path) (hne : path ≠ []) :
    isPlace nodes src = true ∧ isPlace nodes dest = true := by
  rw [dijkstra, contains_initDist, contains_initDist] at h
  split at h
  · exact absurd (Except.ok.inj h).symm hne
  · rename_i hplaces
    simpa only [Bool.or_eq_true, Bool.not_eq_true', not_or, Bool.not_eq_false] using hplaces

/-- The walk back keeps the end it started from. -/
theorem getLast?_walkBack {parent : Map ℤ ℤ} {src : ℤ} {fuel : ℕ} : ∀ {cur : ℤ} {path p : List ℤ},
    walkBack parent src fuel cur path = .ok p → p ≠ [] →
    p.getLast? = (cur :: path).getLast? := by
  induction fuel with
  | zero => exact fun h => absurd h (by simp [walkBack])
  | succ fuel ih =>
    intro cur path p h hne
    rw [walkBack] at h
    split at h
    · rename_i hcur
      rw [← Except.ok.inj h, hcur]
    · split at h
      · exact absurd (Except.ok.inj h).symm hne
      · rw [ih h hne, List.getLast?_cons_cons]

/-- A route ends at the destination. -/
theorem getLast?_dijkstra {nodes : Map ℤ (Node D)} {graph : Adjacency} {src dest : ℤ}
    {path : List ℤ} (h : dijkstra nodes src dest graph = .ok path) (hne : path ≠ []) :
    path.getLast? = some dest := by
  rw [dijkstra] at h
  split at h
  · exact absurd (Except.ok.inj h).symm hne
  · obtain ⟨s, _, h⟩ := bind_eq_ok h
    split at h
    · exact absurd (Except.ok.inj h).symm hne
    · split at h
      · exact absurd (Except.ok.inj h).symm hne
      · exact getLast?_walkBack h hne

end SmartParking
