/-
The label-setting method for shortest walks from one source.

Every node carries a distance label and a parent.  A step settles an unsettled
node whose label is least (`Least`) and relaxes the arcs that leave it
(`expand`); labels start at `top`, except 0 at the source.  `done` lists the
settled nodes in the order in which they were settled.

Where the arcs of the nodes settled are nonnegative:

* `explored_step` — a step keeps the invariant `Explored`: settled labels are
  final, and each parent was settled before its child;
* `Explored.exists_trace` — following the parents from a reached node leads to
  the source along a walk that weighs what the label says, without repeating a
  node (also when weights are zero);
* `Explored.isDist_of_least` — the label of the next node to settle is its
  distance from the source.

With nonnegative weights, and `top` above the sum of all weights:

* `settled_step` — labels stay within the weight of what has been settled
  (`Settled`);
* `Settled.shortest_of_exhausted` — when every unsettled label is `top`, the walk
  along the parents is shortest, and what has the label `top` cannot be reached.

The method is deterministic (`exhausted_unique`), and each step depends on the
lightest of parallel arcs only (`expand_congr`).
-/
import SmartParking.Library.Walks

open Walks

namespace LabelSetting

/-! ### Arcs and weights -/

section weight
variable {V : Type}

/-- The weight of all arcs that leave the listed nodes. -/
def weight (adj : V → List (V × ℤ)) (done : List V) : ℤ :=
  (done.map fun u => ((adj u).map Prod.snd).sum).sum

/-- The arcs of an adjacency function. -/
def ArcOf (adj : V → List (V × ℤ)) (u v : V) (w : ℤ) : Prop := (v, w) ∈ adj u

theorem weight_append_singleton (adj : V → List (V × ℤ)) (done : List V) (u : V) :
    weight adj (done ++ [u]) = weight adj done + ((adj u).map Prod.snd).sum := by
  simp [weight]

theorem le_sum_of_mem {l : List (V × ℤ)} (hl : ∀ a ∈ l, 0 ≤ a.2) {a : V × ℤ} (ha : a ∈ l) :
    a.2 ≤ (l.map Prod.snd).sum := by
  refine List.single_le_sum ?_ a.2 (List.mem_map_of_mem ha)
  intro x hx
  obtain ⟨b, hb, rfl⟩ := List.mem_map.mp hx
  exact hl b hb

theorem sum_weights_nonneg {l : List (V × ℤ)} (hl : ∀ a ∈ l, 0 ≤ a.2) :
    0 ≤ (l.map Prod.snd).sum := by
  refine List.sum_nonneg ?_
  intro x hx
  obtain ⟨b, hb, rfl⟩ := List.mem_map.mp hx
  exact hl b hb

/-- An arc of the list is no lighter than the lightest arc to its node. -/
theorem exists_lightest {adj : V → List (V × ℤ)} {u v : V} {w : ℤ} (hadj : ∀ a ∈ adj u, 0 ≤ a.2)
    (hw : ArcOf adj u v w) :
    ∃ w₀, Lightest (ArcOf adj) u v w₀ ∧ w₀ ≤ w := by
  have hbelow : BddBelow {w | ArcOf adj u v w} := ⟨0, fun w hw => hadj (v, w) hw⟩
  have hleast : IsLeast {w | ArcOf adj u v w} (sInf {w | ArcOf adj u v w}) :=
    ⟨Int.csInf_mem ⟨w, hw⟩ hbelow, fun w hw => csInf_le hbelow hw⟩
  exact ⟨_, hleast, hleast.2 hw⟩

end weight

/-! ### Labels -/

variable {V : Type} [LinearOrder V]

structure Labels (V : Type) where
  dist : V → ℤ
  parent : V → Option V

/-- Relax the arc from `u` to `a.1` of weight `a.2`. -/
def relax (u : V) (s : Labels V) (a : V × ℤ) : Labels V :=
  if s.dist u + a.2 < s.dist a.1 then
    { dist := Function.update s.dist a.1 (s.dist u + a.2)
      parent := Function.update s.parent a.1 (some u) }
  else s

/-- Relax all arcs that leave `u`. -/
def expand (adj : V → List (V × ℤ)) (u : V) (s : Labels V) : Labels V := (adj u).foldl (relax u) s

def initial (src : V) (top : ℤ) : Labels V where
  dist v := if v = src then 0 else top
  parent _ := none

/-- `u` is the unsettled reached node with the least label; ties go to the
least node. -/
structure Least (top : ℤ) (s : Labels V) (done : List V) (u : V) : Prop where
  unsettled : u ∉ done
  reached : s.dist u < top
  least : ∀ v, v ∉ done → s.dist v < top → toLex (s.dist u, u) ≤ toLex (s.dist v, v)

/-! ### One relaxation after another -/

section relax
variable {u : V}

theorem relax_cases (u : V) (s : Labels V) (a : V × ℤ) (v : V) :
    ((relax u s a).dist v = s.dist v ∧ (relax u s a).parent v = s.parent v) ∨
      (v = a.1 ∧ (relax u s a).dist v = s.dist u + a.2 ∧ s.dist u + a.2 < s.dist v ∧
        (relax u s a).parent v = some u) := by
  rw [relax]
  by_cases hlt : s.dist u + a.2 < s.dist a.1
  · rw [if_pos hlt]
    by_cases hv : v = a.1
    · subst hv
      exact .inr ⟨rfl, by simp, hlt, by simp⟩
    · exact .inl ⟨by simp [hv], by simp [hv]⟩
  · rw [if_neg hlt]
    exact .inl ⟨rfl, rfl⟩

theorem relax_dist_le (u : V) (s : Labels V) (a : V × ℤ) (v : V) :
    (relax u s a).dist v ≤ s.dist v := by
  rcases relax_cases u s a v with ⟨h, _⟩ | ⟨_, h, hlt, _⟩
  · rw [h]
  · rw [h]
    exact hlt.le

theorem relax_target_le (u : V) (s : Labels V) (a : V × ℤ) :
    (relax u s a).dist a.1 ≤ s.dist u + a.2 := by
  rw [relax]
  by_cases hlt : s.dist u + a.2 < s.dist a.1
  · rw [if_pos hlt]
    simp
  · rw [if_neg hlt]
    exact not_lt.mp hlt

theorem relax_self {s : Labels V} {a : V × ℤ} (ha : 0 ≤ a.2) :
    (relax u s a).dist u = s.dist u := by
  rcases relax_cases u s a u with ⟨h, _⟩ | ⟨_, _, hlt, _⟩
  · exact h
  · omega

/-- The labels after relaxing a list of arcs that leave `u`. -/
theorem foldl_relax_cases {l : List (V × ℤ)} (hl : ∀ a ∈ l, 0 ≤ a.2) (s : Labels V) (v : V) :
    ((l.foldl (relax u) s).dist v = s.dist v ∧ (l.foldl (relax u) s).parent v = s.parent v) ∨
      ∃ w, (v, w) ∈ l ∧ (l.foldl (relax u) s).dist v = s.dist u + w ∧ s.dist u + w < s.dist v ∧
        (l.foldl (relax u) s).parent v = some u := by
  induction l generalizing s with
  | nil => exact .inl ⟨rfl, rfl⟩
  | cons a l ih =>
    have hself : (relax u s a).dist u = s.dist u := relax_self (hl a (by simp))
    rw [List.foldl_cons]
    rcases ih (fun b hb => hl b (List.mem_cons_of_mem _ hb)) (relax u s a) with
      ⟨hd, hp⟩ | ⟨w, hw, hd, hlt, hp⟩
    · rcases relax_cases u s a v with ⟨hd', hp'⟩ | ⟨rfl, hd', hlt', hp'⟩
      · exact .inl ⟨hd.trans hd', hp.trans hp'⟩
      · exact .inr ⟨a.2, by simp, hd.trans hd', hlt', hp.trans hp'⟩
    · -- relaxing `a` has not raised the label that the later arc lowers
      have hle := relax_dist_le u s a v
      rw [hself] at hd hlt
      exact .inr ⟨w, List.mem_cons_of_mem _ hw, hd, by omega, hp⟩

theorem foldl_relax_le {l : List (V × ℤ)} (hl : ∀ a ∈ l, 0 ≤ a.2) (s : Labels V) (v : V) :
    (l.foldl (relax u) s).dist v ≤ s.dist v := by
  rcases foldl_relax_cases hl s v with ⟨h, _⟩ | ⟨_, _, h, hlt, _⟩
  · rw [h]
  · rw [h]
    exact hlt.le

theorem foldl_relax_target_le {l : List (V × ℤ)} (hl : ∀ a ∈ l, 0 ≤ a.2) (s : Labels V)
    {a : V × ℤ} (ha : a ∈ l) : (l.foldl (relax u) s).dist a.1 ≤ s.dist u + a.2 := by
  induction l generalizing s with
  | nil => simp at ha
  | cons b l ih =>
    have hself : (relax u s b).dist u = s.dist u := relax_self (hl b (by simp))
    have hl' : ∀ c ∈ l, 0 ≤ c.2 := fun c hc => hl c (List.mem_cons_of_mem _ hc)
    rw [List.foldl_cons]
    rcases List.mem_cons.mp ha with rfl | ha
    · exact (foldl_relax_le hl' _ _).trans (relax_target_le u s a)
    · rw [← hself]
      exact ih hl' _ ha

end relax

/-! ### The invariant -/

/-- What holds while nodes are being settled. -/
structure Explored (adj : V → List (V × ℤ)) (top : ℤ) (src : V) (s : Labels V) (done : List V) :
    Prop where
  nodup : done.Nodup
  src_dist : s.dist src = 0
  src_parent : s.parent src = none
  nonneg : ∀ v, 0 ≤ s.dist v
  le_top : ∀ v, s.dist v ≤ top
  reached : ∀ u ∈ done, s.dist u < top
  mono : ∀ u ∈ done, ∀ v, v ∉ done → s.dist u ≤ s.dist v
  relaxed : ∀ u ∈ done, ∀ a ∈ adj u, s.dist a.1 ≤ s.dist u + a.2
  parent : ∀ v, v ≠ src → s.dist v < top →
    ∃ u w, s.parent v = some u ∧ u ∈ done ∧ ArcOf adj u v w ∧ s.dist v = s.dist u + w ∧
      done.idxOf u < done.idxOf v
  unreached : ∀ v, s.dist v = top → s.parent v = none

/-- The same, with labels no larger than the weight of what has been settled. -/
structure Settled (adj : V → List (V × ℤ)) (top : ℤ) (src : V) (s : Labels V) (done : List V) :
    Prop where
  nodup : done.Nodup
  src_dist : s.dist src = 0
  src_parent : s.parent src = none
  nonneg : ∀ v, 0 ≤ s.dist v
  le_top : ∀ v, s.dist v ≤ top
  reached : ∀ u ∈ done, s.dist u < top
  bound : ∀ v, s.dist v < top → s.dist v ≤ weight adj done
  mono : ∀ u ∈ done, ∀ v, v ∉ done → s.dist u ≤ s.dist v
  relaxed : ∀ u ∈ done, ∀ a ∈ adj u, s.dist a.1 ≤ s.dist u + a.2
  arc_bound : ∀ u ∈ done, ∀ a ∈ adj u, s.dist u + a.2 ≤ weight adj done
  parent : ∀ v, v ≠ src → s.dist v < top →
    ∃ u w, s.parent v = some u ∧ u ∈ done ∧ ArcOf adj u v w ∧ s.dist v = s.dist u + w ∧
      done.idxOf u < done.idxOf v
  unreached : ∀ v, s.dist v = top → s.parent v = none

/-- Nothing reached is left to settle. -/
def Exhausted (top : ℤ) (s : Labels V) (done : List V) : Prop := ∀ v, v ∉ done → top ≤ s.dist v

variable {adj : V → List (V × ℤ)} {top : ℤ} {src : V} {s : Labels V} {done : List V}

theorem Settled.explored (h : Settled adj top src s done) : Explored adj top src s done where
  nodup := h.nodup
  src_dist := h.src_dist
  src_parent := h.src_parent
  nonneg := h.nonneg
  le_top := h.le_top
  reached := h.reached
  mono := h.mono
  relaxed := h.relaxed
  parent := h.parent
  unreached := h.unreached

theorem explored_initial (htop : 0 < top) : Explored adj top src (initial src top) [] where
  nodup := List.nodup_nil
  src_dist := by simp [initial]
  src_parent := rfl
  nonneg v := by
    simp only [initial]
    split <;> omega
  le_top v := by
    simp only [initial]
    split <;> omega
  reached := by simp
  mono := by simp
  relaxed := by simp
  parent v hv hlt := by
    simp only [initial, if_neg hv] at hlt
    omega
  unreached _ _ := rfl

theorem Explored.nodup_snoc (h : Explored adj top src s done) {u : V} (hu : Least top s done u) :
    (done ++ [u]).Nodup := by
  rw [List.nodup_append]
  refine ⟨h.nodup, by simp, ?_⟩
  rintro a ha b hb rfl
  rw [List.mem_singleton.mp hb] at ha
  exact hu.unsettled ha

/-- The least unsettled node is no farther than any other unsettled node. -/
theorem Explored.dist_le_of_least (h : Explored adj top src s done) {u : V}
    (hu : Least top s done u) {v : V} (hv : v ∉ done) : s.dist u ≤ s.dist v := by
  rcases (h.le_top v).lt_or_eq with hlt | heq
  · have := hu.least v hv hlt
    rw [Prod.Lex.toLex_le_toLex] at this
    rcases this with h1 | ⟨h1, _⟩
    · exact h1.le
    · exact h1.le
  · rw [heq]
    exact hu.reached.le

/-- A node whose label expanding the least unsettled node improves is another one, and
unsettled. -/
theorem Explored.expand_cases (h : Explored adj top src s done) {u : V}
    (hadj : ∀ a ∈ adj u, 0 ≤ a.2) (hu : Least top s done u) (v : V) :
    ((expand adj u s).dist v = s.dist v ∧ (expand adj u s).parent v = s.parent v) ∨
      ∃ w, (v, w) ∈ adj u ∧ 0 ≤ w ∧ (expand adj u s).dist v = s.dist u + w ∧
        s.dist u + w < s.dist v ∧ (expand adj u s).parent v = some u ∧ v ∉ done ++ [u] ∧
        v ≠ src := by
  rcases foldl_relax_cases hadj s v with hsame | ⟨w, hw, hd, hlt, hp⟩
  · exact .inl hsame
  · have hpos : 0 ≤ w := hadj (v, w) hw
    have hnew : v ∉ done ++ [u] := by
      intro hv
      rcases List.mem_append.mp hv with hv | hv
      · have := h.mono v hv u hu.unsettled
        omega
      · rw [List.mem_singleton.mp hv] at hlt
        omega
    have hsrc : v ≠ src := by
      rintro rfl
      have := h.nonneg u
      rw [h.src_dist] at hlt
      omega
    exact .inr ⟨w, hw, hpos, hd, hlt, hp, hnew, hsrc⟩

/-- Expanding the least unsettled node changes no settled label, nor its own. -/
theorem expand_settled (h : Explored adj top src s done) {u v : V}
    (hadj : ∀ a ∈ adj u, 0 ≤ a.2) (hu : Least top s done u) (hv : v ∈ done ++ [u]) :
    (expand adj u s).dist v = s.dist v ∧ (expand adj u s).parent v = s.parent v := by
  rcases h.expand_cases hadj hu v with hsame | ⟨_, _, _, _, _, _, hnew, _⟩
  · exact hsame
  · exact absurd hv hnew

/-- An unsettled node stays at least as far as the node expanded. -/
theorem Explored.dist_le_expand (h : Explored adj top src s done) {u v : V}
    (hadj : ∀ a ∈ adj u, 0 ≤ a.2) (hu : Least top s done u) (hv : v ∉ done) :
    s.dist u ≤ (expand adj u s).dist v := by
  rcases h.expand_cases hadj hu v with ⟨hd, _⟩ | ⟨w, _, hpos, hd, _⟩
  · rw [hd]
    exact h.dist_le_of_least hu hv
  · omega

/-- What was settled earlier stays so when nodes are settled. -/
theorem idxOf_append_lt {x v : V} (hx : x ∈ done)
    (hlt : done.idxOf x < done.idxOf v) (l : List V) :
    (done ++ l).idxOf x < (done ++ l).idxOf v := by
  rw [List.idxOf_append_of_mem hx]
  by_cases hv : v ∈ done
  · rw [List.idxOf_append_of_mem hv]
    exact hlt
  · have hlen := List.idxOf_lt_length_of_mem hx
    rw [List.idxOf_append_of_notMem hv]
    omega

/-- A node just settled comes before those that are not. -/
theorem idxOf_snoc_lt {u v : V} (hv : v ∉ done ++ [u]) :
    (done ++ [u]).idxOf u < (done ++ [u]).idxOf v := by
  have hmem : (done ++ [u]).idxOf u < (done ++ [u]).length := List.idxOf_lt_length_of_mem (by simp)
  rwa [List.idxOf_eq_length hv]

/-- After a step the parent of a reached node is settled before it. -/
theorem Explored.parent_expand (h : Explored adj top src s done) {u : V}
    (hadj : ∀ a ∈ adj u, 0 ≤ a.2) (hu : Least top s done u) {v : V} (hv : v ≠ src)
    (hlt : (expand adj u s).dist v < top) :
    ∃ x w, (expand adj u s).parent v = some x ∧ x ∈ done ++ [u] ∧ ArcOf adj x v w ∧
      (expand adj u s).dist v = (expand adj u s).dist x + w ∧
      (done ++ [u]).idxOf x < (done ++ [u]).idxOf v := by
  rcases h.expand_cases hadj hu v with ⟨hd, hp⟩ | ⟨w, hw, _, hd, _, hp, hnew, _⟩
  · rw [hd] at hlt
    obtain ⟨x, w, hpx, hx, hw, hdx, hidx⟩ := h.parent v hv hlt
    have hsx := (expand_settled (v := x) h hadj hu (by simp [hx])).1
    exact ⟨x, w, by rw [hp, hpx], by simp [hx], hw, by rw [hsx, hd, hdx],
      idxOf_append_lt hx hidx [u]⟩
  · have hself := (expand_settled (v := u) h hadj hu (by simp)).1
    exact ⟨u, w, hp, by simp, hw, by rw [hself, hd], idxOf_snoc_lt hnew⟩

/-- **One step.**  Settling the least unsettled node keeps the invariant. -/
theorem explored_step (h : Explored adj top src s done) {u : V} (hadj : ∀ a ∈ adj u, 0 ≤ a.2)
    (hu : Least top s done u) : Explored adj top src (expand adj u s) (done ++ [u]) := by
  have hsame := fun v hv => expand_settled (v := v) h hadj hu hv
  have hcases := h.expand_cases hadj hu
  have hle := fun v => foldl_relax_le (u := u) hadj s v
  have hfar : ∀ v, v ∉ done → s.dist u ≤ (expand adj u s).dist v :=
    fun v hv => h.dist_le_expand hadj hu hv
  refine ⟨h.nodup_snoc hu, ?_, ?_, ?_, ?_, ?_, ?_, ?_,
    fun v hv hlt => h.parent_expand hadj hu hv hlt, ?_⟩
  · -- src_dist
    rcases hcases src with ⟨hd, _⟩ | ⟨_, _, _, _, _, _, _, hsrc⟩
    · rw [hd, h.src_dist]
    · exact absurd rfl hsrc
  · -- src_parent
    rcases hcases src with ⟨_, hp⟩ | ⟨_, _, _, _, _, _, _, hsrc⟩
    · rw [hp, h.src_parent]
    · exact absurd rfl hsrc
  · -- nonneg
    intro v
    by_cases hv : v ∈ done
    · rw [(hsame v (by simp [hv])).1]
      exact h.nonneg v
    · exact (h.nonneg u).trans (hfar v hv)
  · -- le_top
    intro v
    exact (hle v).trans (h.le_top v)
  · -- reached
    intro v hv
    rw [(hsame v hv).1]
    rcases List.mem_append.mp hv with hv | hv
    · exact h.reached v hv
    · rw [List.mem_singleton.mp hv]
      exact hu.reached
  · -- mono
    intro x hx v hv
    have hvd : v ∉ done := fun hc => hv (by simp [hc])
    rw [(hsame x hx).1]
    rcases List.mem_append.mp hx with hx | hx
    · exact (h.mono x hx u hu.unsettled).trans (hfar v hvd)
    · rw [List.mem_singleton.mp hx]
      exact hfar v hvd
  · -- relaxed
    intro x hx a ha
    rw [(hsame x hx).1]
    rcases List.mem_append.mp hx with hx | hx
    · exact (hle a.1).trans (h.relaxed x hx a ha)
    · rw [List.mem_singleton.mp hx] at ha ⊢
      exact foldl_relax_target_le hadj s ha
  · -- unreached
    intro v hv
    have htop := h.le_top v
    rcases hcases v with ⟨hd, hp⟩ | ⟨w, _, _, hd, hlt, _⟩
    · rw [hp]
      rw [hd] at hv
      exact h.unreached v hv
    · omega

theorem settled_initial (htop : 0 < top) : Settled adj top src (initial src top) [] where
  __ := (explored_initial htop : Explored adj top src (initial src top) [])
  bound v hv := by
    simp only [initial] at hv ⊢
    split at hv
    · simp [weight, *]
    · omega
  arc_bound := by simp

/-- One step, with the bound on the labels. -/
theorem settled_step (hadj : ∀ u, ∀ a ∈ adj u, 0 ≤ a.2) (h : Settled adj top src s done) {u : V}
    (hu : Least top s done u) : Settled adj top src (expand adj u s) (done ++ [u]) := by
  have hsum := sum_weights_nonneg (hadj u)
  have hweight := weight_append_singleton adj done u
  have hub := h.bound u hu.reached
  refine { explored_step h.explored (hadj u) hu with bound := ?_, arc_bound := ?_ }
  · intro v hlt
    rcases foldl_relax_cases (hadj u) s v with ⟨hd, _⟩ | ⟨w, hw, hd, _, _⟩
    · rw [expand, hd] at hlt ⊢
      have := h.bound v hlt
      omega
    · have hw' := le_sum_of_mem (hadj u) hw
      rw [expand, hd]
      simp only at hw'
      omega
  · intro x hx a ha
    rw [(expand_settled h.explored (hadj u) hu hx).1]
    rcases List.mem_append.mp hx with hx | hx
    · have := h.arc_bound x hx a ha
      omega
    · rw [List.mem_singleton.mp hx] at ha ⊢
      have := le_sum_of_mem (hadj u) ha
      omega

/-! ### Following the parents -/

/-- The nodes met from `v` back to the source, listed from the source on. -/
inductive Traces (parent : V → Option V) (src : V) : V → List V → Prop
  | src : Traces parent src src [src]
  | step {u v : V} {p : List V} :
      v ≠ src → parent v = some u → Traces parent src u p → Traces parent src v (p ++ [v])

omit [LinearOrder V] in
theorem Traces.head?_eq {parent : V → Option V} {src v : V} {p : List V}
    (h : Traces parent src v p) : p.head? = some src := by
  induction h with
  | src => rfl
  | step _ _ _ ih => rw [List.head?_append, ih, Option.some_or]

omit [LinearOrder V] in
/-- The parents lead one way. -/
theorem Traces.unique {parent : V → Option V} {src v : V} {p q : List V}
    (hp : Traces parent src v p) (hq : Traces parent src v q) : p = q := by
  induction hp generalizing q with
  | src =>
    cases hq with
    | src => rfl
    | step hv _ _ => exact absurd rfl hv
  | step hv hu _ ih =>
    cases hq with
    | src => exact absurd rfl hv
    | step _ hu' hq =>
      obtain rfl := Option.some_inj.mp (hu.symm.trans hu')
      rw [ih hq]

omit [LinearOrder V] in
/-- A node met has its own trace at the beginning. -/
theorem Traces.exists_of_mem {parent : V → Option V} {src v x : V} {p : List V}
    (h : Traces parent src v p) (hx : x ∈ p) : ∃ q, q <+: p ∧ Traces parent src x q := by
  induction h with
  | src =>
    obtain rfl := List.mem_singleton.mp hx
    exact ⟨_, List.prefix_rfl, .src⟩
  | step hv hu h ih =>
    rcases List.mem_append.mp hx with hx | hx
    · obtain ⟨q, hq, ht⟩ := ih hx
      exact ⟨q, hq.trans (List.prefix_append _ _), ht⟩
    · obtain rfl := List.mem_singleton.mp hx
      exact ⟨_, List.prefix_rfl, .step hv hu h⟩

omit [LinearOrder V] in
/-- A walk that goes back to the source meets no node twice: it would go on for ever. -/
theorem Traces.nodup {parent : V → Option V} {src v : V} {p : List V}
    (h : Traces parent src v p) : p.Nodup := by
  induction h with
  | src => exact List.nodup_singleton _
  | @step u v p hv hu h ih =>
    rw [List.nodup_append]
    refine ⟨ih, List.nodup_singleton _, ?_⟩
    rintro x hx y hy rfl
    obtain rfl := List.mem_singleton.mp hy
    obtain ⟨q, hq, ht⟩ := h.exists_of_mem hx
    have hlen := congrArg List.length (ht.unique (.step hv hu h))
    rw [List.length_append, List.length_singleton] at hlen
    have := hq.length_le
    omega

/-- The parents lead from a reached node to the source, over settled nodes. -/
theorem Explored.exists_trace (h : Explored adj top src s done) {v : V} (hv : s.dist v < top) :
    ∃ p, Traces s.parent src v p ∧
      Walk (fun u v w => u ∈ done ∧ ArcOf adj u v w) src p v (s.dist v) ∧ p.Nodup ∧
      ∀ x ∈ p, done.idxOf x ≤ done.idxOf v := by
  induction hn : done.idxOf v using Nat.strong_induction_on generalizing v with
  | _ n ih =>
    by_cases hsrc : v = src
    · subst hsrc
      refine ⟨[v], .src, ?_, by simp, by simp [hn]⟩
      rw [h.src_dist]
      exact .nil v
    · obtain ⟨u, w, hp, hu, harc, hd, hidx⟩ := h.parent v hsrc hv
      -- the trace of the parent stays among nodes settled before `v`
      obtain ⟨p, htrace, hwalk, hnodup, hbefore⟩ :=
        ih (done.idxOf u) (hn ▸ hidx) (h.reached u hu) rfl
      refine ⟨p ++ [v], .step hsrc hp htrace, ?_, ?_, ?_⟩
      · rw [hd]
        exact hwalk.snoc ⟨hu, harc⟩
      · rw [List.nodup_append]
        refine ⟨hnodup, by simp, ?_⟩
        rintro a ha b hb rfl
        rw [List.mem_singleton.mp hb] at ha
        have := hbefore v ha
        omega
      · intro x hx
        rcases List.mem_append.mp hx with hx | hx
        · have := hbefore x hx
          omega
        · rw [List.mem_singleton.mp hx, hn]

/-- No walk over nonnegative arcs reaches the next node to settle for less than its
label: a walk that leaves the settled nodes does so at a node that is no nearer. -/
theorem Explored.dist_le_walk (h : Explored adj top src s done) {u x : V}
    (hu : Least top s done u) {p : List V} {c : ℤ} (hwalk : Walk (Nonneg (ArcOf adj)) x p u c) :
    s.dist u ≤ s.dist x + c := by
  induction hwalk with
  | nil _ => omega
  | @cons x v _ p w c harc hrest ih =>
    have hw := harc.2
    have hc : 0 ≤ c := hrest.cost_nonneg fun _ _ _ ha => ha.2
    by_cases hx : x ∈ done
    · have hv : s.dist v ≤ s.dist x + w := h.relaxed x hx (v, w) harc.1
      have := ih hu
      omega
    · have := h.dist_le_of_least hu hx
      omega

/-- **Labels are distances.**  The label of the next node to settle is the least cost
of a walk from the source over nonnegative arcs. -/
theorem Explored.isDist_of_least (h : Explored adj top src s done)
    (hadj : ∀ u ∈ done, ∀ a ∈ adj u, 0 ≤ a.2) {u : V} (hu : Least top s done u) :
    IsDist (Nonneg (ArcOf adj)) src u (s.dist u) := by
  obtain ⟨p, _, hwalk, _⟩ := h.exists_trace hu.reached
  refine ⟨⟨p, hwalk.mono fun x v w harc => ⟨harc.2, hadj x harc.1 (v, w) harc.2⟩⟩, ?_⟩
  rintro c ⟨q, hq⟩
  have := h.dist_le_walk hu hq
  rw [h.src_dist] at this
  omega

/-- Labels bound every walk that leaves a settled node. -/
theorem Settled.walk_bound (h : Settled adj top src s done) (hex : Exhausted top s done)
    (htop : weight adj done < top) {u t : V} {p : List V} {c : ℤ} (hwalk : Walk (ArcOf adj) u p t c)
    (hu : u ∈ done) : t ∈ done ∧ s.dist t ≤ s.dist u + c := by
  induction hwalk with
  | nil u => exact ⟨hu, by omega⟩
  | @cons u v t p w c harc _ ih =>
    have hv : s.dist v ≤ s.dist u + w := h.relaxed u hu (v, w) harc
    have hbound : s.dist u + w ≤ weight adj done := h.arc_bound u hu (v, w) harc
    -- the label of `v` is below `top`, and nothing reached is left to settle
    have hvd : v ∈ done := by
      by_contra hc
      have := hex v hc
      omega
    obtain ⟨ht, hle⟩ := ih hvd
    exact ⟨ht, by omega⟩

/-- **The end.**  When nothing reached is unsettled, the parents of a node give
a shortest walk from the source, and a node with the label `top` has no walk. -/
theorem Settled.shortest_of_exhausted (h : Settled adj top src s done)
    (hex : Exhausted top s done) (hpos : 0 < top) (htop : weight adj done < top) (v : V) :
    (s.dist v < top → ∃ p, Traces s.parent src v p ∧ Shortest (ArcOf adj) src p v ∧ p.Nodup) ∧
      (s.dist v = top → ∀ p c, ¬ Walk (ArcOf adj) src p v c) := by
  have hsrc : src ∈ done := by
    by_contra hc
    have := hex src hc
    rw [h.src_dist] at this
    omega
  constructor
  · intro hv
    obtain ⟨p, htrace, hwalk, hnodup, _⟩ := h.explored.exists_trace hv
    refine ⟨p, htrace, ⟨s.dist v, hwalk.mono fun _ _ _ harc => harc.2, fun q d hq => ?_⟩, hnodup⟩
    have := (h.walk_bound hex htop hq hsrc).2
    rw [h.src_dist] at this
    omega
  · intro hv p c hwalk
    have := h.reached v (h.walk_bound hex htop hwalk hsrc).1
    omega

/-! ### Determinism -/

/-- A step of the method, on the labels and the settled nodes. -/
inductive Settle (adj : V → List (V × ℤ)) (top : ℤ) : Labels V × List V → Labels V × List V → Prop
  | mk {s : Labels V} {done : List V} {u : V} :
      Least top s done u → Settle adj top (s, done) (expand adj u s, done ++ [u])

theorem Least.unique {u v : V} (hu : Least top s done u) (hv : Least top s done v) : u = v := by
  have heq := le_antisymm (hu.least v hv.unsettled hv.reached) (hv.least u hu.unsettled hu.reached)
  exact congrArg (fun e => (ofLex e).2) heq

theorem settle_rightUnique : Relator.RightUnique (Settle adj top) := by
  rintro _ _ _ ⟨hu⟩ ⟨hv⟩
  rw [hu.unique hv]

theorem eq_of_exhausted {x : Labels V × List V} (hex : Exhausted top s done)
    (h : Relation.ReflTransGen (Settle adj top) (s, done) x) : x = (s, done) := by
  cases h using Relation.ReflTransGen.head_induction_on with
  | refl => rfl
  | head hstep _ =>
    cases hstep with
    | mk hu => exact absurd hu.reached (not_lt.mpr (hex _ hu.unsettled))

/-- Where the method ends depends on where it began. -/
theorem exhausted_unique {s' : Labels V} {done' : List V} {x : Labels V × List V}
    (h : Relation.ReflTransGen (Settle adj top) x (s, done)) (hex : Exhausted top s done)
    (h' : Relation.ReflTransGen (Settle adj top) x (s', done')) (hex' : Exhausted top s' done') :
    (s, done) = (s', done') := by
  rcases Relation.ReflTransGen.total_of_right_unique settle_rightUnique h h' with hend | hend
  · exact (eq_of_exhausted hex hend).symm
  · exact eq_of_exhausted hex' hend

/-- **Lightest arcs decide.**  A step is the same with any nonnegative arcs that have
the same lightest arcs to other nodes: their order does not matter, nor do heavier
ones beside them, nor loops. -/
theorem expand_congr {adj' : V → List (V × ℤ)} {u : V} (hadj : ∀ a ∈ adj u, 0 ≤ a.2)
    (hadj' : ∀ a ∈ adj' u, 0 ≤ a.2)
    (hsame : ∀ v, u ≠ v → ∀ w, Lightest (ArcOf adj) u v w ↔ Lightest (ArcOf adj') u v w)
    (s : Labels V) : expand adj u s = expand adj' u s := by
  -- what one list lowers the other lowers as far
  have hlower : ∀ {l l' : V → List (V × ℤ)}, (∀ a ∈ l u, 0 ≤ a.2) → (∀ a ∈ l' u, 0 ≤ a.2) →
      (∀ v, u ≠ v → ∀ w, Lightest (ArcOf l) u v w → Lightest (ArcOf l') u v w) →
      ∀ v w, (v, w) ∈ l u → s.dist u + w < s.dist v →
        (expand l' u s).dist v ≤ s.dist u + w := by
    intro l l' hl hl' hll v w hw hlt
    have hpos : 0 ≤ w := hl (v, w) hw
    have huv : u ≠ v := by
      rintro rfl
      omega
    obtain ⟨w₀, hw₀, hle⟩ := exists_lightest hl hw
    have htarget := foldl_relax_target_le (u := u) hl' s (hll v huv w₀ hw₀).1
    simp only at htarget
    rw [expand]
    omega
  have hl := hlower hadj hadj' fun v huv w => (hsame v huv w).mp
  have hl' := hlower hadj' hadj fun v huv w => (hsame v huv w).mpr
  have hboth : ∀ v, (expand adj u s).dist v = (expand adj' u s).dist v ∧
      (expand adj u s).parent v = (expand adj' u s).parent v := by
    intro v
    rcases foldl_relax_cases hadj s v with ⟨hd, hp⟩ | ⟨w, hw, hd, hlt, hp⟩
    · rcases foldl_relax_cases hadj' s v with ⟨hd', hp'⟩ | ⟨w', hw', _, hlt', _⟩
      · exact ⟨hd.trans hd'.symm, hp.trans hp'.symm⟩
      · have := hl' v w' hw' hlt'
        rw [expand, hd] at this
        omega
    · have hle := hl v w hw hlt
      rcases foldl_relax_cases hadj' s v with ⟨hd', _⟩ | ⟨w', hw', hd', hlt', hp'⟩
      · rw [expand, hd'] at hle
        omega
      · have hle' := hl' v w' hw' hlt'
        rw [expand] at hle hle' ⊢
        exact ⟨by rw [expand]; omega, hp.trans hp'.symm⟩
  have hdist : (expand adj u s).dist = (expand adj' u s).dist := funext fun v => (hboth v).1
  have hparent : (expand adj u s).parent = (expand adj' u s).parent := funext fun v => (hboth v).2
  exact congrArg₂ Labels.mk hdist hparent

end LabelSetting
