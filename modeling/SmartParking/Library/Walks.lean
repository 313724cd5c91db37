/-
Walks in a weighted directed graph, and shortest ones.

The graph is a relation `arc u v w`, "there is an arc from `u` to `v` of weight
`w`"; parallel arcs are several weights for one pair.  `Walk arc u p t c` says
that `p` lists the nodes of a walk from `u` to `t` whose arcs weigh `c` in
total, so a list of nodes may have several costs and `Shortest` takes the least.

* `Walk.append`, `Walk.split` — composing and cutting walks;
* `Walk.lightest` — a lightest walk steps along the lightest of parallel arcs;
* `Shortest.take`, `Shortest.drop` — prefixes and suffixes of a shortest walk
  are shortest;
* `Shortest.dist_antitone` — along a shortest walk with nonnegative weights the
  distance to its end does not increase.
-/
import Mathlib

namespace Walks

variable {V : Type}

inductive Walk (arc : V → V → ℤ → Prop) : V → List V → V → ℤ → Prop
  | nil (u : V) : Walk arc u [u] u 0
  | cons {u v t : V} {p : List V} {w c : ℤ} :
      arc u v w → Walk arc v p t c → Walk arc u (u :: p) t (w + c)

/-- `p` is a walk from `u` to `t` and no walk from `u` to `t` is lighter. -/
def Shortest (arc : V → V → ℤ → Prop) (u : V) (p : List V) (t : V) : Prop :=
  ∃ c, Walk arc u p t c ∧ ∀ q d, Walk arc u q t d → c ≤ d

/-- `c` is the least cost of a walk from `u` to `t`. -/
def IsDist (arc : V → V → ℤ → Prop) (u t : V) (c : ℤ) : Prop :=
  IsLeast {d | ∃ p, Walk arc u p t d} c

/-- The arcs that are not negative. -/
def Nonneg (arc : V → V → ℤ → Prop) (u v : V) (w : ℤ) : Prop := arc u v w ∧ 0 ≤ w

/-- The lightest of parallel arcs. -/
def Lightest (arc : V → V → ℤ → Prop) (u v : V) (w : ℤ) : Prop := IsLeast {w | arc u v w} w

variable {arc : V → V → ℤ → Prop}

/-- A walk in another graph that has the arcs leaving its nodes. -/
theorem Walk.mono_of_mem {arc' : V → V → ℤ → Prop} {u t : V} {p : List V} {c : ℤ}
    (h : Walk arc u p t c) (harc : ∀ u v w, u ∈ p → arc u v w → arc' u v w) :
    Walk arc' u p t c := by
  induction h with
  | nil u => exact .nil u
  | cons hw _ ih =>
    exact .cons (harc _ _ _ List.mem_cons_self hw)
      (ih fun x y w hx => harc x y w (List.mem_cons_of_mem _ hx))

theorem Walk.mono {arc' : V → V → ℤ → Prop} {u t : V} {p : List V} {c : ℤ}
    (h : Walk arc u p t c) (harc : ∀ u v w, arc u v w → arc' u v w) : Walk arc' u p t c :=
  h.mono_of_mem fun u v w _ => harc u v w

theorem Walk.exists_cons {u t : V} {p : List V} {c : ℤ} (h : Walk arc u p t c) :
    ∃ q, p = u :: q := by
  cases h with
  | nil => exact ⟨[], rfl⟩
  | cons _ _ => exact ⟨_, rfl⟩

theorem Walk.getLast?_eq {u t : V} {p : List V} {c : ℤ} (h : Walk arc u p t c) :
    p.getLast? = some t := by
  induction h with
  | nil u => rfl
  | cons _ h ih =>
    obtain ⟨q, rfl⟩ := h.exists_cons
    rw [List.getLast?_cons_cons]
    exact ih

theorem Walk.append {u v t : V} {p q : List V} {c d : ℤ} (h : Walk arc u p v c)
    (h' : Walk arc v (v :: q) t d) : Walk arc u (p ++ q) t (c + d) := by
  induction h with
  | nil u => simpa using h'
  | cons harc _ ih =>
    rw [List.cons_append, add_assoc]
    exact .cons harc (ih h')

theorem Walk.snoc {u v t : V} {p : List V} {c w : ℤ} (h : Walk arc u p v c) (harc : arc v t w) :
    Walk arc u (p ++ [t]) t (c + w) := by
  have h' : Walk arc v [v, t] t (w + 0) := .cons harc (.nil t)
  rw [add_zero] at h'
  exact h.append h'

/-- A walk is cut at any node it visits. -/
theorem Walk.split {u x t : V} {pre post : List V} {c : ℤ}
    (h : Walk arc u (pre ++ x :: post) t c) :
    ∃ c₁ c₂, Walk arc u (pre ++ [x]) x c₁ ∧ Walk arc x (x :: post) t c₂ ∧ c = c₁ + c₂ := by
  induction pre generalizing u c with
  | nil =>
    obtain ⟨q, hq⟩ := h.exists_cons
    obtain ⟨rfl, rfl⟩ := List.cons.inj hq
    exact ⟨0, c, .nil x, h, (zero_add c).symm⟩
  | cons y pre ih =>
    rw [List.cons_append] at h
    generalize hp : pre ++ x :: post = p at h
    cases h with
    | nil => simp at hp
    | @cons _ v _ _ w c' harc hrest =>
      subst hp
      -- the first arc belongs to the first half
      obtain ⟨c₁, c₂, h₁, h₂, rfl⟩ := ih hrest
      exact ⟨w + c₁, c₂, .cons harc h₁, h₂, (add_assoc w c₁ c₂).symm⟩

theorem Walk.cost_nonneg (hnonneg : ∀ u v w, arc u v w → 0 ≤ w) {u t : V} {p : List V} {c : ℤ}
    (h : Walk arc u p t c) : 0 ≤ c := by
  induction h with
  | nil u => exact le_rfl
  | cons harc _ ih => exact add_nonneg (hnonneg _ _ _ harc) ih

theorem Shortest.take {u x t : V} {pre post : List V}
    (h : Shortest arc u (pre ++ x :: post) t) : Shortest arc u (pre ++ [x]) x := by
  obtain ⟨c, hwalk, hleast⟩ := h
  obtain ⟨c₁, c₂, h₁, h₂, rfl⟩ := hwalk.split
  -- a lighter way to `x` would make the whole walk lighter
  refine ⟨c₁, h₁, fun q d hq => ?_⟩
  have := hleast _ _ (hq.append h₂)
  omega

theorem Shortest.drop {u x t : V} {pre post : List V}
    (h : Shortest arc u (pre ++ x :: post) t) : Shortest arc x (x :: post) t := by
  obtain ⟨c, hwalk, hleast⟩ := h
  obtain ⟨c₁, c₂, h₁, h₂, rfl⟩ := hwalk.split
  refine ⟨c₂, h₂, fun q d hq => ?_⟩
  obtain ⟨r, rfl⟩ := hq.exists_cons
  have := hleast _ _ (h₁.append hq)
  omega

/-- A lightest walk steps along lightest arcs. -/
theorem Walk.lightest {u t : V} {p : List V} {c : ℤ} (h : Walk arc u p t c)
    (hleast : ∀ q d, Walk arc u q t d → c ≤ d) : Walk (Lightest arc) u p t c := by
  induction h with
  | nil u => exact .nil u
  | cons harc hrest ih =>
    refine .cons ⟨harc, fun w' hw' => ?_⟩ (ih fun q d hq => ?_)
    · have := hleast _ _ (.cons hw' hrest)
      omega
    · have := hleast _ _ (.cons harc hq)
      omega

theorem Shortest.exists_isDist {u t : V} {p : List V} (h : Shortest arc u p t) :
    ∃ c, IsDist arc u t c := by
  obtain ⟨c, hwalk, hleast⟩ := h
  refine ⟨c, ⟨p, hwalk⟩, ?_⟩
  rintro d ⟨q, hq⟩
  exact hleast q d hq

/-- A node further along a shortest walk is not farther from its end. -/
theorem Shortest.dist_antitone (hnonneg : ∀ u v w, arc u v w → 0 ≤ w) {u x y t : V}
    {pre mid post : List V} (h : Shortest arc u (pre ++ x :: (mid ++ y :: post)) t) {c d : ℤ}
    (hx : IsDist arc x t c) (hy : IsDist arc y t d) : d ≤ c := by
  obtain ⟨e, hwalk, hleast⟩ := h.drop
  obtain ⟨p, hp⟩ := hx.1
  have hec : e ≤ c := hleast p c hp
  rw [← List.cons_append] at hwalk
  obtain ⟨c₁, c₂, h₁, h₂, rfl⟩ := hwalk.split
  -- the walk from `x` costs its part up to `y` more than the one from `y`
  have hpos := h₁.cost_nonneg hnonneg
  have hdc : d ≤ c₂ := hy.2 ⟨_, h₂⟩
  omega

end Walks
