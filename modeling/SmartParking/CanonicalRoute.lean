/-
The route found depends on the network, not on how the road file lists it.

The search settles nodes in the order of their distances, ties going to the lower
id, and a node keeps the first parent that gives it its distance.  Both depend on
the lightest of parallel roads only, so that two files which agree in these
(`SameNetwork`) lead to the same labels (`search_ends`) and to one route
(`dijkstra_congr`), although the queue holds different entries on the way.
-/
import SmartParking.ShortestRoutes

open StdMap TextStream Walks LabelSetting Relation

namespace SmartParking

variable {D : Type} {nodes : Map ℤ (Node D)} {lines lines' : List (ℤ × ℤ × ℤ)}

/-- Between any two places the files have the same lightest road, or none. -/
def SameNetwork (nodes : Map ℤ (Node D)) (lines lines' : List (ℤ × ℤ × ℤ)) : Prop :=
  ∀ u v, isPlace nodes u = true → isPlace nodes v = true → u ≠ v → ∀ w,
    Lightest (Road nodes lines) u v w ↔ Lightest (Road nodes lines') u v w

/-- Every line between two places has a line between them in the other file that is no
heavier. -/
def Matched (nodes : Map ℤ (Node D)) (lines lines' : List (ℤ × ℤ × ℤ)) : Prop :=
  ∀ e ∈ lines, isPlace nodes e.1 = true → isPlace nodes e.2.1 = true → e.1 ≠ e.2.1 →
    ∃ e' ∈ lines', e'.2.2 ≤ e.2.2 ∧
      (e'.1 = e.1 ∧ e'.2.1 = e.2.1 ∨ e'.1 = e.2.1 ∧ e'.2.1 = e.1)

instance (nodes : Map ℤ (Node D)) (lines lines' : List (ℤ × ℤ × ℤ)) :
    Decidable (Matched nodes lines lines') :=
  inferInstanceAs (Decidable (∀ e ∈ lines, isPlace nodes e.1 = true → isPlace nodes e.2.1 = true →
    e.1 ≠ e.2.1 → ∃ e' ∈ lines', e'.2.2 ≤ e.2.2 ∧
      (e'.1 = e.1 ∧ e'.2.1 = e.2.1 ∨ e'.1 = e.2.1 ∧ e'.2.1 = e.1)))

theorem Matched.exists_road (h : Matched nodes lines lines') {u v w : ℤ} (huv : u ≠ v)
    (hroad : Road nodes lines u v w) : ∃ w', Road nodes lines' u v w' ∧ w' ≤ w := by
  obtain ⟨hu, hv, hmem⟩ := hroad
  rcases hmem with hmem | hmem
  · obtain ⟨⟨a, b, w'⟩, hmem', hle, hends⟩ := h _ hmem hu hv huv
    rcases hends with ⟨rfl, rfl⟩ | ⟨rfl, rfl⟩
    · exact ⟨w', ⟨hu, hv, .inl hmem'⟩, hle⟩
    · exact ⟨w', ⟨hu, hv, .inr hmem'⟩, hle⟩
  · obtain ⟨⟨a, b, w'⟩, hmem', hle, hends⟩ := h _ hmem hv hu huv.symm
    rcases hends with ⟨rfl, rfl⟩ | ⟨rfl, rfl⟩
    · exact ⟨w', ⟨hu, hv, .inr hmem'⟩, hle⟩
    · exact ⟨w', ⟨hu, hv, .inl hmem'⟩, hle⟩

/-- Files whose lines match each other have the same network. -/
theorem sameNetwork_of_matched (h : Matched nodes lines lines') (h' : Matched nodes lines' lines) :
    SameNetwork nodes lines lines' := by
  have hhalf : ∀ {l l' : List (ℤ × ℤ × ℤ)}, Matched nodes l l' → Matched nodes l' l →
      ∀ {u v w : ℤ}, u ≠ v → Lightest (Road nodes l) u v w → Lightest (Road nodes l') u v w := by
    intro l l' hl hl' u v w huv hw
    have hbelow : ∀ w₁, Road nodes l' u v w₁ → w ≤ w₁ := by
      intro w₁ hw₁
      obtain ⟨w₂, hw₂, hle⟩ := hl'.exists_road huv hw₁
      exact (hw.2 hw₂).trans hle
    obtain ⟨w', hw', hle⟩ := hl.exists_road huv hw.1
    obtain rfl : w' = w := le_antisymm hle (hbelow w' hw')
    exact ⟨hw', hbelow⟩
  exact fun u v _ _ huv w => ⟨hhalf h h' huv, hhalf h' h huv⟩

/-- On files with the same network each step of the search does the same. -/
theorem settle_congr (h : LightLines lines) (h' : LightLines lines')
    (hsame : SameNetwork nodes lines lines') :
    Settle (roads nodes (roadOf lines)) intMax = Settle (roads nodes (roadOf lines')) intMax := by
  have hexpand : expand (roads nodes (roadOf lines)) = expand (roads nodes (roadOf lines')) := by
    funext u s
    refine expand_congr (roads_nonneg (light_roadOf h) u) (roads_nonneg (light_roadOf h') u) ?_ s
    intro v huv w
    rw [arcOf_roads_roadOf, arcOf_roads_roadOf]
    by_cases hplaces : isPlace nodes u = true ∧ isPlace nodes v = true
    · exact hsame u v hplaces.1 hplaces.2 huv w
    · -- neither file has a road here
      exact ⟨fun hw => absurd ⟨hw.1.1, hw.1.2.1⟩ hplaces,
        fun hw => absurd ⟨hw.1.1, hw.1.2.1⟩ hplaces⟩
  funext x y
  refine propext ⟨?_, ?_⟩
  · rintro ⟨hu⟩
    rw [hexpand]
    exact .mk hu
  · rintro ⟨hu⟩
    rw [← hexpand]
    exact .mk hu

/-- The queue loop ends with labels that the steps of the method lead to. -/
theorem search_ends (h : LightLines lines) {src : ℤ} (hsrc : isPlace nodes src = true) :
    ∃ s l done, searchLoop nodes (roadOf lines) (searchFuel nodes) (initSearch nodes src) = .ok s ∧
      Sim nodes s l done ∧ Explored (roads nodes (roadOf lines)) intMax src l done ∧
      ReflTransGen (Settle (roads nodes (roadOf lines)) intMax) (initial src intMax, []) (l, done) ∧
      Exhausted intMax l done := by
  have hg := light_roadOf h
  obtain ⟨s, l, done, hloop, hsim, ⟨hset, hsteps⟩, hex⟩ := searchLoop_ends hsrc
    (I := fun l done => Settled (roads nodes (roadOf lines)) intMax src l done ∧
      ReflTransGen (Settle (roads nodes (roadOf lines)) intMax) (initial src intMax, []) (l, done))
    (fun _ _ hI => hI.1.explored) (fun _ _ _ hI hu => hg.fits hI.1 hu)
    (fun _ _ _ hI hu => ⟨settled_step (roads_nonneg hg) hI.1 hu, hI.2.tail (.mk hu)⟩)
    ⟨settled_initial (by simp [intMax]), .refl⟩
  exact ⟨s, l, done, hloop, hsim, hset.explored, hsteps, hex⟩

/-- **The route is canonical.**  On two road files with the same network the search
returns the identical path. -/
theorem dijkstra_congr (h : LightLines lines) (h' : LightLines lines')
    (hsame : SameNetwork nodes lines lines') (src dest : ℤ) :
    dijkstra nodes src dest (roadOf lines) = dijkstra nodes src dest (roadOf lines') := by
  by_cases hplaces : isPlace nodes src = true ∧ isPlace nodes dest = true
  · obtain ⟨hsrc, hdest⟩ := hplaces
    obtain ⟨s, l, done, hloop, hsim, hset, hsteps, hex⟩ := search_ends h hsrc
    obtain ⟨s', l', done', hloop', hsim', _, hsteps', hex'⟩ := search_ends h' hsrc
    -- both searches end with the labels that the one method ends with
    rw [← settle_congr h h' hsame] at hsteps'
    obtain ⟨rfl, rfl⟩ := Prod.mk.inj (exhausted_unique hsteps hex hsteps' hex')
    rcases (hset.le_top dest).eq_or_lt with htop | hlt
    · rw [dijkstra_of_searchLoop hsrc hdest hloop hsim, if_pos htop,
        dijkstra_of_searchLoop hsrc hdest hloop' hsim', if_pos htop]
    · obtain ⟨p, htrace, _, hnodup, _⟩ := hset.exists_trace hlt
      rw [dijkstra_of_traces hsrc hdest hloop hsim hlt htrace hnodup,
        dijkstra_of_traces hsrc hdest hloop' hsim' hlt htrace hnodup]
  · rw [dijkstra_of_not_places hplaces, dijkstra_of_not_places hplaces]

/-- The same roads in another order, with ends swapped, a heavier duplicate and a loop,
and without those to the ghost. -/
def relistedLines : List (ℤ × ℤ × ℤ) :=
  [(3, 1, 9), (2, 3, 7), (2, 2, 1), (3, 2, 0), (1, 2, 3), (7, 2, 0)]

theorem dijkstra_congr_village :
    dijkstra villageNodes 1 3 (roadOf relistedLines) = .ok [1, 2, 3] ∧
      dijkstra villageNodes 1 3 (roadOf relistedLines) =
        dijkstra villageNodes 1 3 (roadOf villageLines) := by
  have hlight : LightLines relistedLines := ⟨by decide, by decide⟩
  have hsame : SameNetwork villageNodes relistedLines villageLines :=
    sameNetwork_of_matched (by decide) (by decide)
  exact ⟨by decide +kernel, dijkstra_congr hlight lightLines_villageLines hsame 1 3⟩

end SmartParking
