/-
Drawing a route backwards.

`addPath` enters the ghosts of a pair under both directions, one the reverse of
the other, and `buildVisualRoute` puts the last node after the ghosts of the last
pair.  A table built by calls of `addPath` stays its own mirror image
(`mirrored_addPaths`), and on such a table the expansion of the reversed route is
the reversed expansion (`buildVisualRoute_reverse`).
-/
import SmartParking.Server

open StdMap TextStream

namespace SmartParking

/-- The table after the given calls of `addPath`. -/
def addPaths (calls : List (ℤ × ℤ × List ℤ)) : VisualPaths :=
  calls.foldl (fun visualPaths t => addPath visualPaths t.1 t.2.1 t.2.2) ∅

theorem buildVisualPaths_eq : buildVisualPaths = addPaths visualTable := rfl

/-- The ghosts of a pair are those of the pair turned round, in reverse. -/
def Mirrored (visualPaths : VisualPaths) : Prop :=
  ∀ a b, visualPaths.getD (toLex (b, a)) [] = (visualPaths.getD (toLex (a, b)) []).reverse

theorem mirrored_empty : Mirrored ∅ := by
  intro a b
  simp only [Std.ExtTreeMap.getD_empty, List.reverse_nil]

theorem getD_addPath (visualPaths : VisualPaths) (a b : ℤ) (ghosts : List ℤ) (c d : ℤ) :
    (addPath visualPaths a b ghosts).getD (toLex (c, d)) [] =
      if c = b ∧ d = a then ghosts.reverse
      else if c = a ∧ d = b then ghosts else visualPaths.getD (toLex (c, d)) [] := by
  rw [addPath, getD_insert_eq, getD_insert_eq]
  simp only [toLex_inj, Prod.mk.injEq]

/-- A call for two different nodes keeps the table its own mirror image. -/
theorem Mirrored.addPath {visualPaths : VisualPaths} (h : Mirrored visualPaths) {a b : ℤ}
    (hab : a ≠ b) (ghosts : List ℤ) : Mirrored (SmartParking.addPath visualPaths a b ghosts) := by
  intro c d
  rw [getD_addPath, getD_addPath]
  by_cases hfor : c = a ∧ d = b
  · obtain ⟨rfl, rfl⟩ := hfor
    rw [if_pos ⟨rfl, rfl⟩, if_neg fun hc => hab hc.1, if_pos ⟨rfl, rfl⟩]
  · by_cases hback : c = b ∧ d = a
    · obtain ⟨rfl, rfl⟩ := hback
      rw [if_neg fun hc => hab hc.1, if_pos ⟨rfl, rfl⟩, if_pos ⟨rfl, rfl⟩, List.reverse_reverse]
    · rw [if_neg fun hc => hfor hc.symm, if_neg fun hc => hback hc.symm, if_neg hback,
        if_neg hfor]
      exact h c d

theorem mirrored_addPaths {calls : List (ℤ × ℤ × List ℤ)} (h : ∀ t ∈ calls, t.1 ≠ t.2.1) :
    Mirrored (addPaths calls) := by
  induction calls using List.reverseRecOn with
  | nil => exact mirrored_empty
  | append_singleton calls t ih =>
    have hcalls : Mirrored (addPaths calls) := ih fun t' ht' => h t' (List.mem_append_left _ ht')
    rw [addPaths, List.foldl_append]
    exact hcalls.addPath (h t (by simp)) t.2.2

/-- One more node at the end: the ghosts that lead to it, and then the node. -/
theorem buildVisualRoute_snoc (visualPaths : VisualPaths) (path : List ℤ) (a b : ℤ) :
    buildVisualRoute visualPaths (path ++ [a, b]) =
      buildVisualRoute visualPaths (path ++ [a]) ++
        (visualPaths.getD (toLex (a, b)) [] ++ [b]) := by
  induction path with
  | nil => simp [buildVisualRoute]
  | cons c path ih =>
    cases path with
    | nil => simp [buildVisualRoute]
    | cons d path =>
      simp only [List.cons_append] at ih ⊢
      rw [buildVisualRoute, ih, buildVisualRoute]
      simp only [List.cons_append, List.append_assoc]

theorem Mirrored.buildVisualRoute_reverse {visualPaths : VisualPaths} (h : Mirrored visualPaths)
    (path : List ℤ) : buildVisualRoute visualPaths path.reverse =
      (buildVisualRoute visualPaths path).reverse := by
  -- the first node of the route becomes the last one
  fun_induction buildVisualRoute visualPaths path with
  | case1 => rfl
  | case2 a => rfl
  | case3 a b rest ih =>
    have hrev : (a :: b :: rest).reverse = rest.reverse ++ [b, a] := by simp
    rw [hrev, buildVisualRoute_snoc, ← List.reverse_cons, ih, h a b]
    simp

/-- **Backwards and forwards.**  On every table that calls of `addPath` for two
different nodes build, drawing a route backwards mirrors drawing it forwards. -/
theorem visualRoute_reverse {calls : List (ℤ × ℤ × List ℤ)} (h : ∀ t ∈ calls, t.1 ≠ t.2.1)
    (path : List ℤ) : buildVisualRoute (addPaths calls) path.reverse =
      (buildVisualRoute (addPaths calls) path).reverse :=
  (mirrored_addPaths h).buildVisualRoute_reverse path

theorem visualRoute_reverse_three :
    buildVisualRoute (addPaths visualTable) [0, 3, 6] = [0, 1, 2, 3, 4, 5, 6] ∧
      buildVisualRoute (addPaths visualTable) [6, 3, 0] = [6, 5, 4, 3, 2, 1, 0] := by
  have hforward : buildVisualRoute (addPaths visualTable) [0, 3, 6] = [0, 1, 2, 3, 4, 5, 6] := by
    decide
  refine ⟨hforward, ?_⟩
  have hback := @visualRoute_reverse visualTable (by decide) [0, 3, 6]
  rw [hforward] at hback
  exact hback

end SmartParking
