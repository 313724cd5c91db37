/-
The coordinates of the nodes over a change of capacity.

`loadNodes` reads a coordinate of any length; `saveNodes`, which every change of
a capacity calls, writes all coordinates of all nodes at the default precision of a
stream.  With exact decimals for the `double`s:

* `readsBack_fewDigits`, `printsNumbers_decimal`, `readsWords_decimal` — such a stream
  meets what is assumed of one in the modules on the node table and on its lines;
* `getElem?_reload` — reading the file again gives every node as it is in memory,
  with its coordinates rounded to six significant digits;
* `coordsKept_iff` — the coordinates of the file survive a change of capacity
  exactly when none of them has more.
-/
import SmartParking.Library.Decimal
import SmartParking.NodeLines

open StdMap TextStream Runs

namespace SmartParking

/-- The precision of a stream that no one has set. -/
def defaultPrecision : ℕ := 6

instance decimalDouble : StreamDouble Decimal where
  extract := Decimal.extract
  print := Decimal.print defaultPrecision
  extract_consumes := Decimal.extract_consumes

/-- A coordinate printed is read as what it was rounded to. -/
theorem readsAs_round : ReadsAs (fun _ : Decimal => True) (Decimal.round defaultPrecision) := by
  intro d _ rest hrest
  show Decimal.extract (' ' :: (Decimal.print defaultPrecision d ++ rest)) = _
  rw [Decimal.extract_space (by decide), Decimal.extract_print d hrest]

/-- One of at most six significant digits is read as it was. -/
theorem readsBack_fewDigits : ReadsBack (Decimal.HasDigits defaultPrecision) := by
  intro d hd rest hrest
  rw [readsAs_round d trivial rest hrest, (Decimal.round_eq_self_iff (by decide)).mpr hd]

theorem printsNumbers_decimal : PrintsNumbers Decimal := by
  intro d _
  have hread := Decimal.extract_print (p := defaultPrecision) d atBreak_nil
  rw [List.append_nil] at hread
  exact ⟨Decimal.isWord_print _ d, _, hread⟩

theorem readsWords_decimal : ReadsWords (StreamDouble.extract (D := Decimal)) :=
  Decimal.readsWords_extract

section reload
variable {nodesList adjacencyList transport : Text} {s' : SmartParking Decimal}
  {r : UpdateRequest} {id cap : ℤ}

theorem framed_of_update
    (h : Served handle (start (D := Decimal) nodesList adjacencyList transport)
      (.update r, .update (.success id cap)) s') : Framed (loadNodes nodesList).1 s'.nodes :=
  (framed_step (framed_start nodesList adjacencyList transport) h).mpr fun _ hr => by simp at hr

/-- The nodes of the rewritten file. -/
theorem getElem?_reload
    (h : Served handle (start (D := Decimal) nodesList adjacencyList transport)
      (.update r, .update (.success id cap)) s') (k : ℤ) :
    (loadNodes s'.nodesList).1[k]? =
      s'.nodes[k]?.map (Node.mapCoords (Decimal.round defaultPrecision)) := by
  have hcaps := intCapacities_of_run (Run.snoc .nil h)
  rw [nodesList_of_update h]
  exact getElem?_loadNodes_nodesText readsAs_round
    ((framed_of_update h).printable hcaps fun _ _ => ⟨trivial, trivial⟩) k

/-- Every node of the first file is in the second, with the same coordinates. -/
def CoordsKept (file file' : Text) : Prop :=
  ∀ (k : ℤ) (n : Node Decimal), (loadNodes file).1[k]? = some n →
    ∃ n' : Node Decimal, (loadNodes file').1[k]? = some n' ∧ n'.x = n.x ∧ n'.y = n.y

/-- No node of the file has a coordinate of more significant digits than are printed. -/
def FewDigits (file : Text) : Prop :=
  ∀ (k : ℤ) (n : Node Decimal), (loadNodes file).1[k]? = some n →
    n.x.HasDigits defaultPrecision ∧ n.y.HasDigits defaultPrecision

/-- **Coordinates survive** a successful update exactly when all of them have at most six
significant digits. -/
theorem coordsKept_iff
    (h : Served handle (start (D := Decimal) nodesList adjacencyList transport)
      (.update r, .update (.success id cap)) s') :
    CoordsKept nodesList s'.nodesList ↔ FewDigits nodesList := by
  have hpos : 0 < defaultPrecision := by decide
  have hframed := framed_of_update h
  -- a loaded node is in memory with its coordinates, and is read again with them rounded
  have hreload : ∀ (k : ℤ) (n : Node Decimal), (loadNodes nodesList).1[k]? = some n →
      ∃ n' : Node Decimal, (loadNodes s'.nodesList).1[k]? = some n' ∧
        n'.x = n.x.round defaultPrecision ∧ n'.y = n.y.round defaultPrecision := by
    intro k n hn
    obtain ⟨m, hm⟩ := (mem_iff_getElem? _ _).mp ((hframed.keys k).mpr (mem_of_getElem? hn))
    obtain ⟨n₀, hn₀, heq⟩ := hframed.fields k m hm
    obtain rfl : n = n₀ := by rwa [hn, Option.some_inj] at hn₀
    refine ⟨_, by rw [getElem?_reload h, hm, Option.map_some], ?_, ?_⟩
    · rw [heq]
      rfl
    · rw [heq]
      rfl
  refine forall_congr' fun k => forall_congr' fun n => forall_congr' fun hn => ?_
  obtain ⟨n', hn', hx, hy⟩ := hreload k n hn
  rw [← Decimal.round_eq_self_iff hpos, ← Decimal.round_eq_self_iff hpos]
  constructor
  · rintro ⟨n'', hn'', hx', hy'⟩
    obtain rfl : n' = n'' := by rwa [hn', Option.some_inj] at hn''
    exact ⟨hx.symm.trans hx', hy.symm.trans hy'⟩
  · rintro ⟨hx', hy'⟩
    exact ⟨n', hn', hx.trans hx', hy.trans hy'⟩

end reload

/-- Coordinates of one to six digits, in both formats. -/
def gridFile : Text := "1 A 5 30.5 -78.25 0\n2 B 0 1e-7 123456000 0\n".toList

theorem coordsKept_iff_grid : ∃ s',
    Served handle (start (D := Decimal) gridFile [] [])
      (.update (resizeA ['6']), .update (.success 1 6)) s' ∧
      CoordsKept gridFile s'.nodesList := by
  have hstep : Served handle (start (D := Decimal) gridFile [] [])
      (.update (resizeA ['6']), .update (.success 1 6))
      ((start (D := Decimal) gridFile [] []).updateCapacity 1 6) :=
    served_of_updateEnter (by decide +kernel)
  refine ⟨_, hstep, (coordsKept_iff hstep).mpr fun k n hn => ?_⟩
  obtain ⟨r, hr, _, rfl⟩ := exists_record hn
  have hall : ∀ r ∈ (nodeRecords gridFile : List (NodeRecord Decimal)),
      r.x.HasDigits defaultPrecision ∧ r.y.HasDigits defaultPrecision := by decide +kernel
  exact hall r hr

/-- A coordinate of nine digits. -/
def surveyFile : Text := "1 A 5 30.3244567 78 0\n".toList

/-- Changing a capacity cuts it to six. -/
theorem update_cuts_coordinate : ∃ s',
    Served handle (start (D := Decimal) surveyFile [] [])
      (.update (resizeA ['6']), .update (.success 1 6)) s' ∧
      s'.nodesList = "1 A 6 30.3245 78 0\n".toList ∧ ¬ CoordsKept surveyFile s'.nodesList := by
  have hstep : Served handle (start (D := Decimal) surveyFile [] [])
      (.update (resizeA ['6']), .update (.success 1 6))
      ((start (D := Decimal) surveyFile [] []).updateCapacity 1 6) :=
    served_of_updateEnter (by decide +kernel)
  have hfile : ((start (D := Decimal) surveyFile [] []).updateCapacity 1 6).nodesList =
      "1 A 6 30.3245 78 0\n".toList := by decide +kernel
  refine ⟨_, hstep, hfile, fun hkept => ?_⟩
  rw [hfile] at hkept
  have hloaded : ((loadNodes surveyFile).1[(1 : ℤ)]?).map Node.x =
      some (Decimal.ofScaled 303244567 (-7)) := by decide +kernel
  obtain ⟨n, hn, hx⟩ := Option.map_eq_some_iff.mp hloaded
  obtain ⟨n', hn', hx', _⟩ := hkept 1 n hn
  have hreloaded : ((loadNodes "1 A 6 30.3245 78 0\n".toList).1[(1 : ℤ)]?).map Node.x =
      some (Decimal.ofScaled 303245 (-4)) := by decide +kernel
  rw [hn', Option.map_some, hx', hx, Option.some_inj] at hreloaded
  exact absurd hreloaded (by decide +kernel)

end SmartParking
