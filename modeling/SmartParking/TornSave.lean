/-
A save that is cut short.

`saveNodes` opens the file, which empties it, and writes the lines of the nodes in the
order of their ids.  If the program dies meanwhile, some beginning of the text is in
the file, and the next start reads it.

* `readRecord_cut` — a line cut before its last character holds no record;
* `getElem?_loadNodes_cut` — of a text cut anywhere, the loader has the nodes whose
  lines are whole but for a newline, as they were written, and no others;
* `torn_save` — so that after any history, a change of capacity whose save is cut, and
  a restart, the nodes are as saved, up to some id, from which on all are lost.
-/
import SmartParking.Durability
import SmartParking.Library.Lookahead

open StdMap TextStream Runs

namespace SmartParking

variable {D : Type} [StreamDouble D] {P : D → Prop} {f : D → D}

/-! ### A line cut short -/

/-- The fields of a line, each with what is left after it. -/
theorem nodeBody_fields (hP : ReadsAs P f) {n : Node D} (hn : n.Printable P) :
    ∃ s₁ s₂ s₃ s₄ : Text,
      extractInt (nodeBody n) = some (n.id, s₁) ∧ extractWord s₁ = some (n.name, s₂) ∧
        extractInt s₂ = some (n.capacity, s₃) ∧ StreamDouble.extract s₃ = some (f n.x, s₄) ∧
          StreamDouble.extract s₄ = some (f n.y, ' ' :: printInt (if n.ghost then 1 else 0)) := by
  have hbreak : ∀ s : Text, AtBreak (' ' :: s) := fun s => atBreak_cons (by decide)
  exact ⟨_, _, _, _, extractInt_printInt hn.id (hbreak _).not_digit,
    (extractWord_space (by decide)).trans (extractWord_word hn.name (hbreak _)),
    (extractInt_space (by decide)).trans (extractInt_printInt hn.capacity (hbreak _).not_digit),
    hP n.x hn.x _ (hbreak _), hP n.y hn.y _ (hbreak _)⟩

theorem readRecord_nodeBody (hP : ReadsAs P f) {n : Node D} (hn : n.Printable P) :
    readRecord (nodeBody n) = some ((n.mapCoords f).record, []) := by
  obtain ⟨_, _, _, _, h1, h2, h3, h4, h5⟩ := nodeBody_fields hP hn
  have hflag : extractInt (' ' :: printInt (if n.ghost then 1 else 0)) =
      some (if n.ghost then 1 else 0, []) :=
    (extractInt_space (by decide)).trans (extractInt_printInt_self n.isInt_ghost)
  simp only [readRecord, h1, h2, h3, h4, h5, hflag, Option.bind_eq_bind, Option.bind_some]
  rfl

omit [StreamDouble D] in
/-- The flag at the end of a line is one character. -/
theorem exists_printInt_ghost (n : Node D) :
    ∃ c, printInt (if n.ghost then 1 else 0) = [c] := by
  cases n.ghost with
  | false => exact ⟨'0', by decide⟩
  | true => exact ⟨'1', by decide⟩

/-- A record is read from the beginning of a line only if that is the whole line. -/
theorem readRecord_cut (hP : ReadsAs P f) (hl : Local (StreamDouble.extract (D := D)))
    {n : Node D} (hn : n.Printable P) {p q t : Text} (hpq : p ++ q = nodeBody n)
    {r : NodeRecord D} (h : readRecord p = some (r, t)) : q = [] := by
  simp only [readRecord, Option.bind_eq_bind, Option.bind_eq_some_iff, Option.some.injEq,
    Prod.mk.injEq, Prod.exists] at h
  obtain ⟨_, t₁, h1, _, t₂, h2, _, t₃, h3, _, t₄, h4, _, t₅, h5, _, _, h6, _⟩ := h
  obtain ⟨_, _, _, _, g1, g2, g3, g4, g5⟩ := nodeBody_fields hP hn
  -- every field but the last has left something, and is the field of the whole line
  have hdouble := StreamDouble.extract_consumes (D := D)
  obtain ⟨_, e1⟩ := local_extractInt.eq_of_some h1 (extractWord_consumes.ne_nil h2) hpq g1
  obtain ⟨_, e2⟩ := local_extractWord.eq_of_some h2 (extractInt_consumes.ne_nil h3) e1 g2
  obtain ⟨_, e3⟩ := local_extractInt.eq_of_some h3 (hdouble.ne_nil h4) e2 g3
  obtain ⟨_, e4⟩ := hl.eq_of_some h4 (hdouble.ne_nil h5) e3 g4
  obtain ⟨_, e5⟩ := hl.eq_of_some h5 (extractInt_consumes.ne_nil h6) e4 g5
  obtain ⟨c, hc⟩ := exists_printInt_ghost n
  rw [hc] at e5
  -- the flag has been read, hence it is there
  cases t₅ with
  | nil => simp [extractInt_consumes.read_nil] at h6
  | cons d t₅ =>
    rw [List.cons_append, List.cons_eq_cons] at e5
    obtain ⟨rfl, e5⟩ := e5
    cases t₅ with
    | nil =>
      rw [extractInt_space (by decide), extractInt_consumes.read_nil] at h6
      simp at h6
    | cons d t₅ =>
      rw [List.cons_append, List.cons_eq_cons, List.append_eq_nil_iff] at e5
      exact e5.2.2

/-! ### A text cut short -/

/-- A longer text is not at the beginning of a shorter one. -/
theorem not_prefix_of_length {s t : Text} (h : t.length < s.length) : ¬ s <+: t :=
  fun hc => absurd hc.length_le (not_le.mpr h)

/-- Of the beginning of a line the record is read if the line is whole, else nothing. -/
theorem nodeRecords_nodeBody_cut (hP : ReadsAs P f) (hl : Local (StreamDouble.extract (D := D)))
    {n : Node D} (hn : n.Printable P) {p q : Text} (hpq : p ++ q = nodeBody n) :
    nodeRecords p = if q = [] then [(n.mapCoords f).record] else [] := by
  by_cases hq : q = []
  · rw [hq, List.append_nil] at hpq
    rw [if_pos hq, nodeRecords, hpq, readAll_of_some readRecord_consumes
      (readRecord_nodeBody hP hn), readAll_of_none readRecord_consumes readRecord_consumes.read_nil]
  · have hnone : (readRecord p : Option (NodeRecord D × Text)) = none := by
      cases hread : (readRecord p : Option (NodeRecord D × Text)) with
      | none => rfl
      | some x => exact absurd (readRecord_cut hP hl hn hpq hread) hq
    rw [if_neg hq, nodeRecords, readAll_of_none readRecord_consumes hnone]

/-- Where the first line is not whole, a beginning of the text is one of that line. -/
theorem prefix_nodeBody {n : Node D} {p rest : Text}
    (hp : p <+: nodeLine n ++ rest) (h : ¬ nodeLine n <+: p) : p <+: nodeBody n := by
  have hp' := (List.prefix_or_prefix_of_prefix (List.prefix_append (nodeLine n) rest) hp)
    |>.resolve_left h
  rw [nodeLine_eq, List.prefix_concat_iff, ← nodeLine_eq] at hp'
  exact hp'.resolve_left fun hc => h (hc ▸ List.prefix_rfl)

/-- A text no longer than the first line has no later line in it. -/
theorem not_prefix_later {n n' : Node D} {ns pre post : List (Node D)} {p : Text}
    (hlen : p.length ≤ (nodeBody n).length) (h : n :: ns = pre ++ n' :: post) (hne : pre ≠ []) :
    ¬ pre.flatMap nodeLine ++ nodeBody n' <+: p := by
  obtain ⟨n₁, pre, rfl⟩ := List.exists_cons_of_ne_nil hne
  obtain ⟨rfl, _⟩ := List.cons_eq_cons.mp h
  refine not_prefix_of_length ?_
  rw [List.flatMap_cons, nodeLine_eq]
  simp only [List.length_append, List.length_singleton]
  omega

/-- Of the lines of a text cut short, those are read that are whole but for the newline. -/
theorem nodeRecords_cut (hP : ReadsAs P f) (hl : Local (StreamDouble.extract (D := D)))
    (ns : List (Node D)) (hns : ∀ n ∈ ns, n.Printable P) : ∀ {p : Text},
      p <+: ns.flatMap nodeLine →
      ∃ m, nodeRecords p = (ns.take m).map (fun n => (n.mapCoords f).record) ∧
        ∀ pre n post, ns = pre ++ n :: post →
          (pre.length < m ↔ pre.flatMap nodeLine ++ nodeBody n <+: p) := by
  induction ns with
  | nil =>
    intro p hp
    obtain rfl := List.prefix_nil.mp hp
    exact ⟨0, rfl, fun pre n post h => by simp at h⟩
  | cons n ns ih =>
    intro p hp
    have hn := hns n List.mem_cons_self
    rw [List.flatMap_cons] at hp
    by_cases hline : nodeLine n <+: p
    · -- the first line is there
      obtain ⟨p', rfl⟩ := hline
      obtain ⟨m, hrecords, hm⟩ := ih (fun m hm => hns m (List.mem_cons_of_mem _ hm))
        ((List.prefix_append_right_inj (nodeLine n)).mp hp)
      refine ⟨m + 1, ?_, fun pre n' post heq => ?_⟩
      · rw [nodeRecords, readAll_of_some readRecord_consumes (readRecord_nodeLine hP hn p'),
          readAll_congr readRecord_consumes (readRecord_newline p')]
        exact congrArg _ hrecords
      · cases pre with
        | nil =>
          obtain ⟨rfl, _⟩ := List.cons_eq_cons.mp heq
          rw [nodeLine_eq, List.append_assoc]
          simp
        | cons n₁ pre =>
          obtain ⟨rfl, htail⟩ := List.cons_eq_cons.mp heq
          rw [List.flatMap_cons, List.append_assoc, List.prefix_append_right_inj,
            ← hm pre n' post htail, List.length_cons]
          omega
    · -- the cut is in the first line, or before its newline
      obtain ⟨q, hq⟩ := prefix_nodeBody hp hline
      have hlen := congrArg List.length hq
      rw [List.length_append] at hlen
      refine ⟨if q = [] then 1 else 0, ?_, fun pre n' post heq => ?_⟩
      · rw [nodeRecords_nodeBody_cut hP hl hn hq]
        split <;> rfl
      · cases pre with
        | nil =>
          obtain ⟨rfl, _⟩ := List.cons_eq_cons.mp heq
          rw [List.flatMap_nil, List.nil_append, List.length_nil]
          by_cases hnil : q = []
          · rw [if_pos hnil, ← hq, hnil, List.append_nil]
            exact iff_of_true Nat.one_pos List.prefix_rfl
          · have hpos := List.length_pos_of_ne_nil hnil
            rw [if_neg hnil]
            exact iff_of_false (lt_irrefl 0) (not_prefix_of_length (by omega))
        | cons n₁ pre =>
          refine iff_of_false ?_ (not_prefix_later (by omega) heq (by simp))
          split <;> simp

/-! ### The nodes of a text cut short -/

/-- The text that `saveNodes` has written when the line of a node is whole but for its
newline. -/
def textUpTo (nodes : Map ℤ (Node D)) (k : ℤ) (n : Node D) : Text :=
  ((nodes.toList.takeWhile fun q => q.1 < k).flatMap fun q => nodeLine q.2) ++ nodeBody n

omit [StreamDouble D] in
/-- The nodes before a given one are those of a smaller key. -/
theorem takeWhile_toList {nodes : Map ℤ (Node D)} {pre post : List (ℤ × Node D)} {k : ℤ}
    {n : Node D} (h : nodes.toList = pre ++ (k, n) :: post) :
    (nodes.toList.takeWhile fun q => q.1 < k) = pre ∧ (∀ q ∈ pre, q.1 < k) ∧
      ∀ q ∈ post, k < q.1 := by
  have hordered := Std.ExtTreeMap.ordered_keys_toList (t := nodes)
  rw [h, List.pairwise_append, List.pairwise_cons] at hordered
  obtain ⟨_, ⟨hpost, _⟩, hpre⟩ := hordered
  have hlt : ∀ q ∈ pre, q.1 < k := fun q hq =>
    compare_lt_iff_lt.mp (hpre q hq (k, n) List.mem_cons_self)
  refine ⟨?_, hlt, fun q hq => compare_lt_iff_lt.mp (hpost q hq)⟩
  rw [h, List.takeWhile_append_of_pos fun q hq => by simpa using hlt q hq,
    List.takeWhile_cons_of_neg (by simp), List.append_nil]

section taken
variable {nodes : Map ℤ (Node D)} {p : Text} {m : ℕ}

/-- The lines read are those of the first nodes. -/
def ReadsFirst (f : D → D) (nodes : Map ℤ (Node D)) (p : Text) (m : ℕ) : Prop :=
  nodeRecords p = (nodes.toList.take m).map fun q => (q.2.mapCoords f).record

theorem ReadsFirst.distinctIds (h : ReadsFirst f nodes p m)
    (hid : ∀ q ∈ nodes.toList, q.2.id = q.1) : DistinctIds D p := by
  have hrecords : nodeRecords p = _ := h
  have hkeys : (nodes.toList.take m).map
      (NodeRecord.id ∘ fun q => (q.2.mapCoords f).record) =
      (nodes.toList.take m).map Prod.fst :=
    List.map_congr_left fun q hq => hid q (List.mem_of_mem_take hq)
  rw [DistinctIds, hrecords, List.map_map, hkeys]
  refine ((List.take_sublist m _).map Prod.fst).nodup ?_
  rw [Std.ExtTreeMap.map_fst_toList_eq_keys]
  exact Std.ExtTreeMap.nodup_keys

/-- A node that is loaded is one of the first. -/
theorem ReadsFirst.exists_mem (h : ReadsFirst f nodes p m)
    (hid : ∀ q ∈ nodes.toList, q.2.id = q.1) {k : ℤ} {n : Node D}
    (hn : (loadNodes p).1[k]? = some n) : ∃ n₀, (k, n₀) ∈ nodes.toList.take m := by
  have hrecords : nodeRecords p = _ := h
  obtain ⟨r, hr, hk, rfl⟩ := exists_record hn
  rw [hrecords] at hr
  obtain ⟨q, hq, rfl⟩ := List.mem_map.mp hr
  have hkey : q.1 = k := (hid q (List.mem_of_mem_take hq)).symm.trans hk
  exact ⟨q.2, hkey ▸ hq⟩

/-- The first nodes are loaded as they were written. -/
theorem ReadsFirst.getElem? (h : ReadsFirst f nodes p m)
    (hid : ∀ q ∈ nodes.toList, q.2.id = q.1) {k : ℤ} {n : Node D}
    (hn : (k, n) ∈ nodes.toList.take m) : (loadNodes p).1[k]? = some (n.mapCoords f) := by
  have hrecords : nodeRecords p = _ := h
  have hr : (n.mapCoords f).record ∈ (nodeRecords p : List (NodeRecord D)) := by
    rw [hrecords]
    exact List.mem_map_of_mem hn
  have hget := getElem?_loadNodes (h.distinctIds hid) hr
  have hk : (n.mapCoords f).record.id = k := hid _ (List.mem_of_mem_take hn)
  rwa [hk, Node.node_record] at hget

end taken

/-- **The nodes of a saved text cut short** are those whose line has been written, but
for its newline; each is as it was written. -/
theorem getElem?_loadNodes_cut (hP : ReadsAs P f) (hl : Local (StreamDouble.extract (D := D)))
    {nodes : Map ℤ (Node D)}
    (hnodes : ∀ (k : ℤ) (n : Node D), nodes[k]? = some n → n.id = k ∧ n.Printable P) {p : Text}
    (hp : p <+: nodesText nodes) :
    DistinctIds D p ∧ ∀ k : ℤ, (loadNodes p).1[k]? =
      nodes[k]?.bind fun n => if textUpTo nodes k n <+: p then some (n.mapCoords f) else none := by
  have hmem : ∀ q ∈ nodes.toList, q.2.id = q.1 ∧ q.2.Printable P := fun q hq =>
    hnodes q.1 q.2 (Std.ExtTreeMap.mem_toList_iff_getElem?_eq_some.mp hq)
  have hid : ∀ q ∈ nodes.toList, q.2.id = q.1 := fun q hq => (hmem q hq).1
  have hprintable : ∀ n ∈ nodes.toList.map Prod.snd, n.Printable P := by
    intro n hn
    obtain ⟨q, hq, rfl⟩ := List.mem_map.mp hn
    exact (hmem q hq).2
  rw [nodesText, ← List.flatMap_map] at hp
  obtain ⟨m, hrecords, hm⟩ := nodeRecords_cut hP hl _ hprintable hp
  rw [← List.map_take, List.map_map] at hrecords
  have hfirst : ReadsFirst f nodes p m := hrecords
  refine ⟨hfirst.distinctIds hid, fun k => ?_⟩
  -- what is not among the first nodes is not loaded
  have hnone : (∀ n₀, (k, n₀) ∉ nodes.toList.take m) → (loadNodes (D := D) p).1[k]? = none := by
    intro hno
    cases hload : (loadNodes (D := D) p).1[k]? with
    | none => rfl
    | some n =>
      obtain ⟨n₀, hn₀⟩ := hfirst.exists_mem hid hload
      exact absurd hn₀ (hno n₀)
  cases hk : nodes[k]? with
  | none =>
    refine hnone fun n₀ hn₀ => ?_
    have hk' := Std.ExtTreeMap.mem_toList_iff_getElem?_eq_some.mp (List.mem_of_mem_take hn₀)
    rw [hk] at hk'
    exact absurd hk' (by simp)
  | some n =>
    obtain ⟨pre, post, hlist⟩ :=
      List.append_of_mem (Std.ExtTreeMap.mem_toList_iff_getElem?_eq_some.mpr hk)
    obtain ⟨htake, hlt, _⟩ := takeWhile_toList hlist
    have hiff := hm (pre.map Prod.snd) n (post.map Prod.snd) (by rw [hlist]; simp)
    rw [List.length_map, List.flatMap_map] at hiff
    rw [Option.bind_some, textUpTo, htake]
    by_cases hsurvives : pre.length < m
    · rw [if_pos (hiff.mp hsurvives)]
      refine hfirst.getElem? hid ?_
      rw [hlist, List.mem_take_iff_getElem]
      exact ⟨pre.length, by simp [hsurvives], by simp⟩
    · rw [if_neg fun hc => hsurvives (hiff.mpr hc)]
      -- it would stand before itself
      refine hnone fun n₀ hn₀ => ?_
      rw [hlist, List.take_append_of_le_length (not_lt.mp hsurvives)] at hn₀
      exact absurd (hlt _ (List.mem_of_mem_take hn₀)) (lt_irrefl k)

/-- The line of a node is written after those of all smaller keys. -/
theorem textUpTo_of_lt {nodes : Map ℤ (Node D)} {k k' : ℤ} {n n' : Node D} (hlt : k' < k)
    (hk : nodes[k]? = some n) (hk' : nodes[k']? = some n') :
    textUpTo nodes k' n' <+: textUpTo nodes k n := by
  obtain ⟨pre, post, hlist⟩ :=
    List.append_of_mem (Std.ExtTreeMap.mem_toList_iff_getElem?_eq_some.mpr hk)
  obtain ⟨htake, _, hpost⟩ := takeWhile_toList hlist
  have hin := Std.ExtTreeMap.mem_toList_iff_getElem?_eq_some.mpr hk'
  rw [hlist, List.mem_append, List.mem_cons] at hin
  rcases hin with hin | hin | hin
  · obtain ⟨pre₁, pre₂, rfl⟩ := List.append_of_mem hin
    rw [List.append_assoc, List.cons_append] at hlist
    rw [textUpTo, textUpTo, htake, (takeWhile_toList hlist).1, List.flatMap_append,
      List.flatMap_cons, nodeLine_eq, List.append_assoc, List.append_assoc,
      List.prefix_append_right_inj, List.append_assoc]
    exact List.prefix_append _ _
  · exact absurd (Prod.mk.inj hin).1 hlt.ne
  · exact absurd (hpost _ hin) (not_lt.mpr hlt.le)

/-! ### A crash in the middle of a save -/

section crash
variable {file adjacencyList transport p : Text} {acts : List (Act D)} {sys : SmartParking D}

/-- **A crash in the middle of a save.**  After any history a change of capacity is
accepted, and a beginning of the new file is written.  The program then starts with
the nodes whose lines are there, each with the capacity last set. -/
theorem torn_save (hP : PrintsOnce P f) (hl : Local (StreamDouble.extract (D := D)))
    (hcoords : CoordsMeet P file)
    (h : Run (Does adjacencyList transport) (start file adjacencyList transport) acts sys)
    (hk : Steps (Does adjacencyList transport) (start file adjacencyList transport) acts
      fun _ s a => ActDraws s a) {r : UpdateRequest} {id cap : ℤ}
    (hu : updateEnter sys r = .inr (id, cap)) (hp : p <+: (sys.updateCapacity id cap).nodesList) :
    let nodes := (sys.updateCapacity id cap).nodes
    let after := acts ++ [.serve (.update r, .update (.success id cap))]
    (∀ k : ℤ, (start p adjacencyList transport).nodes[k]? = nodes[k]?.bind fun n =>
        if textUpTo nodes k n <+: p then
          (loadNodes file).1[k]?.map (Node.after f true (lastCapacity? after k))
        else none) ∧
      (∀ k k', k' < k → k ∈ (start (D := D) p adjacencyList transport).nodes → k' ∈ nodes →
        k' ∈ (start (D := D) p adjacencyList transport).nodes) ∧
      SlotShape (start (D := D) p adjacencyList transport) := by
  intro nodes after
  have hr : Remembers f file adjacencyList transport after (sys.updateCapacity id cap) :=
    (remembers_of_history hP hcoords h hk).update hP hcoords hu
  rw [nodesList_of_update (served_of_updateEnter hu)] at hp
  obtain ⟨hd, hcut⟩ := getElem?_loadNodes_cut hP.readsAs hl (hr.printable hP hcoords) hp
  refine ⟨fun k => ?_, fun k k' hlt hk hk' => ?_, slotShape_start hd _ _⟩
  · show (loadNodes (D := D) p).1[k]? = _
    rw [hcut]
    refine Option.bind_congr fun m hm => ?_
    replace hm : nodes[k]? = some m := hm
    have hnode := hr.nodes k
    rw [hm] at hnode
    obtain ⟨n₀, hn₀, rfl⟩ := Option.map_eq_some_iff.mp hnode.symm
    rw [hn₀, Option.map_some, mapCoords_after_loaded hP hcoords hn₀]
  · obtain ⟨m, hm⟩ := (mem_iff_getElem? _ _).mp hk
    obtain ⟨n', hn'⟩ := (mem_iff_getElem? _ _).mp hk'
    replace hm : (loadNodes (D := D) p).1[k]? = some m := hm
    rw [hcut, Option.bind_eq_some_iff] at hm
    obtain ⟨n₁, hn₁, hif⟩ := hm
    have hprefix : textUpTo nodes k n₁ <+: p := by
      by_contra hc
      rw [if_neg hc] at hif
      exact absurd hif (by simp)
    have hget : (loadNodes (D := D) p).1[k']? = some (n'.mapCoords f) := by
      rw [hcut, hn', Option.bind_some, if_pos ((textUpTo_of_lt hlt hn₁ hn').trans hprefix)]
    exact mem_of_getElem? hget

end crash

/-- Two places. -/
def twoFile : Text := "1 A 2 78.0322 30.3255 0\n2 B 3 78.031 30.322 0\n".toList

/-- A is given five places, and the file is cut in a coordinate of B: B is lost. -/
theorem torn_save_two :
    let s : SmartParking Decimal := start "1 A 5 78.0322 30.3255 0\n2 B 3 78.0".toList [] []
    s.nodes[(1 : ℤ)]?.map (fun n => (n.capacity, n.x)) =
        some (5, Decimal.ofScaled 780322 (-4)) ∧
      s.nodes[(2 : ℤ)]? = none ∧ SlotShape s := by
  intro s
  have hu : updateEnter (start (D := Decimal) twoFile [] []) (resizeA ['5']) = .inr (1, 5) := by
    decide +kernel
  have hp : "1 A 5 78.0322 30.3255 0\n2 B 3 78.0".toList <+:
      ((start (D := Decimal) twoFile [] []).updateCapacity 1 5).nodesList := by decide +kernel
  have hdraws : Steps (Does [] []) (start (D := Decimal) twoFile [] []) []
      fun _ s a => ActDraws s a := fun pre a _ hpre => by simp at hpre
  obtain ⟨hnodes, _, hshape⟩ := torn_save printsOnce_round Decimal.local_extract
    (fun _ _ => ⟨trivial, trivial⟩) .nil hdraws hu hp
  refine ⟨?_, ?_, hshape⟩
  · rw [hnodes]
    decide +kernel
  · rw [hnodes]
    decide +kernel

end SmartParking
