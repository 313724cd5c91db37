/-
What a capacity change does to the lines of the nodes file.

`loadNodes` reads fields, not lines, and stops without a word at the first one it
cannot read; `updateCapacity` writes the whole file anew from the nodes it has.  A
line that holds a record (`lineRecord?`) is lost by that when the loader has not come
to it, or has read its fields as part of another record.

* `RecordField` — what the loader gets through at a time: typed fields, one after
  another, in which a line end is a blank like any other;
* `tracked_of_run` — in every state the nodes are those of the last records read,
  but for the capacities updated, and empty nodes made by drawing;
* `mem_textLines_nodesText` — the lines that `saveNodes` writes;
* `keepsLines_iff` — after a run and a capacity change every line with an id of its
  own still has its record exactly when typed fields, six by six, lead from the
  beginning of the text to the record, and none of them after it has the id again;
* `keepsLines_of_inStep` — for which it is enough that the text before each such line
  consists of such fields, so that the loader comes to the line in step.
-/
import SmartParking.Library.Fields
import SmartParking.NodeTable

open StdMap TextStream Runs

namespace SmartParking

variable {D : Type}

/-! ### Records on a line -/

/-- The same node, with the same capacity unless that has been updated. -/
structure SameNode (updated : List ℤ) (r r' : NodeRecord D) : Prop where
  id : r'.id = r.id
  name : r'.name = r.name
  ghost : r'.node.ghost = r.node.ghost
  cap : r.id ∉ updated → r'.cap = r.cap

theorem SameNode.trans {updated : List ℤ} {r r' r'' : NodeRecord D} (h : SameNode updated r r')
    (h' : SameNode updated r' r'') : SameNode updated r r'' where
  id := h'.id.trans h.id
  name := h'.name.trans h.name
  ghost := h'.ghost.trans h.ghost
  cap hk := (h'.cap (h.id ▸ hk)).trans (h.cap hk)

theorem SameNode.symm {updated : List ℤ} {r r' : NodeRecord D} (h : SameNode updated r r') :
    SameNode updated r' r where
  id := h.id.symm
  name := h.name.symm
  ghost := h.ghost.symm
  cap hk := (h.cap (h.id ▸ hk)).symm

section lines
variable [StreamDouble D]

/-- The record of a line that has six fields of the right kinds and a flag of 0 or 1. -/
def lineRecord? (l : Text) : Option (NodeRecord D) :=
  match words l with
  | [id, name, cap, x, y, ghost] => do
    let id ← whole extractInt id
    let cap ← whole extractInt cap
    let x ← whole StreamDouble.extract x
    let y ← whole StreamDouble.extract y
    let ghost ← whole extractInt ghost
    if ghost = 0 ∨ ghost = 1 then
      some { id := id, name := name, cap := cap, x := x, y := y, ghost := ghost }
    else none
  | _ => none

/-- The first field of the line is the id. -/
def startsWithId (id : ℤ) (l : Text) : Bool := (extractInt l).map Prod.fst = some id

/-- One line of the file starts with the id. -/
def OwnId (file : Text) (id : ℤ) : Prop := (textLines file).countP (startsWithId id) = 1

instance (file : Text) (id : ℤ) : Decidable (OwnId file id) :=
  inferInstanceAs (Decidable ((textLines file).countP (startsWithId id) = 1))

/-- Every line of the first file that holds a record under an id of its own has its
record on a line of the second. -/
def KeepsLines (D : Type) [StreamDouble D] (file file' : Text) (updated : List ℤ) : Prop :=
  ∀ l ∈ textLines file, ∀ r : NodeRecord D, lineRecord? l = some r → OwnId file r.id →
    ∃ l' ∈ textLines file', ∃ r', lineRecord? l' = some r' ∧ SameNode updated r r'

/-! ### What the loader gets through -/

/-- The text goes on with six fields: an `int`, a word, an `int`, two numbers and an
`int`. -/
def RecordField (s : Text) (r : NodeRecord D) (t : Text) : Prop :=
  ∃ s₁ s₂ s₃ s₄ s₅, IntField s r.id s₁ ∧ WordField s₁ r.name s₂ ∧ IntField s₂ r.cap s₃ ∧
    StreamDouble.extract s₃ = some (r.x, s₄) ∧ StreamDouble.extract s₄ = some (r.y, s₅) ∧
    IntField s₅ r.ghost t

/-- Typed fields, six by six, lead from the beginning of the text to a record of the same
node, and from there on to no other record of its id. -/
def LeadsTo (file : Text) (updated : List ℤ) (r : NodeRecord D) : Prop :=
  ∃ (earlier : List (NodeRecord D)) (s : Text) (r' : NodeRecord D) (t : Text),
    Series RecordField file earlier s ∧ RecordField s r' t ∧ SameNode updated r r' ∧
      ∀ (later : List (NodeRecord D)) (u : Text), Series RecordField t later u →
        ∀ q ∈ later, q.id ≠ r.id

/-- They do so for every line that holds a record under an id of its own. -/
def LeadsToLines (D : Type) [StreamDouble D] (file : Text) (updated : List ℤ) : Prop :=
  ∀ l ∈ textLines file, ∀ r : NodeRecord D, lineRecord? l = some r → OwnId file r.id →
    LeadsTo file updated r

/-- The loader comes to the line in step: typed fields, six by six, and then blanks are
all that is before it, and those after it lead to no other record of the id. -/
def LineInStep (D : Type) [StreamDouble D] (file l : Text) (id : ℤ) : Prop :=
  ∃ (earlier : List (NodeRecord D)) (blanks rest : Text),
    Series RecordField file earlier (blanks ++ (l ++ rest)) ∧ Blank blanks ∧ AtBreak rest ∧
      ∀ (later : List (NodeRecord D)) (u : Text), Series RecordField rest later u →
        ∀ q ∈ later, q.id ≠ id

theorem readRecord_iff (s : Text) (r : NodeRecord D) (t : Text) :
    readRecord s = some (r, t) ↔ RecordField s r t := by
  simp only [readRecord, Option.bind_eq_bind, Option.bind_eq_some_iff, Option.some.injEq,
    Prod.mk.injEq, Prod.exists]
  constructor
  · rintro ⟨id, s₁, h1, name, s₂, h2, cap, s₃, h3, x, s₄, h4, y, s₅, h5, ghost, _, h6, rfl, rfl⟩
    exact ⟨s₁, s₂, s₃, s₄, s₅, extractInt_iff.mp h1, extractWord_iff.mp h2, extractInt_iff.mp h3,
      h4, h5, extractInt_iff.mp h6⟩
  · rintro ⟨s₁, s₂, s₃, s₄, s₅, h1, h2, h3, h4, h5, h6⟩
    exact ⟨r.id, s₁, extractInt_iff.mpr h1, r.name, s₂, extractWord_iff.mpr h2, r.cap, s₃,
      extractInt_iff.mpr h3, r.x, s₄, h4, r.y, s₅, h5, r.ghost, t, extractInt_iff.mpr h6, rfl, rfl⟩

/-- The last record that is read under an id, found in the text. -/
theorem lastRecord?_iff {file : Text} {id : ℤ} {r : NodeRecord D} :
    lastRecord? file id = some r ↔
      ∃ (earlier : List (NodeRecord D)) (s t : Text),
        Series RecordField file earlier s ∧ RecordField s r t ∧ r.id = id ∧
          ∀ (later : List (NodeRecord D)) (u : Text), Series RecordField t later u →
            ∀ q ∈ later, q.id ≠ id := by
  rw [lastRecord?, nodeRecords, getLast?_filter_readAll readRecord_consumes readRecord_iff]
  simp only [decide_eq_true_eq, decide_eq_false_iff_not, ne_eq]

theorem leadsTo_iff {file : Text} {updated : List ℤ} {r : NodeRecord D} :
    LeadsTo file updated r ↔ ∃ r', lastRecord? file r.id = some r' ∧ SameNode updated r r' := by
  constructor
  · rintro ⟨rs, s, r', t, hseries, hfield, hsame, hlater⟩
    exact ⟨r', lastRecord?_iff.mpr ⟨rs, s, t, hseries, hfield, hsame.id, hlater⟩, hsame⟩
  · rintro ⟨r', hlast, hsame⟩
    obtain ⟨rs, s, t, hseries, hfield, _, hlater⟩ := lastRecord?_iff.mp hlast
    exact ⟨rs, s, r', t, hseries, hfield, hsame, hlater⟩

theorem readRecord_blank {blanks : Text} (h : Blank blanks) (s : Text) :
    (readRecord (blanks ++ s) : Option (NodeRecord D × Text)) = readRecord s := by
  rw [readRecord, readsWords_extractInt.read_blank h]
  rfl

/-- A line that holds a record is read as this record, up to blanks at its end. -/
theorem readRecord_line (hwords : ReadsWords (StreamDouble.extract (D := D))) {l rest : Text}
    {r : NodeRecord D} (h : lineRecord? l = some r) (hrest : AtBreak rest) :
    ∃ blanks, Blank blanks ∧ readRecord (l ++ rest) = some (r, blanks ++ rest) := by
  rw [lineRecord?] at h
  split at h
  · rename_i id name cap x y ghost hl
    simp only [Option.bind_eq_bind, Option.bind_eq_some_iff] at h
    obtain ⟨id', hid, cap', hcap, x', hx, y', hy, ghost', hghost, h⟩ := h
    obtain ⟨s₁, f1, hs₁⟩ := words_eq_cons hl
    obtain ⟨s₂, f2, hs₂⟩ := words_eq_cons hs₁
    obtain ⟨s₃, f3, hs₃⟩ := words_eq_cons hs₂
    obtain ⟨s₄, f4, hs₄⟩ := words_eq_cons hs₃
    obtain ⟨s₅, f5, hs₅⟩ := words_eq_cons hs₄
    obtain ⟨s₆, f6, hs₆⟩ := words_eq_cons hs₅
    have hint := readsWords_extractInt
    split at h
    · rw [Option.some_inj] at h
      refine ⟨s₆, blank_of_words hs₆, ?_⟩
      simp only [readRecord, hint.read_eq (f1.append hrest) hid,
        extractWord_iff.mpr (f2.append hrest), hint.read_eq (f3.append hrest) hcap,
        hwords.read_eq (f4.append hrest) hx, hwords.read_eq (f5.append hrest) hy,
        hint.read_eq (f6.append hrest) hghost, Option.bind_eq_bind, Option.bind_some, h]
    · exact absurd h (by simp)
  · exact absurd h (by simp)

theorem leadsTo_of_inStep (hwords : ReadsWords (StreamDouble.extract (D := D)))
    {file l : Text} {r : NodeRecord D} (hline : lineRecord? l = some r)
    (h : LineInStep D file l r.id) (updated : List ℤ) : LeadsTo file updated r := by
  obtain ⟨earlier, blanks, rest, hseries, hblank, hrest, hlater⟩ := h
  obtain ⟨blanks', hblank', hread⟩ := readRecord_line hwords hline hrest
  refine ⟨earlier, _, r, blanks' ++ rest, hseries, ?_, ⟨rfl, rfl, rfl, fun _ => rfl⟩,
    fun later u hseries' => ?_⟩
  · rw [← readRecord_iff, readRecord_blank hblank]
    exact hread
  · cases hseries' with
    | nil => simp
    | cons head tail =>
      -- the blanks at the end of the line make no difference
      rw [← readRecord_iff, readRecord_blank hblank', readRecord_iff] at head
      exact hlater _ u (.cons head tail)

/-! ### The nodes in memory -/

/-- The id of a capacity change. -/
def updatedId? : Event D → Option ℤ
  | (_, .update (.success id _)) => some id
  | _ => none

/-- The ids whose capacity has been changed. -/
def updatedIds (es : List (Event D)) : List ℤ := es.filterMap updatedId?

/-- A node is as loaded but for a capacity that has been updated, or is one that
drawing has made. -/
def TrackedNode (loaded : Map ℤ (Node D)) (updated : List ℤ) (k : ℤ) (n : Node D) : Prop :=
  (∃ n₀ : Node D, loaded[k]? = some n₀ ∧ n = { n₀ with capacity := n.capacity } ∧
    (k ∉ updated → n.capacity = n₀.capacity)) ∨
  (k ∉ loaded ∧ n = { (default : Node D) with capacity := n.capacity })

/-- Every node is tracked, and no loaded node is missing. -/
structure Tracked (loaded nodes : Map ℤ (Node D)) (updated : List ℤ) : Prop where
  node : ∀ (k : ℤ) (n : Node D), nodes[k]? = some n → TrackedNode loaded updated k n
  kept : ∀ k, k ∈ loaded → k ∈ nodes

theorem TrackedNode.mono {loaded : Map ℤ (Node D)} {updated updated' : List ℤ} {k : ℤ} {n : Node D}
    (h : TrackedNode loaded updated k n) (hsub : updated ⊆ updated') :
    TrackedNode loaded updated' k n :=
  h.imp_left fun ⟨n₀, hn₀, heq, hcap⟩ => ⟨n₀, hn₀, heq, fun hk => hcap fun hc => hk (hsub hc)⟩

/-- Updating the capacity of a node. -/
theorem TrackedNode.update {loaded : Map ℤ (Node D)} {updated updated' : List ℤ} {k cap : ℤ}
    {n : Node D} (h : TrackedNode loaded updated k n) (hk : k ∈ updated') :
    TrackedNode loaded updated' k { n with capacity := cap } := by
  rcases h with ⟨n₀, hn₀, heq, _⟩ | ⟨hnew, heq⟩
  · exact .inl ⟨n₀, hn₀, by rw [heq], fun hc => absurd hk hc⟩
  · exact .inr ⟨hnew, by rw [heq]⟩

theorem tracked_loaded (loaded : Map ℤ (Node D)) : Tracked loaded loaded [] :=
  ⟨fun _ n hn => .inl ⟨n, hn, rfl, fun _ => rfl⟩, fun _ hk => hk⟩

theorem Tracked.effect {loaded : Map ℤ (Node D)} {sys sys' : SmartParking D}
    {es : List (Event D)} {e : Event D} (ht : Tracked loaded sys.nodes (updatedIds es))
    (h : Effect sys e sys') : Tracked loaded sys'.nodes (updatedIds (es ++ [e])) := by
  have hids : updatedIds (es ++ [e]) = updatedIds es ++ (updatedId? e).toList := by
    rw [updatedIds, List.filterMap_append, updatedIds]
    cases he : updatedId? e <;> simp [he]
  have hsub : updatedIds es ⊆ updatedIds (es ++ [e]) := by
    rw [hids]
    exact List.subset_append_left _ _
  refine ⟨fun k n hn => ?_, fun k hk => ?_⟩
  · cases h with
    | nothing _ _ _ => exact (ht.node k n hn).mono hsub
    | grant hg =>
      rcases hg.node_cases hn with hn | ⟨hk, rfl⟩
      · exact (ht.node k n hn).mono hsub
      · exact .inr ⟨fun hc => hk (ht.kept k hc), rfl⟩
    | @update r id cap n' _ hn' _ _ _ =>
      rw [getElem?_nodes_updateCapacity hn'] at hn
      split at hn
      · rename_i hid
        rw [Option.some_inj] at hn
        rw [hid, ← hn]
        refine (ht.node id n' hn').update ?_
        rw [hids]
        exact List.mem_append_right _ (by simp [updatedId?])
      · exact (ht.node k n hn).mono hsub
  · obtain ⟨n, hn⟩ := (mem_iff_getElem? _ _).mp (ht.kept k hk)
    obtain ⟨cap, hn'⟩ := h.node_kept hn
    exact mem_of_getElem? hn'

theorem tracked_of_run {nodesList adjacencyList transport : Text} {es : List (Event D)}
    {sys : SmartParking D}
    (h : Run (Served handle) (start nodesList adjacencyList transport) es sys) :
    Tracked (loadNodes nodesList).1 sys.nodes (updatedIds es) :=
  h.invariant (I := fun es s => Tracked (loadNodes nodesList).1 s.nodes (updatedIds es))
    (tracked_loaded _) fun _ _ _ _ _ ht hstep => ht.effect (effect_of_served hstep)

/-! ### The lines written -/

/-- A number that a stream can deliver. -/
def Extracted (d : D) : Prop := ∃ s t, StreamDouble.extract s = some (d, t)

/-- What is assumed of the stream for `double`s: 0 and every number read is printed as
one word, which is read as a number. -/
def PrintsNumbers (D : Type) [StreamDouble D] : Prop :=
  ∀ d : D, d = 0 ∨ Extracted d →
    IsWord (StreamDouble.print d) ∧
      ∃ d' : D, StreamDouble.extract (StreamDouble.print d) = some (d', [])

theorem nodeRecords_numbers {file : Text} {r : NodeRecord D} (h : r ∈ nodeRecords file) :
    Extracted r.x ∧ Extracted r.y := by
  obtain ⟨_, _, hread⟩ := exists_read_of_mem_readAll readRecord_consumes h
  simp only [readRecord, Option.bind_eq_bind, Option.bind_eq_some_iff, Option.some.injEq,
    Prod.mk.injEq, Prod.exists] at hread
  obtain ⟨_, _, _, _, _, _, _, _, _, _, _, hx, _, _, hy, _, _, _, rfl, _⟩ := hread
  exact ⟨⟨_, _, hx⟩, ⟨_, _, hy⟩⟩

/-- The line of a node, without its newline. -/
def nodeBody (n : Node D) : Text :=
  printInt n.id ++ ' ' :: (n.name ++ ' ' :: (printInt n.capacity ++ ' ' ::
    (StreamDouble.print n.x ++ ' ' :: (StreamDouble.print n.y ++ ' ' ::
      printInt (if n.ghost then 1 else 0)))))

theorem nodeLine_eq (n : Node D) : nodeLine n = nodeBody n ++ ['\n'] := by
  simp [nodeLine, nodeBody]

/-- A node whose line can be written: loaded, with an `int` for its capacity, or made by
drawing. -/
structure Node.Writable (n : Node D) : Prop where
  name : IsWord n.name ∨ n.name = []
  x : n.x = 0 ∨ Extracted n.x
  y : n.y = 0 ∨ Extracted n.y

/-- The words of a node's line: an empty name leaves none. -/
theorem words_nodeBody (hprint : PrintsNumbers D) {n : Node D} (hn : n.Writable) :
    words (nodeBody n) = printInt n.id :: (words n.name ++ [printInt n.capacity,
      StreamDouble.print n.x, StreamDouble.print n.y, printInt (if n.ghost then 1 else 0)]) := by
  have hblank : isSpace ' ' = true := by decide
  simp only [nodeBody, words_append_cons hblank, words_word (isWord_printInt _),
    words_word (hprint n.x hn.x).1, words_word (hprint n.y hn.y).1, List.cons_append,
    List.nil_append]

theorem newline_not_mem_nodeBody (hprint : PrintsNumbers D) {n : Node D} (hn : n.Writable) :
    '\n' ∉ nodeBody n := by
  have hword : ∀ {w : Text}, IsWord w → '\n' ∉ w := fun hw hc => by
    have := hw.2 _ hc
    exact absurd this (by decide)
  have hname : '\n' ∉ n.name := by
    rcases hn.name with hw | hnil
    · exact hword hw
    · simp [hnil]
  have hblank : ¬ '\n' = ' ' := by decide
  simp only [nodeBody, List.mem_append, List.mem_cons, hblank, false_or, not_or]
  exact ⟨hword (isWord_printInt _), hname, hword (isWord_printInt _),
    hword (hprint n.x hn.x).1, hword (hprint n.y hn.y).1, hword (isWord_printInt _)⟩

/-- The line of a loaded node holds its record, but for the coordinates as printed. -/
theorem lineRecord?_nodeBody (hprint : PrintsNumbers D) {n : Node D} (hn : n.Writable)
    (hid : IsInt n.id) (hname : IsWord n.name) (hcap : IsInt n.capacity) :
    ∃ r : NodeRecord D, lineRecord? (nodeBody n) = some r ∧ r.id = n.id ∧ r.name = n.name ∧
      r.cap = n.capacity ∧ r.node.ghost = n.ghost := by
  obtain ⟨_, x, hx⟩ := hprint n.x hn.x
  obtain ⟨_, y, hy⟩ := hprint n.y hn.y
  have hint : ∀ {i : ℤ}, IsInt i → whole extractInt (printInt i) = some i := fun hi =>
    whole_eq_some.mpr (extractInt_printInt_self hi)
  have hflag : (if n.ghost = true then (1 : ℤ) else 0) = 0 ∨
      (if n.ghost = true then (1 : ℤ) else 0) = 1 := by
    cases n.ghost <;> simp
  refine ⟨{ id := n.id, name := n.name, cap := n.capacity, x := x, y := y,
            ghost := if n.ghost then 1 else 0 }, ?_, rfl, rfl, rfl, ?_⟩
  · rw [lineRecord?, words_nodeBody hprint hn, words_word hname]
    simp only [List.singleton_append, hint hid, hint hcap, hint n.isInt_ghost, whole_eq_some.mpr hx,
      whole_eq_some.mpr hy, Option.bind_eq_bind, Option.bind_some, if_pos hflag]
  · cases n.ghost <;> simp [NodeRecord.node]

/-- The line of a node without a name holds five words, and no record. -/
theorem lineRecord?_nodeBody_nil (hprint : PrintsNumbers D) {n : Node D} (hn : n.Writable)
    (hname : n.name = []) : (lineRecord? (nodeBody n) : Option (NodeRecord D)) = none := by
  rw [lineRecord?, words_nodeBody hprint hn, hname]
  rfl

/-- The lines that `saveNodes` writes. -/
theorem mem_textLines_nodesText (hprint : PrintsNumbers D) {nodes : Map ℤ (Node D)}
    (hnodes : ∀ (k : ℤ) (n : Node D), nodes[k]? = some n → n.Writable) {l : Text} :
    l ∈ textLines (nodesText nodes) ↔
      (∃ (k : ℤ) (n : Node D), nodes[k]? = some n ∧ l = nodeBody n) ∨ l = [] := by
  have hmem : ∀ p : ℤ × Node D, p ∈ nodes.toList ↔ nodes[p.1]? = some p.2 := fun p =>
    Std.ExtTreeMap.mem_toList_iff_getElem?_eq_some
  have htext : nodesText nodes =
      (nodes.toList.map fun p => nodeBody p.2).flatMap fun l => l ++ ['\n'] := by
    rw [nodesText, List.flatMap_map]
    exact List.flatMap_congr fun p _ => nodeLine_eq p.2
  rw [htext, textLines_flatMap, List.mem_append, List.mem_singleton, List.mem_map]
  · refine or_congr_left ⟨?_, ?_⟩
    · rintro ⟨p, hp, rfl⟩
      exact ⟨p.1, p.2, (hmem p).mp hp, rfl⟩
    · rintro ⟨k, n, hn, rfl⟩
      exact ⟨(k, n), (hmem (k, n)).mpr hn, rfl⟩
  · intro l' hl'
    obtain ⟨p, hp, rfl⟩ := List.mem_map.mp hl'
    exact newline_not_mem_nodeBody hprint (hnodes p.1 p.2 ((hmem p).mp hp))

/-! ### Which lines are kept -/

/-- A node that was loaded, from the last record of its id, under the key that it has. -/
theorem TrackedNode.loaded {file : Text} {updated : List ℤ} {k : ℤ} {n : Node D}
    (h : TrackedNode (loadNodes file).1 updated k n) {r : NodeRecord D}
    (hr : lastRecord? file k = some r) :
    n = { r.node with capacity := n.capacity } ∧ r.id = k ∧ r ∈ nodeRecords file ∧
      (k ∉ updated → n.capacity = r.cap) := by
  have hloaded : (loadNodes file).1[k]? = some r.node := by
    rw [getElem?_loadNodes_last, hr, Option.map_some]
  obtain ⟨hmem, hid⟩ := List.mem_filter.mp (List.mem_of_getLast? hr)
  refine ⟨?_, by simpa using hid, hmem, ?_⟩
  · rcases h with ⟨n₀, hn₀, heq, _⟩ | ⟨hk, _⟩
    · rw [hloaded, Option.some_inj] at hn₀
      rw [hn₀]
      exact heq
    · exact absurd (mem_of_getElem? hloaded) hk
  · rcases h with ⟨n₀, hn₀, _, hcap⟩ | ⟨hk, _⟩
    · rw [hloaded, Option.some_inj] at hn₀
      rw [← hn₀] at hcap
      exact hcap
    · exact absurd (mem_of_getElem? hloaded) hk

/-- A node without a record has no name. -/
theorem TrackedNode.name_eq_nil {file : Text} {updated : List ℤ} {k : ℤ} {n : Node D}
    (h : TrackedNode (loadNodes file).1 updated k n)
    (hnone : (lastRecord? file k : Option (NodeRecord D)) = none) :
    n.name = [] ∧ n.x = 0 ∧ n.y = 0 := by
  rcases h with ⟨n₀, hn₀, _⟩ | ⟨_, heq⟩
  · rw [getElem?_loadNodes_last, hnone] at hn₀
    exact absurd hn₀ (by simp)
  · rw [heq]
    exact ⟨rfl, rfl, rfl⟩

theorem TrackedNode.writable {file : Text} {updated : List ℤ} {k : ℤ} {n : Node D}
    (h : TrackedNode (loadNodes file).1 updated k n) : n.Writable := by
  cases hr : (lastRecord? file k : Option (NodeRecord D)) with
  | none =>
    obtain ⟨hname, hx, hy⟩ := h.name_eq_nil hr
    exact ⟨.inr hname, .inl hx, .inl hy⟩
  | some r =>
    obtain ⟨heq, _, hmem, _⟩ := h.loaded hr
    obtain ⟨hx, hy⟩ := nodeRecords_numbers hmem
    rw [heq]
    exact ⟨.inl (nodeRecords_fields hmem).2.1, .inr hx, .inr hy⟩

/-- The record on the line of a node is the last one read under its key. -/
theorem TrackedNode.lineRecord? (hprint : PrintsNumbers D) {file : Text} {updated : List ℤ} {k : ℤ}
    {n : Node D} (h : TrackedNode (loadNodes file).1 updated k n) (hcap : IsInt n.capacity)
    {r : NodeRecord D} (hr : lastRecord? file k = some r) :
    ∃ r', SmartParking.lineRecord? (nodeBody n) = some r' ∧ SameNode updated r r' := by
  obtain ⟨heq, hid, hmem, hold⟩ := h.loaded hr
  obtain ⟨hint, hword, _⟩ := nodeRecords_fields hmem
  have hnid : n.id = r.id := by rw [heq]; rfl
  have hname : n.name = r.name := by rw [heq]; rfl
  have hghost : n.ghost = r.node.ghost := by rw [heq]
  obtain ⟨r', hr', hid', hname', hcap', hghost'⟩ := lineRecord?_nodeBody hprint h.writable
    (hnid ▸ hint) (hname ▸ hword) hcap
  refine ⟨r', hr', hid'.trans hnid, hname'.trans hname, hghost'.trans hghost, fun hk => ?_⟩
  rw [hcap']
  exact hold (hid ▸ hk)

/-- After any requests and then a capacity change, a record is on a line of the file
exactly when it is the last one of its id that was read at start-up. -/
theorem keepsRecord_iff (hprint : PrintsNumbers D) {nodesList adjacencyList transport : Text}
    {es : List (Event D)} {sys sys' : SmartParking D}
    (h : Run (Served handle) (start nodesList adjacencyList transport) es sys)
    {r : UpdateRequest} {id cap : ℤ}
    (hstep : Served handle sys (.update r, .update (.success id cap)) sys') (lr : NodeRecord D) :
    (∃ l' ∈ textLines sys'.nodesList, ∃ r', lineRecord? l' = some r' ∧
        SameNode (updatedIds (es ++ [(.update r, .update (.success id cap))])) lr r') ↔
      ∃ r', lastRecord? nodesList lr.id = some r' ∧
        SameNode (updatedIds (es ++ [(.update r, .update (.success id cap))])) lr r' := by
  have hrun := h.snoc hstep
  have htracked := tracked_of_run hrun
  have hcaps := intCapacities_of_run hrun
  have hlines := fun l => mem_textLines_nodesText (l := l) hprint
    fun k n hn => (htracked.node k n hn).writable
  rw [nodesList_of_update hstep]
  constructor
  · rintro ⟨l', hl', r', hr', hsame⟩
    rcases (hlines l').mp hl' with ⟨k, n, hn, rfl⟩ | rfl
    · have ht := htracked.node k n hn
      cases hlast : (lastRecord? nodesList k : Option (NodeRecord D)) with
      | none =>
        rw [lineRecord?_nodeBody_nil hprint ht.writable (ht.name_eq_nil hlast).1] at hr'
        exact absurd hr' (by simp)
      | some r₀ =>
        -- the line is that of a loaded node, and holds its record
        obtain ⟨r₁, hr₁, hsame'⟩ := ht.lineRecord? hprint (hcaps k n hn) hlast
        obtain rfl : r₁ = r' := by
          rw [hr₁, Option.some_inj] at hr'
          exact hr'
        obtain ⟨_, hid, _⟩ := ht.loaded hlast
        have hkey : lr.id = k := hsame.id.symm.trans (hsame'.id.trans hid)
        exact ⟨r₀, hkey ▸ hlast, hsame.trans hsame'.symm⟩
    · exact absurd hr' (by simp [lineRecord?])
  · rintro ⟨r₀, hlast, hsame⟩
    have hloaded : (loadNodes nodesList).1[lr.id]? = some r₀.node := by
      rw [getElem?_loadNodes_last, hlast, Option.map_some]
    obtain ⟨n, hn⟩ := (mem_iff_getElem? _ _).mp (htracked.kept _ (mem_of_getElem? hloaded))
    obtain ⟨r', hr', hsame'⟩ := (htracked.node _ n hn).lineRecord? hprint (hcaps _ n hn) hlast
    exact ⟨nodeBody n, (hlines _).mpr (.inl ⟨_, n, hn, rfl⟩), r', hr', hsame.trans hsame'⟩

/-- **Which lines survive.**  After any requests and then a capacity change, every line
that holds a record under an id of its own has kept it exactly when, for each such line,
typed fields lead from the beginning of the text to its record, six by six, and none
that follow replace it. -/
theorem keepsLines_iff (hprint : PrintsNumbers D) {nodesList adjacencyList transport : Text}
    {es : List (Event D)} {sys sys' : SmartParking D}
    (h : Run (Served handle) (start nodesList adjacencyList transport) es sys)
    {r : UpdateRequest} {id cap : ℤ}
    (hstep : Served handle sys (.update r, .update (.success id cap)) sys') :
    KeepsLines D nodesList sys'.nodesList
        (updatedIds (es ++ [(.update r, .update (.success id cap))])) ↔
      LeadsToLines D nodesList
        (updatedIds (es ++ [(.update r, .update (.success id cap))])) :=
  forall_congr' fun _ => forall_congr' fun _ => forall_congr' fun lr => forall_congr' fun _ =>
    forall_congr' fun _ => (keepsRecord_iff hprint h hstep lr).trans leadsTo_iff.symm

/-- **Lines in step survive.**  Where the text before each line that holds a record under
an id of its own consists of typed fields, six by six, and no record after the line takes
its id, no capacity change loses a line. -/
theorem keepsLines_of_inStep (hprint : PrintsNumbers D)
    (hwords : ReadsWords (StreamDouble.extract (D := D)))
    {nodesList adjacencyList transport : Text}
    (hlines : ∀ l ∈ textLines nodesList, ∀ lr : NodeRecord D, lineRecord? l = some lr →
      OwnId nodesList lr.id → LineInStep D nodesList l lr.id)
    {es : List (Event D)} {sys sys' : SmartParking D}
    (h : Run (Served handle) (start nodesList adjacencyList transport) es sys)
    {r : UpdateRequest} {id cap : ℤ}
    (hstep : Served handle sys (.update r, .update (.success id cap)) sys') :
    KeepsLines D nodesList sys'.nodesList
      (updatedIds (es ++ [(.update r, .update (.success id cap))])) := by
  intro l hl lr hline hown
  rw [keepsRecord_iff hprint h hstep, ← leadsTo_iff]
  exact leadsTo_of_inStep hwords hline (hlines l hl lr hline hown) _

end lines

/-- Whole numbers are printed as one word, which is read as the number. -/
theorem printsNumbers_whole : PrintsNumbers ℤ := by
  intro d hd
  have hint : IsInt d := by
    rcases hd with rfl | ⟨s, t, hread⟩
    · decide
    · exact (extractInt_eq_some hread).2
  exact ⟨isWord_printInt d, d, extractInt_printInt_self hint⟩

theorem keepsLines_iff_lot : ∃ s',
    Served handle lot (.update (resizeA ['5']), .update (.success 1 5)) s' ∧
      KeepsLines ℤ lotFile s'.nodesList [1] := by
  have hstep : Served handle lot (.update (resizeA ['5']), .update (.success 1 5))
      (lot.updateCapacity 1 5) := served_of_updateEnter (by decide)
  have hleads : LeadsToLines ℤ lotFile [1] := by
    intro l hl r hr _
    have hlines : textLines lotFile = ["1 A 2 0 0 0".toList, []] := by decide
    rw [hlines, List.mem_cons, List.mem_singleton] at hl
    rcases hl with rfl | rfl
    · have hline : lineRecord? "1 A 2 0 0 0".toList =
          some { id := 1, name := ['A'], cap := 2, x := (0 : ℤ), y := 0, ghost := 0 } := by decide
      rw [hline, Option.some_inj] at hr
      subst hr
      -- the record is at the beginning of the text, and only the newline follows
      refine ⟨[], lotFile, _, ['\n'], .nil _, (readRecord_iff _ _ _).mp (by decide),
        ⟨rfl, rfl, rfl, fun _ => rfl⟩, fun later u hlater => ?_⟩
      have hnone : (readRecord ['\n'] : Option (NodeRecord ℤ × Text)) = none := by decide
      cases hlater with
      | nil => simp
      | cons head _ => exact absurd ((readRecord_iff _ _ _).mpr head) (by simp [hnone])
    · exact absurd hr (by simp [lineRecord?])
  exact ⟨_, hstep, (keepsLines_iff printsNumbers_whole .nil hstep).mpr hleads⟩

/-- Three lines, the second with a name of two words. -/
def shopFile : Text := "1 A 5 0 0 0\n2 B C 5 0 0 0\n3 D 5 0 0 0\n".toList

def shop : SmartParking ℤ := start shopFile [] []

/-- The loader stops on the second line, and changing the first removes the third. -/
theorem update_loses_line : ∃ s',
    Served handle shop (.update (resizeA ['6']), .update (.success 1 6)) s' ∧
      s'.nodesList = "1 A 6 0 0 0\n".toList ∧ ¬ KeepsLines ℤ shopFile s'.nodesList [1] := by
  have hstep : Served handle shop (.update (resizeA ['6']), .update (.success 1 6))
      (shop.updateCapacity 1 6) := served_of_updateEnter (by decide)
  have hfile : (shop.updateCapacity 1 6).nodesList = "1 A 6 0 0 0\n".toList := by decide
  refine ⟨_, hstep, hfile, fun hkeeps => ?_⟩
  rw [hfile] at hkeeps
  obtain ⟨l', hl', r', hr', hsame⟩ := hkeeps "3 D 5 0 0 0".toList (by decide)
    { id := 3, name := ['D'], cap := 5, x := 0, y := 0, ghost := 0 } (by decide) (by decide)
  have hnone : ∀ l ∈ textLines "1 A 6 0 0 0\n".toList,
      (lineRecord? l : Option (NodeRecord ℤ)).map NodeRecord.id ≠ some 3 := by decide
  exact hnone l' hl' (by rw [hr', Option.map_some, hsame.id])

end SmartParking
