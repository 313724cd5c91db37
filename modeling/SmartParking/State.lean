/-
The state of the server: the class `SmartParking` of `SmartParking.cpp` with
its loaders, and the `Node` of `Node.cpp`.

Coordinates are of a type `D` standing for `double`; all the program does with
one is to extract it from a stream and to print it (`StreamDouble`).  The file
`nodes_list.txt`, which `saveNodes` rewrites, is kept as the field `nodesList`.

`slot?` and `slotAt` look an hour up in the slot table (`none`, or 0, when there
is no entry) and `slot?_foldl_hours` says what a loop over hours that rewrites
one node's entries one after another does to the whole table.
-/
import SmartParking.Library.StdMap
import SmartParking.Library.TextStream

open StdMap TextStream

namespace SmartParking

/-- What the program uses of `double`: zero, `in >> x` and `out << x`. -/
class StreamDouble (D : Type) extends Zero D where
  extract : Text → Option (D × Text)
  print : D → Text
  extract_consumes : Consumes extract

/-- Whole numbers of at most six digits, which a stream of `double`s reads and
prints like `int`s: enough to run the model on a file. -/
instance wholeDouble : StreamDouble ℤ where
  extract := extractInt
  print := printInt
  extract_consumes := extractInt_consumes

structure Node (D : Type) where
  id : ℤ
  name : Text
  capacity : ℤ
  x : D
  y : D
  ghost : Bool
  deriving DecidableEq

/-- The value-initialised node that `nodes[id]` creates for an unknown id. -/
instance {D : Type} [Zero D] : Inhabited (Node D) :=
  ⟨{ id := 0, name := [], capacity := 0, x := 0, y := 0, ghost := false }⟩

/-- `map<int,vector<pair<int,int>>>`: the neighbours of an id with the weights. -/
abbrev Adjacency : Type := Map ℤ (List (ℤ × ℤ))

/-- `map<int,map<int,int>>`: free places by node and hour. -/
abbrev Slots : Type := Map ℤ (Map ℤ ℤ)

/-- `map<pair<int,int>,vector<int>>`: the ghosts drawn between two nodes. -/
abbrev VisualPaths : Type := Map (ℤ ×ₗ ℤ) (List ℤ)

end SmartParking

/-- The members of the class, and the text of `nodes_list.txt`. -/
structure SmartParking (D : Type) where
  nodes : StdMap.Map ℤ (SmartParking.Node D)
  road : SmartParking.Adjacency
  transport : SmartParking.Adjacency
  slots : SmartParking.Slots
  visualPaths : SmartParking.VisualPaths
  nodesList : TextStream.Text

namespace SmartParking

/-- `nodes.count(id) && !nodes.at(id).ghost`. -/
def isPlace {D : Type} (nodes : Map ℤ (Node D)) (id : ℤ) : Bool :=
  match nodes[id]? with
  | none => false
  | some n => !n.ghost

theorem isPlace_iff {D : Type} {nodes : Map ℤ (Node D)} {id : ℤ} :
    isPlace nodes id = true ↔ ∃ n, nodes[id]? = some n ∧ n.ghost = false := by
  rw [isPlace]
  cases nodes[id]? <;> simp

theorem mem_of_isPlace {D : Type} {nodes : Map ℤ (Node D)} {id : ℤ}
    (h : isPlace nodes id = true) : id ∈ nodes := by
  obtain ⟨n, hn, _⟩ := isPlace_iff.mp h
  exact mem_of_getElem? hn

/-- Touching nodes turns no place into a ghost. -/
theorem isPlace_touchAll {D : Type} [Zero D] {nodes : Map ℤ (Node D)} {id : ℤ}
    (h : isPlace nodes id = true) (ids : List ℤ) : isPlace (touchAll nodes ids) id = true := by
  obtain ⟨n, hn, hghost⟩ := isPlace_iff.mp h
  exact isPlace_iff.mpr ⟨n, touchAll_of_getElem? hn ids, hghost⟩

/-! ### Hours and slots -/

/-- The hours of `for(int h = startH; h < endH; h++)`. -/
def hours (startH endH : ℤ) : List ℤ :=
  (List.range (endH - startH).toNat).map fun i : ℕ => startH + (i : ℤ)

@[simp] theorem mem_hours {startH endH h : ℤ} : h ∈ hours startH endH ↔ startH ≤ h ∧ h < endH := by
  simp only [hours, List.mem_map, List.mem_range]
  constructor
  · rintro ⟨i, hi, rfl⟩
    omega
  · rintro ⟨h1, h2⟩
    exact ⟨(h - startH).toNat, by omega, by omega⟩

theorem nodup_hours (startH endH : ℤ) : (hours startH endH).Nodup := by
  refine List.Nodup.map ?_ List.nodup_range
  intro i j hij
  simpa using hij

def slot? (slots : Slots) (id h : ℤ) : Option ℤ := slots[id]?.bind fun nodeSlots => nodeSlots[h]?

/-- The value of `slots[id][h]`, 0 when absent. -/
def slotAt (slots : Slots) (id h : ℤ) : ℤ := (slot? slots id h).getD 0

/-- `slots[id][h] = v`. -/
def setSlot (slots : Slots) (id h v : ℤ) : Slots :=
  slots.insert id ((slots.getD id ∅).insert h v)

theorem slot?_setSlot (slots : Slots) (id h v id' h' : ℤ) :
    slot? (setSlot slots id h v) id' h' =
      if id' = id ∧ h' = h then some v else slot? slots id' h' := by
  rw [slot?, setSlot, getElem?_insert_eq, slot?]
  by_cases hid : id' = id
  · subst hid
    rw [if_pos rfl, Option.bind_some, getElem?_insert_eq, getD_eq]
    by_cases hh : h' = h
    · rw [if_pos hh, if_pos ⟨rfl, hh⟩]
    · rw [if_neg hh, if_neg fun hc => hh hc.2]
      cases slots[id']? with
      | none => simp
      | some nodeSlots => rfl
  · rw [if_neg hid, if_neg fun hc => hid hc.1]

theorem mem_setSlot (slots : Slots) (id h v id' : ℤ) :
    id' ∈ setSlot slots id h v ↔ id' = id ∨ id' ∈ slots := by
  rw [setSlot, mem_insert_eq]

theorem mem_of_slot? {slots : Slots} {id h v : ℤ} (hs : slot? slots id h = some v) :
    id ∈ slots := by
  rw [slot?, Option.bind_eq_some_iff] at hs
  obtain ⟨nodeSlots, hn, _⟩ := hs
  exact mem_of_getElem? hn

/-- A slot table is its keys and its entries. -/
theorem slots_ext {slots slots' : Slots} (hkeys : ∀ id, id ∈ slots ↔ id ∈ slots')
    (hentries : ∀ id h, slot? slots id h = slot? slots' id h) : slots = slots' := by
  refine Std.ExtTreeMap.ext_getElem? fun id => ?_
  have hkey := hkeys id
  rw [mem_iff_getElem?, mem_iff_getElem?] at hkey
  cases hs : slots[id]? with
  | none =>
    cases hs' : slots'[id]? with
    | none => rfl
    | some nodeSlots => simp [hs, hs'] at hkey
  | some nodeSlots =>
    cases hs' : slots'[id]? with
    | none => simp [hs, hs'] at hkey
    | some nodeSlots' =>
      refine congrArg some (Std.ExtTreeMap.ext_getElem? fun h => ?_)
      have hentry := hentries id h
      rwa [slot?, slot?, hs, hs'] at hentry

/-- The table after a loop over distinct hours whose body rewrites `slots[id][h]`
from its old value and touches nothing else. -/
theorem slot?_foldl_hours {f : Slots → ℤ → Slots} {id : ℤ} {g : Option ℤ → Option ℤ}
    (hbody : ∀ slots h id' h', slot? (f slots h) id' h' =
      if id' = id ∧ h' = h then g (slot? slots id h) else slot? slots id' h') :
    ∀ (hs : List ℤ), hs.Nodup → ∀ (slots : Slots) (id' h' : ℤ),
      slot? (hs.foldl f slots) id' h' =
        if id' = id ∧ h' ∈ hs then g (slot? slots id h') else slot? slots id' h' := by
  intro hs
  induction hs with
  | nil =>
    intro _ slots id' h'
    simp
  | cons h hs ih =>
    intro hnd slots id' h'
    obtain ⟨hnot, hnd'⟩ := List.nodup_cons.mp hnd
    rw [List.foldl_cons, ih hnd' (f slots h) id' h']
    by_cases hid : id' = id
    · by_cases hh : h' = h
      · -- rewritten in this round, and not again since the hours are distinct
        subst hid hh
        rw [if_neg fun hc => hnot hc.2, if_pos ⟨rfl, by simp⟩, hbody, if_pos ⟨rfl, rfl⟩]
      · by_cases hmem : h' ∈ hs
        · -- rewritten later, from the entry it had before this round
          rw [if_pos ⟨hid, hmem⟩, if_pos ⟨hid, List.mem_cons_of_mem _ hmem⟩, hbody,
            if_neg fun hc => hh hc.2]
        · have hmem' : h' ∉ h :: hs := by
            rw [List.mem_cons]
            exact not_or.mpr ⟨hh, hmem⟩
          rw [if_neg fun hc => hmem hc.2, if_neg fun hc => hmem' hc.2, hbody,
            if_neg fun hc => hh hc.2]
    · rw [if_neg fun hc => hid hc.1, if_neg fun hc => hid hc.1, hbody, if_neg fun hc => hid hc.1]

/-- The keys after such a loop: it may create `id` and removes nothing. -/
theorem mem_foldl_hours {f : Slots → ℤ → Slots} (id : ℤ) {P : Prop}
    (hbody : ∀ slots h id', id' ∈ f slots h ↔ (id' = id ∧ P) ∨ id' ∈ slots) :
    ∀ (hs : List ℤ) (slots : Slots) (id' : ℤ),
      id' ∈ hs.foldl f slots ↔ (id' = id ∧ P ∧ hs ≠ []) ∨ id' ∈ slots := by
  intro hs
  induction hs with
  | nil =>
    intro slots id'
    simp
  | cons h hs ih =>
    intro slots id'
    rw [List.foldl_cons, ih, hbody]
    constructor
    · rintro (⟨h1, h2, _⟩ | ⟨h1, h2⟩ | h1)
      · exact .inl ⟨h1, h2, by simp⟩
      · exact .inl ⟨h1, h2, by simp⟩
      · exact .inr h1
    · rintro (⟨h1, h2, _⟩ | h1)
      · exact .inr (.inl ⟨h1, h2⟩)
      · exact .inr (.inr h1)

/-! ### `loadNodes` and `saveNodes` -/

section nodes
variable {D : Type} [StreamDouble D]

/-- The fields read by `file >> id >> name >> cap >> x >> y >> ghost`. -/
structure NodeRecord (D : Type) where
  id : ℤ
  name : Text
  cap : ℤ
  x : D
  y : D
  ghost : ℤ
  deriving DecidableEq

def readRecord (s : Text) : Option (NodeRecord D × Text) := do
  let (id, s) ← extractInt s
  let (name, s) ← extractWord s
  let (cap, s) ← extractInt s
  let (x, s) ← StreamDouble.extract s
  let (y, s) ← StreamDouble.extract s
  let (ghost, s) ← extractInt s
  some ({ id := id, name := name, cap := cap, x := x, y := y, ghost := ghost }, s)

omit [StreamDouble D] in
def NodeRecord.node (r : NodeRecord D) : Node D :=
  { id := r.id, name := r.name, capacity := r.cap, x := r.x, y := r.y, ghost := r.ghost = 1 }

/-- `for(int h=0;h<24;h++) slots[id][h]=cap;` -/
def openSlots (slots : Slots) (id cap : ℤ) : Slots :=
  (hours 0 24).foldl (fun slots h => setSlot slots id h cap) slots

/-- The body of the loop of `loadNodes`, on `nodes` and `slots`. -/
def loadRecord (t : Map ℤ (Node D) × Slots) (r : NodeRecord D) : Map ℤ (Node D) × Slots :=
  (t.1.insert r.id r.node,
    if !r.node.ghost && r.cap > 0 then openSlots t.2 r.id r.cap else t.2)

/-- The records of the file up to the first failing extraction. -/
def nodeRecords (file : Text) : List (NodeRecord D) := readAll readRecord file

/-- `loadNodes`: the members `nodes` and `slots`. -/
def loadNodes (file : Text) : Map ℤ (Node D) × Slots :=
  (nodeRecords file).foldl loadRecord (∅, ∅)

/-- The line written for a node. -/
def nodeLine (n : Node D) : Text :=
  printInt n.id ++ ' ' :: (n.name ++ ' ' :: (printInt n.capacity ++ ' ' ::
    (StreamDouble.print n.x ++ ' ' :: (StreamDouble.print n.y ++ ' ' ::
      (printInt (if n.ghost then 1 else 0) ++ ['\n'])))))

/-- The text `saveNodes` writes. -/
def nodesText (nodes : Map ℤ (Node D)) : Text :=
  nodes.toList.flatMap fun p => nodeLine p.2

def saveNodes (sys : SmartParking D) : SmartParking D :=
  { sys with nodesList := nodesText sys.nodes }

theorem slot?_openSlots (slots : Slots) (id cap id' h' : ℤ) :
    slot? (openSlots slots id cap) id' h' =
      if id' = id ∧ 0 ≤ h' ∧ h' < 24 then some cap else slot? slots id' h' := by
  have h := slot?_foldl_hours (g := fun _ => some cap)
    (fun slots h id' h' => slot?_setSlot slots id h cap id' h')
    (hours 0 24) (nodup_hours 0 24) slots id' h'
  rw [openSlots]
  simpa only [mem_hours] using h

theorem mem_openSlots (slots : Slots) (id cap id' : ℤ) :
    id' ∈ openSlots slots id cap ↔ id' = id ∨ id' ∈ slots := by
  have h := mem_foldl_hours (f := fun slots h => setSlot slots id h cap) id (P := True)
    (fun slots h id' => by rw [and_true, mem_setSlot]) (hours 0 24) slots id'
  have hne : hours 0 24 ≠ [] := by decide
  rw [openSlots]
  simpa [hne] using h

theorem readRecord_consumes : Consumes (readRecord : Text → Option (NodeRecord D × Text)) := by
  intro s a r h
  simp only [readRecord, Option.bind_eq_bind, Option.bind_eq_some_iff, Option.some.injEq,
    Prod.mk.injEq, Prod.exists] at h
  obtain ⟨_, s₁, h1, _, s₂, h2, _, s₃, h3, _, s₄, h4, _, s₅, h5, _, s₆, h6, _, rfl⟩ := h
  have := extractInt_consumes _ _ _ h1
  have := extractWord_consumes _ _ _ h2
  have := extractInt_consumes _ _ _ h3
  have := StreamDouble.extract_consumes _ _ _ h4
  have := StreamDouble.extract_consumes _ _ _ h5
  have := extractInt_consumes _ _ _ h6
  omega

/-- What a successful extraction of a record says of its fields. -/
theorem readRecord_fields {s t : Text} {r : NodeRecord D} (h : readRecord s = some (r, t)) :
    IsInt r.id ∧ IsWord r.name ∧ IsInt r.cap := by
  simp only [readRecord, Option.bind_eq_bind, Option.bind_eq_some_iff, Option.some.injEq,
    Prod.mk.injEq, Prod.exists] at h
  obtain ⟨_, _, h1, _, _, h2, _, _, h3, _, _, _, _, _, _, _, _, _, rfl, _⟩ := h
  obtain ⟨_, _, _, hw, _⟩ := extractWord_eq_some h2
  exact ⟨(extractInt_eq_some h1).2, hw, (extractInt_eq_some h3).2⟩

theorem nodeRecords_fields {file : Text} {r : NodeRecord D} (h : r ∈ nodeRecords file) :
    IsInt r.id ∧ IsWord r.name ∧ IsInt r.cap := by
  obtain ⟨_, _, hread⟩ := exists_read_of_mem_readAll readRecord_consumes h
  exact readRecord_fields hread

end nodes

/-! ### `loadGraph` and `loadTransport` -/

def readEdge (s : Text) : Option ((ℤ × ℤ × ℤ) × Text) := do
  let (u, s) ← extractInt s
  let (v, s) ← extractInt s
  let (w, s) ← extractInt s
  some ((u, v, w), s)

def readPair (s : Text) : Option ((ℤ × ℤ) × Text) := do
  let (u, s) ← extractInt s
  let (v, s) ← extractInt s
  some ((u, v), s)

/-- `graph[u].push_back(e)`. -/
def pushBack (graph : Adjacency) (u : ℤ) (e : ℤ × ℤ) : Adjacency :=
  graph.insert u (graph.getD u [] ++ [e])

/-- The body of the loop of `loadGraph`: the edge in both directions. -/
def addEdge (graph : Adjacency) (e : ℤ × ℤ × ℤ) : Adjacency :=
  pushBack (pushBack graph e.1 (e.2.1, e.2.2)) e.2.1 (e.1, e.2.2)

/-- The road map built from the lines of `adjacency_list.txt`. -/
def roadOf (lines : List (ℤ × ℤ × ℤ)) : Adjacency := lines.foldl addEdge ∅

def loadGraph (file : Text) : Adjacency := roadOf (readAll readEdge file)

/-- `loadTransport`: every line is an edge of weight 1. -/
def loadTransport (file : Text) : Adjacency :=
  roadOf ((readAll readPair file).map fun p => (p.1, p.2, 1))

/-! ### `buildVisualPaths` -/

/-- `addPath(a, b, ghosts)`. -/
def addPath (visualPaths : VisualPaths) (a b : ℤ) (ghosts : List ℤ) : VisualPaths :=
  (visualPaths.insert (toLex (a, b)) ghosts).insert (toLex (b, a)) ghosts.reverse

/-- The arguments of the calls of `addPath`, in order. -/
def visualTable : List (ℤ × ℤ × List ℤ) :=
  [(0, 3, [1, 2]), (3, 6, [4, 5]), (6, 8, [7]), (0, 12, [9, 10, 11]), (12, 15, [13, 14]),
    (12, 24, [22, 23]), (24, 0, [25, 26]), (8, 27, [28, 29]), (0, 30, [31, 32]),
    (15, 33, [34, 35]), (33, 36, [37, 38]), (36, 39, [40, 41]), (33, 42, [43, 44]),
    (42, 48, [49, 50]), (8, 51, [52, 53]), (8, 54, []), (6, 54, [55]), (3, 56, [57, 58]),
    (56, 0, []), (8, 65, [66, 67]), (0, 62, [63, 64]), (62, 68, [69, 70]), (68, 45, []),
    (45, 30, [46, 47]), (45, 24, []), (24, 65, []), (21, 54, []), (21, 8, [])]

def buildVisualPaths : VisualPaths :=
  -- a pair listed twice, in either direction, keeps the later ghosts
  visualTable.foldl (fun visualPaths t => addPath visualPaths t.1 t.2.1 t.2.2) ∅

/-- The constructor: the state at start-up, from the three files. -/
def start {D : Type} [StreamDouble D] (nodesList adjacencyList transport : Text) :
    SmartParking D :=
  { nodes := (loadNodes nodesList).1
    road := loadGraph adjacencyList
    transport := loadTransport transport
    slots := (loadNodes (D := D) nodesList).2
    visualPaths := buildVisualPaths
    nodesList := nodesList }

/-! ### `getId` -/

/-- The first id, in increasing order, of a node with the given name; -1 if none. -/
def getId {D : Type} (sys : SmartParking D) (name : Text) : ℤ :=
  ((sys.nodes.toList.find? fun p => p.2.name = name).map fun p => p.1).getD (-1)

end SmartParking
