/-
What a restart keeps.

`updateCapacity` writes the nodes to `nodes_list.txt`; a booking is written nowhere,
and the other two files are only read.  A history (`Act`) is of requests served and of
restarts, where the program is stopped and started from the files as they are.

* `run_since_restart` — after any history the state is one that the requests since
  the last restart reach from the file found there;
* `nodes_of_history` — the nodes, and those that the file holds, are the first ones
  with the capacities last set, however often the program has been restarted; their
  coordinates have been through the printer once, if a saved file has been read again;
* `accounted_of_history` — the free places are the capacity less the places granted since
  the last restart: bookings made before it are forgotten, and nothing else is.
-/
import SmartParking.Coordinates
import SmartParking.Network

open StdMap TextStream Runs

namespace SmartParking

variable {D : Type}

/-! ### Histories -/

/-- A request served, or the program stopped and started again. -/
inductive Act (D : Type)
  | serve (e : Event D)
  | restart

namespace Act

def event? : Act D → Option (Event D)
  | serve e => some e
  | restart => none

def isServe : Act D → Bool
  | serve _ => true
  | restart => false

/-- The id and capacity of a change that succeeds. -/
def change? : Act D → Option (ℤ × ℤ)
  | serve (_, .update (.success id cap)) => some (id, cap)
  | _ => none

theorem change?_eq_none {e : Event D} :
    (serve e).change? = none ↔ ∀ id cap, e.2 ≠ .update (.success id cap) := by
  obtain ⟨request, reply⟩ := e
  cases reply with
  | update u => cases u <;> simp [change?]
  | _ => simp [change?]

end Act

/-- The program is started with the files of roads and transport, which it does not
write, and with the nodes file as it has left it. -/
def Does [StreamDouble D] (adjacencyList transport : Text) (sys : SmartParking D) :
    Act D → SmartParking D → Prop
  | .serve e, sys' => Served handle sys e sys'
  | .restart, sys' => sys' = start sys.nodesList adjacencyList transport

/-- The history up to the last restart. -/
def untilRestart (acts : List (Act D)) : List (Act D) := acts.rdropWhile Act.isServe

/-- The requests since the last restart. -/
def sinceRestart (acts : List (Act D)) : List (Event D) :=
  (acts.rtakeWhile Act.isServe).filterMap Act.event?

/-- The file of nodes has been written. -/
def saved (acts : List (Act D)) : Bool := acts.any fun a => a.change?.isSome

/-- The capacity last set for an id. -/
def lastCapacity? (acts : List (Act D)) (k : ℤ) : Option ℤ :=
  (((acts.filterMap Act.change?).filter fun c => c.1 = k).map Prod.snd).getLast?

section snoc
variable (acts : List (Act D))

theorem untilRestart_serve (e : Event D) :
    untilRestart (acts ++ [.serve e]) = untilRestart acts :=
  List.rdropWhile_concat_pos _ _ _ rfl

theorem untilRestart_restart : untilRestart (acts ++ [.restart]) = acts ++ [.restart] :=
  List.rdropWhile_concat_neg _ _ _ (by simp [Act.isServe])

theorem sinceRestart_serve (e : Event D) :
    sinceRestart (acts ++ [.serve e]) = sinceRestart acts ++ [e] := by
  rw [sinceRestart, List.rtakeWhile_concat_pos _ _ _ (by rfl), List.filterMap_append]
  rfl

theorem sinceRestart_restart : sinceRestart (acts ++ [.restart]) = [] := by
  rw [sinceRestart, List.rtakeWhile_concat_neg _ _ _ (by simp [Act.isServe])]
  rfl

theorem saved_snoc (a : Act D) : saved (acts ++ [a]) = (saved acts || a.change?.isSome) := by
  rw [saved, List.any_append, List.any_cons, List.any_nil, Bool.or_false, saved]

theorem changes_snoc (a : Act D) :
    (acts ++ [a]).filterMap Act.change? = acts.filterMap Act.change? ++ a.change?.toList := by
  rw [List.filterMap_append]
  cases h : a.change? <;> simp [h]

theorem lastCapacity?_of_none {a : Act D} (h : a.change? = none) (k : ℤ) :
    lastCapacity? (acts ++ [a]) k = lastCapacity? acts k := by
  rw [lastCapacity?, changes_snoc, h, Option.toList_none, List.append_nil, lastCapacity?]

theorem lastCapacity?_of_some {a : Act D} {id cap : ℤ} (h : a.change? = some (id, cap)) (k : ℤ) :
    lastCapacity? (acts ++ [a]) k = if k = id then some cap else lastCapacity? acts k := by
  rw [lastCapacity?, changes_snoc, h, Option.toList_some, List.filter_append,
    List.filter_singleton, lastCapacity?]
  by_cases hk : k = id
  · simp [hk]
  · have hk' : ¬ id = k := fun hc => hk hc.symm
    simp [hk, hk']

end snoc

/-! ### The nodes of a history -/

section nodes
variable [StreamDouble D] {P : D → Prop} {f : D → D}

omit [StreamDouble D] in
/-- A node as first loaded, with its coordinates printed and read if it has been
through the file, and the capacity last set. -/
def Node.after (f : D → D) (printed : Bool) (cap : Option ℤ) (n : Node D) : Node D :=
  { (if printed then n.mapCoords f else n) with capacity := cap.getD n.capacity }

omit [StreamDouble D] in
theorem Node.after_set (f : D → D) (printed : Bool) (cap : Option ℤ) (new : ℤ) (n : Node D) :
    { n.after f printed cap with capacity := new } = n.after f printed (some new) := by
  cases printed <;> rfl

omit [StreamDouble D] in
/-- Coordinates that have been printed are printed again as they are. -/
theorem Node.mapCoords_after {n : Node D} (hx : f (f n.x) = f n.x) (hy : f (f n.y) = f n.y)
    (printed : Bool) (cap : Option ℤ) :
    (n.after f printed cap).mapCoords f = n.after f true cap := by
  cases printed with
  | false => rfl
  | true => simp [Node.after, Node.mapCoords, hx, hy]

/-- The file and the table in memory, as the history has left them. -/
structure Remembers (f : D → D) (file adjacencyList transport : Text) (acts : List (Act D))
    (sys : SmartParking D) : Prop where
  nodes : ∀ k : ℤ, sys.nodes[k]? =
    (loadNodes file).1[k]?.map (Node.after f (saved (untilRestart acts)) (lastCapacity? acts k))
  reload : ∀ k : ℤ, (loadNodes sys.nodesList).1[k]? =
    (loadNodes file).1[k]?.map (Node.after f (saved acts) (lastCapacity? acts k))
  distinct : DistinctIds D file → DistinctIds D sys.nodesList
  ints : IntCapacities sys.nodes
  frame : sys.road = loadGraph adjacencyList ∧ sys.transport = loadTransport transport ∧
    sys.visualPaths = buildVisualPaths

/-- A number with `P` is printed as one that is read as `f` of it, and which printing
leaves alone from then on. -/
structure PrintsOnce (P : D → Prop) (f : D → D) : Prop where
  readsAs : ReadsAs P f
  closed : ∀ d, P d → P (f d)
  again : ∀ d, P d → f (f d) = f d

/-- Every coordinate of the file is a number with `P`. -/
def CoordsMeet (P : D → Prop) (file : Text) : Prop :=
  ∀ r ∈ (nodeRecords file : List (NodeRecord D)), P r.x ∧ P r.y

/-- The ids on the lines written for a table are its keys. -/
theorem distinctIds_nodesText (hP : ReadsAs P f) {nodes : Map ℤ (Node D)}
    (hnodes : ∀ (k : ℤ) (n : Node D), nodes[k]? = some n → n.id = k ∧ n.Printable P) :
    DistinctIds D (nodesText nodes) := by
  have hmem : ∀ p ∈ nodes.toList, p.2.id = p.1 ∧ p.2.Printable P := fun p hp =>
    hnodes p.1 p.2 (Std.ExtTreeMap.mem_toList_iff_getElem?_eq_some.mp hp)
  have hlines : nodesText nodes = (nodes.toList.map Prod.snd).flatMap nodeLine := by
    rw [nodesText, List.flatMap_map]
  have hprintable : ∀ n ∈ nodes.toList.map Prod.snd, n.Printable P := by
    intro n hn
    obtain ⟨p, hp, rfl⟩ := List.mem_map.mp hn
    exact (hmem p hp).2
  rw [DistinctIds, hlines, nodeRecords_lines hP _ hprintable, List.map_map, List.map_map]
  have hkeys : nodes.toList.map ((NodeRecord.id ∘ fun n => (n.mapCoords f).record) ∘ Prod.snd) =
      nodes.keys := by
    rw [← Std.ExtTreeMap.map_fst_toList_eq_keys]
    exact List.map_congr_left fun p hp => (hmem p hp).1
  rw [hkeys]
  exact Std.ExtTreeMap.nodup_keys

variable {file adjacencyList transport : Text} {acts : List (Act D)} {sys sys' : SmartParking D}

theorem remembers_start (f : D → D) (file adjacencyList transport : Text) :
    Remembers f file adjacencyList transport []
      (start (D := D) file adjacencyList transport) where
  nodes k := by
    show (loadNodes (D := D) file).1[k]? = (loadNodes file).1[k]?.map fun n => n
    rw [Option.map_id']
  reload k := by
    show (loadNodes (D := D) file).1[k]? = (loadNodes file).1[k]?.map fun n => n
    rw [Option.map_id']
  distinct h := h
  ints := intCapacities_loadNodes file
  frame := ⟨rfl, rfl, rfl⟩

/-- Loaded nodes, with any capacities and printed or not, can be written. -/
theorem printable_after (hP : PrintsOnce P f) (hcoords : CoordsMeet P file)
    {nodes : Map ℤ (Node D)} {printed : Bool} {cap : ℤ → Option ℤ}
    (hnodes : ∀ k : ℤ, nodes[k]? =
      (loadNodes file).1[k]?.map (Node.after f printed (cap k))) (hints : IntCapacities nodes) :
    ∀ (k : ℤ) (n : Node D), nodes[k]? = some n → n.id = k ∧ n.Printable P := by
  intro k n hn
  have hcap := hints k n hn
  rw [hnodes, Option.map_eq_some_iff] at hn
  obtain ⟨n₀, hn₀, rfl⟩ := hn
  obtain ⟨r, hr, hid, rfl⟩ := exists_record hn₀
  obtain ⟨hint, hword, _⟩ := nodeRecords_fields hr
  obtain ⟨hx, hy⟩ := hcoords r hr
  cases printed with
  | false => exact ⟨hid, hint, hword, hcap, hx, hy⟩
  | true => exact ⟨hid, hint, hword, hcap, hP.closed _ hx, hP.closed _ hy⟩

/-- Every node in memory can be written. -/
theorem Remembers.printable (h : Remembers f file adjacencyList transport acts sys)
    (hP : PrintsOnce P f) (hcoords : CoordsMeet P file) :
    ∀ (k : ℤ) (n : Node D), sys.nodes[k]? = some n → n.id = k ∧ n.Printable P :=
  printable_after hP hcoords h.nodes h.ints

/-- A loaded node that is written is read with its coordinates as printed. -/
theorem mapCoords_after_loaded (hP : PrintsOnce P f) (hcoords : CoordsMeet P file) {k : ℤ}
    {n : Node D} (hn : (loadNodes file).1[k]? = some n) (printed : Bool) (cap : Option ℤ) :
    (n.after f printed cap).mapCoords f = n.after f true cap := by
  obtain ⟨r, hr, _, rfl⟩ := exists_record hn
  obtain ⟨hx, hy⟩ := hcoords r hr
  exact Node.mapCoords_after (hP.again _ hx) (hP.again _ hy) printed cap

/-- An act that changes no node and does not restart. -/
theorem Remembers.quiet (h : Remembers f file adjacencyList transport acts sys) {e : Event D}
    (hno : (Act.serve e).change? = none) (hnodes : sys'.nodes = sys.nodes)
    (hframe : sys' = { sys with slots := sys'.slots, nodes := sys'.nodes }) :
    Remembers f file adjacencyList transport (acts ++ [.serve e]) sys' := by
  have hfile : sys'.nodesList = sys.nodesList := by rw [hframe]
  refine ⟨fun k => ?_, fun k => ?_, fun hd => ?_, ?_, ?_⟩
  · rw [hnodes, h.nodes, untilRestart_serve, lastCapacity?_of_none acts hno]
  · rw [hfile, h.reload, saved_snoc, hno, lastCapacity?_of_none acts hno, Option.isSome_none,
      Bool.or_false]
  · rw [hfile]
    exact h.distinct hd
  · rw [hnodes]
    exact h.ints
  · rw [hframe]
    exact h.frame

/-- A change of capacity writes the file, in which the coordinates are as printed. -/
theorem Remembers.update (h : Remembers f file adjacencyList transport acts sys)
    (hP : PrintsOnce P f) (hcoords : CoordsMeet P file) {r : UpdateRequest} {id cap : ℤ}
    (hu : updateEnter sys r = .inr (id, cap)) :
    Remembers f file adjacencyList transport
      (acts ++ [.serve (.update r, .update (.success id cap))]) (sys.updateCapacity id cap) := by
  obtain ⟨n, hn, _⟩ := updateEnter_inr hu
  have hnew : (Act.serve (D := D) (.update r, .update (.success id cap))).change? =
      some (id, cap) := rfl
  have hnodes : ∀ k : ℤ, (sys.updateCapacity id cap).nodes[k]? =
      (loadNodes file).1[k]?.map (Node.after f (saved (untilRestart acts))
        (lastCapacity? (acts ++ [.serve (.update r, .update (.success id cap))]) k)) := by
    intro k
    rw [getElem?_nodes_updateCapacity hn, lastCapacity?_of_some acts hnew]
    by_cases hk : k = id
    · have hold := h.nodes id
      rw [hn] at hold
      obtain ⟨n₀, hn₀, heq⟩ := Option.map_eq_some_iff.mp hold.symm
      rw [if_pos hk, if_pos hk, hk, hn₀, Option.map_some, ← heq, Node.after_set]
    · rw [if_neg hk, if_neg hk, h.nodes]
  have hints : IntCapacities (sys.updateCapacity id cap).nodes :=
    h.ints.effect (effect_of_served (served_of_updateEnter hu))
  have hprintable := printable_after hP hcoords hnodes hints
  have hsaved := nodesList_of_update (served_of_updateEnter hu)
  have hframe : (sys.updateCapacity id cap).road = sys.road ∧
      (sys.updateCapacity id cap).transport = sys.transport ∧
      (sys.updateCapacity id cap).visualPaths = sys.visualPaths := by
    rw [updateCapacity_eq hn]
    exact ⟨rfl, rfl, rfl⟩
  obtain ⟨hroad, htransport, hvisual⟩ := hframe
  refine ⟨?_, fun k => ?_, fun _ => ?_, hints, by rw [hroad, htransport, hvisual]; exact h.frame⟩
  · rw [untilRestart_serve]
    exact hnodes
  · rw [hsaved, getElem?_loadNodes_nodesText hP.readsAs hprintable, hnodes, saved_snoc, hnew,
      Option.isSome_some, Bool.or_true, Option.map_map]
    refine Option.map_congr fun n₀ hn₀ => ?_
    exact mapCoords_after_loaded hP hcoords hn₀ _ _
  · rw [hsaved]
    exact distinctIds_nodesText hP.readsAs hprintable

/-- Started again, the program has the nodes of the file. -/
theorem Remembers.restart (h : Remembers f file adjacencyList transport acts sys) :
    Remembers f file adjacencyList transport (acts ++ [.restart])
      (start sys.nodesList adjacencyList transport) := by
  have hno : (Act.restart : Act D).change? = none := rfl
  have hsaved : saved (acts ++ [.restart]) = saved acts := by
    rw [saved_snoc, hno, Option.isSome_none, Bool.or_false]
  refine ⟨fun k => ?_, fun k => ?_, h.distinct, intCapacities_loadNodes _, rfl, rfl, rfl⟩
  · rw [untilRestart_restart, hsaved, lastCapacity?_of_none acts hno]
    exact h.reload k
  · rw [hsaved, lastCapacity?_of_none acts hno]
    exact h.reload k

/-- A request granted in the history finds its ghosts among the nodes. -/
def ActDraws (sys : SmartParking D) : Act D → Prop
  | .serve e => DrawsKnown sys e
  | .restart => True

/-- **One act.** -/
theorem Remembers.does (h : Remembers f file adjacencyList transport acts sys)
    (hP : PrintsOnce P f) (hcoords : CoordsMeet P file)
    {a : Act D} (hstep : Does adjacencyList transport sys a sys') (hk : ActDraws sys a) :
    Remembers f file adjacencyList transport (acts ++ [a]) sys' := by
  cases a with
  | restart =>
    obtain rfl : sys' = start sys.nodesList adjacencyList transport := hstep
    exact h.restart
  | serve e =>
    cases effect_of_served hstep with
    | nothing _ _ hno =>
      exact h.quiet (Act.change?_eq_none.mpr hno) rfl rfl
    | @grant r _ _ _ _ hg => exact h.quiet rfl (hg.nodes_eq_iff.2 (hk r rfl)) hg.frame
    | update hu _ _ _ _ => exact h.update hP hcoords hu

section history
variable {adjacencyList transport : Text}

/-- Requests served are acts. -/
theorem does_of_served {es : List (Event D)} (h : Run (Served handle) sys es sys') :
    Run (Does adjacencyList transport) sys (es.map Act.serve) sys' := by
  refine h.invariant (I := fun es s =>
    Run (Does adjacencyList transport) sys (es.map Act.serve) s) .nil ?_
  intro es s e s' _ ih hstep
  have hdone : Does adjacencyList transport s (.serve e) s' := hstep
  rw [List.map_append, List.map_singleton]
  exact ih.snoc hdone

theorem remembers_of_history (hP : PrintsOnce P f) (hcoords : CoordsMeet P file)
    (h : Run (Does adjacencyList transport) (start file adjacencyList transport) acts sys)
    (hk : Steps (Does adjacencyList transport) (start file adjacencyList transport) acts
      fun _ s a => ActDraws s a) : Remembers f file adjacencyList transport acts sys :=
  along_of_steps (Q := fun _ s a => ActDraws s a)
    (P := fun acts s => Remembers f file adjacencyList transport acts s)
    (remembers_start f file adjacencyList transport)
    (fun _ _ _ _ hr hstep hk => hr.does hP hcoords hstep hk) hk acts sys List.prefix_rfl h

/-- **The nodes after any history**, in memory and in the file. -/
theorem nodes_of_history (hP : PrintsOnce P f) (hcoords : CoordsMeet P file)
    (h : Run (Does adjacencyList transport) (start file adjacencyList transport) acts sys)
    (hk : Steps (Does adjacencyList transport) (start file adjacencyList transport) acts
      fun _ s a => ActDraws s a) (k : ℤ) :
    sys.nodes[k]? = (loadNodes file).1[k]?.map
        (Node.after f (saved (untilRestart acts)) (lastCapacity? acts k)) ∧
      (loadNodes sys.nodesList).1[k]? = (loadNodes file).1[k]?.map
        (Node.after f (saved acts) (lastCapacity? acts k)) := by
  have hr := remembers_of_history hP hcoords h hk
  exact ⟨hr.nodes k, hr.reload k⟩

/-- After any history the state is one that the requests since the last restart reach
from the file found there. -/
theorem run_since_restart (hP : PrintsOnce P f) (hcoords : CoordsMeet P file)
    (h : Run (Does adjacencyList transport) (start file adjacencyList transport) acts sys)
    (hk : Steps (Does adjacencyList transport) (start file adjacencyList transport) acts
      fun _ s a => ActDraws s a) :
    ∃ file', Run (Served handle) (start file' adjacencyList transport) (sinceRestart acts) sys ∧
      Remembers f file adjacencyList transport (untilRestart acts)
        (start file' adjacencyList transport) := by
  induction h with
  | nil => exact ⟨file, .nil, remembers_start f file adjacencyList transport⟩
  | @snoc acts s s' a hrun hstep ih =>
    have hk' := hk.of_prefix (List.prefix_append acts [a])
    cases a with
    | serve e =>
      obtain ⟨file', hrun', hr⟩ := ih hk'
      rw [sinceRestart_serve, untilRestart_serve]
      exact ⟨file', hrun'.snoc hstep, hr⟩
    | restart =>
      obtain rfl : s' = start s.nodesList adjacencyList transport := hstep
      rw [sinceRestart_restart, untilRestart_restart]
      exact ⟨s.nodesList, .nil, (remembers_of_history hP hcoords hrun hk').restart⟩

/-- The slot table fits the nodes after any history. -/
theorem slotShape_of_history (hd : DistinctIds D file) (hP : PrintsOnce P f)
    (hcoords : CoordsMeet P file)
    (h : Run (Does adjacencyList transport) (start file adjacencyList transport) acts sys)
    (hk : Steps (Does adjacencyList transport) (start file adjacencyList transport) acts
      fun _ s a => ActDraws s a) : SlotShape sys := by
  obtain ⟨file', hrun, hr⟩ := run_since_restart hP hcoords h hk
  exact slotShape_of_served_run (hr.distinct hd) hrun

/-- A capacity change in a history meets `KeepsCount` for the places granted since the
last restart. -/
def ActKeepsCount (acts : List (Act D)) (sys : SmartParking D) : Act D → Prop
  | .serve e => KeepsCount (sinceRestart acts) sys e
  | .restart => True

theorem does_deterministic (adjacencyList transport : Text) :
    Deterministic (Does (D := D) adjacencyList transport) := by
  intro s a s₁ s₂ h₁ h₂
  cases a with
  | serve e => exact served_deterministic handle s e s₁ s₂ h₁ h₂
  | restart => exact Eq.trans h₁ (Eq.symm h₂)

/-- **The account over a history.**  The slot table fits the nodes, and in every state
the free places are the capacity less the places granted since the last restart exactly
when every change of a capacity finds no more than that granted, or asks for no more. -/
theorem accounted_of_history (hd : DistinctIds D file) (hP : PrintsOnce P f)
    (hcoords : CoordsMeet P file)
    (h : Run (Does adjacencyList transport) (start file adjacencyList transport) acts sys)
    (hk : Steps (Does adjacencyList transport) (start file adjacencyList transport) acts
      fun _ s a => ActDraws s a) :
    SlotShape sys ∧
      (Along (Does adjacencyList transport) (start file adjacencyList transport) acts
          (fun acts s => Accounted (sinceRestart acts) s) ↔
        Steps (Does adjacencyList transport) (start file adjacencyList transport) acts
          ActKeepsCount) := by
  refine ⟨slotShape_of_history hd hP hcoords h hk, ?_, fun hkeeps => ?_⟩
  · intro halong pre a s hpre hs
    cases a with
    | restart => trivial
    | serve e =>
      obtain ⟨s', hstep, hs'⟩ := h.next_step (does_deterministic adjacencyList transport) hpre hs
      have hprefix := (List.prefix_append pre [Act.serve e]).trans hpre
      have hshape := slotShape_of_history hd hP hcoords hs (hk.of_prefix hprefix)
      have hints := (remembers_of_history hP hcoords hs (hk.of_prefix hprefix)).ints
      have hacc : Accounted (sinceRestart (pre ++ [.serve e])) s' := halong _ s' hpre hs'
      rw [sinceRestart_serve] at hacc
      exact (accounted_step hshape hints (halong pre s hprefix hs)
        (effect_of_served hstep)).mp hacc
  · have hsteps : Steps (Does adjacencyList transport) (start file adjacencyList transport) acts
        fun pre s a => ActDraws s a ∧ ActKeepsCount pre s a :=
      fun pre a s hpre hs => ⟨hk pre a s hpre hs, hkeeps pre a s hpre hs⟩
    have halong := along_of_steps (Q := fun pre s a => ActDraws s a ∧ ActKeepsCount pre s a)
      (P := fun pre s => Remembers f file adjacencyList transport pre s ∧ SlotShape s ∧
        Accounted (sinceRestart pre) s)
      ⟨remembers_start f file adjacencyList transport, slotShape_start hd _ _,
        accounted_start hd adjacencyList transport⟩ ?_ hsteps
    · exact fun pre s hpre hs => (halong pre s hpre hs).2.2
    · intro pre s a s' ⟨hr, hshape, hacc⟩ hstep ⟨hdraws, hcount⟩
      refine ⟨hr.does hP hcoords hstep hdraws, ?_⟩
      cases a with
      | serve e =>
        have heffect := effect_of_served hstep
        rw [sinceRestart_serve]
        exact ⟨hshape.effect heffect, (accounted_step hshape hr.ints hacc heffect).mpr hcount⟩
      | restart =>
        -- the bookings are forgotten with the places they took
        obtain rfl : s' = start s.nodesList adjacencyList transport := hstep
        rw [sinceRestart_restart]
        exact ⟨slotShape_start (hr.distinct hd) _ _, accounted_start (hr.distinct hd) _ _⟩

omit [StreamDouble D] in
theorem actDraws_of_known {s : SmartParking D} (h : TableKnown s) (a : Act D) : ActDraws s a := by
  cases a with
  | serve e => exact fun r _ => h.ghostsKnown r
  | restart => trivial

/-- With every ghost in the file none is ever missing. -/
theorem tableKnown_of_history (hP : PrintsOnce P f) (hcoords : CoordsMeet P file)
    (hk : TableKnown (start (D := D) file adjacencyList transport))
    (h : Run (Does adjacencyList transport) (start file adjacencyList transport) acts sys) :
    TableKnown sys := by
  refine (h.invariant (I := fun acts s =>
    Remembers f file adjacencyList transport acts s ∧ TableKnown s)
    ⟨remembers_start f file adjacencyList transport, hk⟩ ?_).2
  rintro pre s a s' _ ⟨hr, hknown⟩ hstep
  have hr' := hr.does hP hcoords hstep (actDraws_of_known hknown a)
  refine ⟨hr', fun key ids hids id hid => ?_⟩
  -- the table of ghosts is the same, and so are the keys of the nodes
  rw [hr'.frame.2.2] at hids
  obtain ⟨n, hn⟩ := (mem_iff_getElem? _ _).mp (hk key ids hids id hid)
  have hloaded : (loadNodes (D := D) file).1[id]? = some n := hn
  have hget := hr'.nodes id
  rw [hloaded, Option.map_some] at hget
  exact mem_of_getElem? hget

theorem actDraws_of_tableKnown (hP : PrintsOnce P f) (hcoords : CoordsMeet P file)
    (hk : TableKnown (start (D := D) file adjacencyList transport)) (acts : List (Act D)) :
    Steps (Does adjacencyList transport) (start file adjacencyList transport) acts
      fun _ s a => ActDraws s a :=
  fun _ a _ _ hs => actDraws_of_known (tableKnown_of_history hP hcoords hk hs) a

end history

end nodes

/-! ### Two histories -/

theorem printsOnce_round :
    PrintsOnce (fun _ : Decimal => True) (Decimal.round defaultPrecision) where
  readsAs := readsAs_round
  closed _ _ := trivial
  again d _ :=
    (Decimal.round_eq_self_iff (by decide)).mpr (Decimal.hasDigits_round (by decide) d)

theorem printsOnce_whole : PrintsOnce (fun d : ℤ => -999999 ≤ d ∧ d ≤ 999999) id where
  readsAs := readsBack_whole.readsAs
  closed _ h := h
  again _ _ := rfl

/-- A capacity is changed, and the program restarted twice. -/
def changeAndRestart : List (Act Decimal) :=
  [.serve (.update (resizeA ['6']), .update (.success 1 6)), .restart, .restart]

/-- After that a coordinate of nine digits has six. -/
theorem nodes_of_history_survey : ∃ s,
    Run (Does [] []) (start (D := Decimal) surveyFile [] []) changeAndRestart s ∧
      s.nodes[(1 : ℤ)]?.map (fun n => (n.capacity, n.x)) =
        some (6, Decimal.ofScaled 303245 (-4)) := by
  have hstep : Served handle (start (D := Decimal) surveyFile [] [])
      (.update (resizeA ['6']), .update (.success 1 6))
      ((start (D := Decimal) surveyFile [] []).updateCapacity 1 6) :=
    served_of_updateEnter (by decide +kernel)
  have hrun : Run (Does [] []) (start (D := Decimal) surveyFile [] []) changeAndRestart _ :=
    ((Run.nil.snoc (e := Act.serve _) hstep).snoc (e := Act.restart) rfl).snoc
      (e := Act.restart) rfl
  have hdraws : Steps (Does [] []) (start (D := Decimal) surveyFile [] []) changeAndRestart
      fun _ s a => ActDraws s a := by
    intro pre a s hpre _
    have ha := hpre.subset (List.mem_append_right pre List.mem_cons_self)
    simp only [changeAndRestart, List.mem_cons, List.not_mem_nil, or_false, or_self] at ha
    rcases ha with rfl | rfl
    · intro r hr
      simp at hr
    · trivial
  refine ⟨_, hrun, ?_⟩
  rw [(nodes_of_history printsOnce_round (fun _ _ => ⟨trivial, trivial⟩) hrun hdraws 1).1]
  decide +kernel

theorem coordsMeet_town : CoordsMeet (fun d : ℤ => -999999 ≤ d ∧ d ≤ 999999) townFile := by
  have hall : ∀ r ∈ (nodeRecords townFile : List (NodeRecord ℤ)),
      (-999999 ≤ r.x ∧ r.x ≤ 999999) ∧ (-999999 ≤ r.y ∧ r.y ≤ 999999) := by decide +kernel
  exact hall

/-- A place granted before a restart is free after it. -/
theorem accounted_of_history_town : ∃ acts s, Run (Does [] []) town acts s ∧ acts.length = 2 ∧
    slotAt s.slots 71 10 = 2 ∧ SlotShape s := by
  obtain ⟨s, grant, body, hroute, -⟩ := exists_success (route town parkAtA)
    (fun grant => grant.covers 71 10) (by decide +kernel)
  obtain ⟨t, hg⟩ := route_success hroute
  have hstep : Does [] [] town (.serve (.route parkAtA, .route (.success grant body))) s := by
    show handle town _ = _
    rw [handle, hroute]
    rfl
  have hfile : s.nodesList = townFile := by
    rw [hg.frame]
    rfl
  have hd : DistinctIds ℤ townFile := by
    unfold DistinctIds
    decide +kernel
  have hrun := (Run.nil.snoc hstep).snoc (e := Act.restart) rfl
  refine ⟨_, _, hrun, rfl, ?_, (accounted_of_history hd printsOnce_whole coordsMeet_town hrun
    (actDraws_of_tableKnown printsOnce_whole coordsMeet_town tableKnown_town _)).1⟩
  rw [hfile]
  decide +kernel

end SmartParking
