/-
The server as it runs: `app.multithreaded()` without a lock.

Each request in flight is a thread.  The calls of `availableAtTime`,
`fallbackParking`, `reserveSlot` and `updateCapacity` on the shared tables are
atomic steps, as are the part of a handler before the first of them and the
part after the last, and the threads interleave in any order.

* `run_alone` — a thread that runs alone does what the handler does;
* `reserve_of_success` — a request that was granted has made one reservation, of
  the node and window it replies;
* `wholeBookings_iff` — every request granted has taken a place in each hour of
  its window, and no hour is granted more often than it has places, exactly when
  at every such reservation the node is still available;
* `two_requests_one_place` — which fails when two requests check before either
  of them reserves.
-/
import SmartParking.Library.Pool
import SmartParking.Occupancy

open StdMap TextStream Runs Pool

namespace SmartParking

variable {D : Type}

/-! ### Threads -/

/-- Where a request stands: the step it makes next. -/
inductive Thread (D : Type)
  | routeEnter (r : RouteRequest)
  | availableAtTime (t : Trip)
  | fallbackParking (t : Trip)
  | reserveSlot (t : Trip) (c : Choice)
  | respond (t : Trip) (c : Choice)
  | updateEnter (r : UpdateRequest)
  | updateCapacity (id cap : ℤ)
  | nodes
  | done (reply : Reply D)
  deriving DecidableEq

/-- A request that has just arrived. -/
def Thread.start : Request → Thread D
  | .route r => .routeEnter r
  | .update r => .updateEnter r
  | .nodes => .nodes

/-- The test of `parkingNode` after the choice. -/
def Thread.chosen (t : Trip) (c : Choice) : Thread D :=
  if c.parkingNode = -1 then .done (.route noParking) else .reserveSlot t c

/-- The next atomic step of a thread. -/
def Thread.next [StreamDouble D] (sys : SmartParking D) :
    Thread D → Option (SmartParking D × Thread D)
  | .routeEnter r =>
    match sys.routeEnter r with
    -- an overflow in the search is undefined behaviour: nothing is said of what follows
    | .error _ => none
    | .ok (.inl reply) => some (sys, .done (.route reply))
    | .ok (.inr t) => some (sys, .availableAtTime t)
  | .availableAtTime t =>
    if sys.availableAtTime t.dest t.startH t.endH then
      some (sys, Thread.chosen t { fallback := false, parkingNode := t.dest })
    else some (sys, .fallbackParking t)
  | .fallbackParking t =>
    some (sys, Thread.chosen t
      { fallback := true, parkingNode := sys.fallbackParking t.realPath t.startH t.endH })
  | .reserveSlot t c => some (sys.reserveSlot c.parkingNode t.startH t.endH, .respond t c)
  | .respond t c => some ((sys.respond t c).1, .done (.route (sys.respond t c).2))
  | .updateEnter r =>
    match sys.updateEnter r with
    | .inl reply => some (sys, .done (.update reply))
    | .inr (id, cap) => some (sys, .updateCapacity id cap)
  | .updateCapacity id cap => some (sys.updateCapacity id cap, .done (.update (.success id cap)))
  | .nodes => some (sys, .done (.nodes sys.nodeViews))
  | .done _ => none

/-- How far a thread has come. -/
def Thread.rank : Thread D → ℕ
  | .routeEnter _ => 0
  | .availableAtTime _ => 1
  | .fallbackParking _ => 2
  | .reserveSlot _ _ => 3
  | .respond _ _ => 4
  | .updateEnter _ => 0
  | .updateCapacity _ _ => 1
  | .nodes => 0
  | .done _ => 5

/-- The grant of a thread that has replied with one. -/
def Thread.grant? : Thread D → Option Grant
  | .done (.route (.success grant _)) => some grant
  | _ => none

/-- **What one step can do.** -/
inductive Thread.Move (sys : SmartParking D) [StreamDouble D] :
    Thread D → SmartParking D → Thread D → Prop
  | refuse {r : RouteRequest} {reply : RouteReply D} :
      (∀ grant body, reply ≠ .success grant body) →
      Move sys (.routeEnter r) sys (.done (.route reply))
  | find {r : RouteRequest} {t : Trip} :
      t.Found sys r → Move sys (.routeEnter r) sys (.availableAtTime t)
  | pass {t : Trip} :
      sys.availableAtTime t.dest t.startH t.endH = false →
      Move sys (.availableAtTime t) sys (.fallbackParking t)
  | choose {th : Thread D} {t : Trip} {c : Choice} :
      th = .availableAtTime t ∨ th = .fallbackParking t → c.parkingNode ≠ -1 →
      sys.availableAtTime c.parkingNode t.startH t.endH = true →
      Move sys th sys (.reserveSlot t c)
  | giveUp {th : Thread D} {t : Trip} :
      th = .availableAtTime t ∨ th = .fallbackParking t →
      Move sys th sys (.done (.route noParking))
  | reserve {t : Trip} {c : Choice} :
      Move sys (.reserveSlot t c) (sys.reserveSlot c.parkingNode t.startH t.endH) (.respond t c)
  | respond {t : Trip} {c : Choice} {body : RouteBody D} :
      Move sys (.respond t c) { sys with nodes := touchAll sys.nodes (drawnIds sys t c) }
        (.done (.route (.success (t.grant sys c) body)))
  | reject {r : UpdateRequest} {reply : UpdateReply} :
      Move sys (.updateEnter r) sys (.done (.update reply))
  | accept {r : UpdateRequest} {id cap : ℤ} {n : Node D} :
      sys.nodes[id]? = some n → Move sys (.updateEnter r) sys (.updateCapacity id cap)
  | update {id cap : ℤ} :
      Move sys (.updateCapacity id cap) (sys.updateCapacity id cap)
        (.done (.update (.success id cap)))
  | view : Move sys .nodes sys (.done (.nodes sys.nodeViews))

section step
variable [StreamDouble D] {sys sys' : SmartParking D} {th th' : Thread D}

theorem Thread.move_chosen {t : Trip} {c : Choice}
    (hth : th = .availableAtTime t ∨ th = .fallbackParking t)
    (havail : c.parkingNode ≠ -1 →
      sys.availableAtTime c.parkingNode t.startH t.endH = true) :
    Thread.Move sys th sys (.chosen t c) := by
  rw [Thread.chosen]
  by_cases hp : c.parkingNode = -1
  · rw [if_pos hp]
    exact .giveUp hth
  · rw [if_neg hp]
    exact .choose hth hp (havail hp)

theorem Thread.move_of_next (h : th.next sys = some (sys', th')) : Thread.Move sys th sys' th' := by
  cases th with
  | routeEnter r =>
    simp only [Thread.next] at h
    split at h
    · simp at h
    · rename_i reply hr
      simp only [Option.some.injEq, Prod.mk.injEq] at h
      obtain ⟨rfl, rfl⟩ := h
      exact .refuse (routeEnter_reply hr)
    · rename_i t hr
      simp only [Option.some.injEq, Prod.mk.injEq] at h
      obtain ⟨rfl, rfl⟩ := h
      exact .find (routeEnter_trip.mp hr)
  | availableAtTime t =>
    simp only [Thread.next] at h
    split at h
    · rename_i ha
      simp only [Option.some.injEq, Prod.mk.injEq] at h
      obtain ⟨rfl, rfl⟩ := h
      exact Thread.move_chosen (.inl rfl) fun _ => ha
    · rename_i ha
      simp only [Option.some.injEq, Prod.mk.injEq] at h
      obtain ⟨rfl, rfl⟩ := h
      exact .pass (by simpa using ha)
  | fallbackParking t =>
    simp only [Thread.next, Option.some.injEq, Prod.mk.injEq] at h
    obtain ⟨rfl, rfl⟩ := h
    refine Thread.move_chosen (.inr rfl) fun hp => ?_
    rcases fallbackParking_cases sys t.realPath t.startH t.endH with
      ⟨hnone, _⟩ | ⟨_, p, _, _, hfall, havail, _⟩
    · exact absurd hnone hp
    · rw [hfall]
      exact havail
  | reserveSlot t c =>
    simp only [Thread.next, Option.some.injEq, Prod.mk.injEq] at h
    obtain ⟨rfl, rfl⟩ := h
    exact .reserve
  | respond t c =>
    obtain ⟨body, hresp⟩ := respond_eq sys t c
    simp only [Thread.next, hresp, Option.some.injEq, Prod.mk.injEq] at h
    obtain ⟨rfl, rfl⟩ := h
    exact .respond
  | updateEnter r =>
    simp only [Thread.next] at h
    split at h
    · simp only [Option.some.injEq, Prod.mk.injEq] at h
      obtain ⟨rfl, rfl⟩ := h
      exact .reject
    · rename_i id cap hu
      simp only [Option.some.injEq, Prod.mk.injEq] at h
      obtain ⟨rfl, rfl⟩ := h
      obtain ⟨n, hn, _⟩ := updateEnter_inr hu
      exact .accept hn
  | updateCapacity id cap =>
    simp only [Thread.next, Option.some.injEq, Prod.mk.injEq] at h
    obtain ⟨rfl, rfl⟩ := h
    exact .update
  | nodes =>
    simp only [Thread.next, Option.some.injEq, Prod.mk.injEq] at h
    obtain ⟨rfl, rfl⟩ := h
    exact .view
  | done reply => simp [Thread.next] at h

theorem Thread.rank_lt (h : th.next sys = some (sys', th')) : th.rank < th'.rank := by
  cases Thread.move_of_next h with
  | choose hth _ _ => rcases hth with rfl | rfl <;> simp [Thread.rank]
  | giveUp hth => rcases hth with rfl | rfl <;> simp [Thread.rank]
  | _ => simp [Thread.rank]

/-- No step removes a node or turns a place into a ghost. -/
theorem Thread.place_kept (h : th.next sys = some (sys', th')) {id : ℤ}
    (hid : isPlace sys.nodes id = true) : isPlace sys'.nodes id = true := by
  cases Thread.move_of_next h with
  | reserve =>
    rw [nodes_reserveSlot]
    exact hid
  | respond => exact isPlace_touchAll hid _
  | update =>
    rw [isPlace_updateCapacity]
    exact hid
  | _ => exact hid

/-- No step changes the roads. -/
theorem Thread.road_of_next (h : th.next sys = some (sys', th')) : sys'.road = sys.road := by
  cases Thread.move_of_next h with
  | reserve => rw [reserveSlot_frame]
  | update => exact road_updateCapacity sys _ _
  | _ => rfl

end step

/-! ### Runs of the pool -/

/-- The requests have arrived and none has been looked at. -/
def inFlight (sys : SmartParking D) (requests : List Request) :
    Config (SmartParking D) (Thread D) :=
  ⟨sys, requests.map Thread.start⟩

/-- What is known of a trip once its parking node is chosen. -/
def Thread.Ready (sys : SmartParking D) : Thread D → Prop
  | .reserveSlot t c => ValidWindow t.startH t.endH ∧ isPlace sys.nodes c.parkingNode = true
  | .respond t c => ValidWindow t.startH t.endH ∧ isPlace sys.nodes c.parkingNode = true
  | _ => True

/-- The reservation that a thread past it has made. -/
def Thread.Traced (es : List (ℕ × Thread D)) (i : ℕ) : Thread D → Prop
  | .respond t c => (i, .reserveSlot t c) ∈ es
  | .done (.route (.success grant _)) => ∃ t c, (i, .reserveSlot t c) ∈ es ∧
      grant.parkingNode = c.parkingNode ∧ grant.startH = t.startH ∧ grant.endH = t.endH
  | _ => True

theorem Thread.Traced.mono {es fs : List (ℕ × Thread D)} (hsub : es ⊆ fs) {i : ℕ} {th : Thread D}
    (h : th.Traced es i) : th.Traced fs i := by
  cases th with
  | respond t c => exact hsub h
  | done reply =>
    cases reply with
    | route reply =>
      cases reply with
      | success grant body =>
        obtain ⟨t, c, hmem, heq⟩ := h
        exact ⟨t, c, hsub hmem, heq⟩
      | _ => trivial
    | _ => trivial
  | _ => trivial

section run
variable [StreamDouble D] {sys : SmartParking D} {requests : List Request}
  {es : List (ℕ × Thread D)} {c : Config (SmartParking D) (Thread D)}

theorem ready_of_run (h : Run (Step Thread.next) (inFlight sys requests) es c) :
    ∀ th ∈ c.threads, th.Ready c.shared := by
  refine (pool_invariant (I := fun _ => True) (L := Thread.Ready) ?_ ?_ trivial ?_ h).2
  · rintro s th s' th' - hready hnext
    refine ⟨trivial, ?_⟩
    cases Thread.move_of_next hnext with
    | choose _ _ havail =>
      obtain ⟨hw, hplace, _⟩ := availableAtTime_iff.mp havail
      exact ⟨hw, hplace⟩
    | reserve => exact ⟨hready.1, by rw [nodes_reserveSlot]; exact hready.2⟩
    | _ => trivial
  · rintro s th s' th' u - _ hnext hu
    cases u with
    | reserveSlot t c => exact ⟨hu.1, Thread.place_kept hnext hu.2⟩
    | respond t c => exact ⟨hu.1, Thread.place_kept hnext hu.2⟩
    | _ => trivial
  · intro th hth
    obtain ⟨request, _, rfl⟩ := List.mem_map.mp hth
    cases request <;> trivial

theorem traced_of_run (h : Run (Step Thread.next) (inFlight sys requests) es c) :
    ∀ (i : ℕ) (th : Thread D), c.threads[i]? = some th → th.Traced es i := by
  refine h.invariant
    (I := fun es c => ∀ (i : ℕ) (th : Thread D), c.threads[i]? = some th → th.Traced es i) ?_ ?_
  · intro i th hth
    obtain ⟨request, _, rfl⟩ := List.mem_map.mp (List.mem_of_getElem? hth)
    cases request <;> trivial
  · rintro es c ⟨j, u⟩ _ _ ih ⟨hj, s', u', hnext, rfl⟩ i th hth
    rw [getElem?_set_step hj] at hth
    by_cases hij : i = j
    · -- the thread that moves: its reservation is the label just added
      rw [if_pos hij, Option.some_inj] at hth
      subst hth hij
      cases Thread.move_of_next hnext with
      | reserve => exact List.mem_append_right _ List.mem_cons_self
      | @respond t c body =>
        exact ⟨t, c, List.mem_append_left _ (ih i _ hj), rfl, rfl, rfl⟩
      | @refuse r reply hno =>
        cases reply with
        | success grant body => exact absurd rfl (hno grant body)
        | _ => trivial
      | _ => trivial
    · rw [if_neg hij] at hth
      exact (ih i th hth).mono (List.subset_append_left _ _)

/-- The reservation of thread `i`, of the node and window of the grant, leads from
`before` to `after` in the run. -/
def ReservesAt (c₀ : Config (SmartParking D) (Thread D)) (es : List (ℕ × Thread D)) (i : ℕ)
    (grant : Grant) (before after : Config (SmartParking D) (Thread D)) : Prop :=
  ∃ pre t ch, pre ++ [(i, .reserveSlot t ch)] <+: es ∧ Run (Step Thread.next) c₀ pre before ∧
    Step Thread.next before (i, .reserveSlot t ch) after ∧
    grant.parkingNode = ch.parkingNode ∧ grant.startH = t.startH ∧ grant.endH = t.endH

/-- Thread `i` has replied with a grant. -/
def Grants (c : Config (SmartParking D) (Thread D)) (i : ℕ) (grant : Grant) : Prop :=
  c.threads[i]?.bind Thread.grant? = some grant

omit [StreamDouble D] in
theorem grants_iff {i : ℕ} {grant : Grant} : Grants c i grant ↔
    ∃ body, c.threads[i]? = some (.done (.route (.success grant body))) := by
  rw [Grants, Option.bind_eq_some_iff]
  constructor
  · rintro ⟨th, hth, hgrant⟩
    rw [Thread.grant?.eq_def] at hgrant
    split at hgrant
    · rw [Option.some_inj] at hgrant
      subst hgrant
      exact ⟨_, hth⟩
    · simp at hgrant
  · rintro ⟨body, hth⟩
    exact ⟨_, hth, rfl⟩

/-- A request that was granted has made its reservation. -/
theorem reserve_of_success (h : Run (Step Thread.next) (inFlight sys requests) es c) {i : ℕ}
    {grant : Grant} (hg : Grants c i grant) :
    ∃ before after, ReservesAt (inFlight sys requests) es i grant before after := by
  obtain ⟨body, hth⟩ := grants_iff.mp hg
  obtain ⟨t, ch, hmem, h1, h2, h3⟩ := traced_of_run h i _ hth
  obtain ⟨pre, post, rfl⟩ := List.append_of_mem hmem
  have hpre : pre ++ [(i, .reserveSlot t ch)] <+: pre ++ (i, .reserveSlot t ch) :: post :=
    ⟨post, by simp⟩
  obtain ⟨after, hafter⟩ := h.restrict hpre
  obtain ⟨before, hbefore, hstep⟩ := run_snoc_iff.mp hafter
  exact ⟨before, after, pre, t, ch, hpre, hbefore, hstep, h1, h2, h3⟩

/-- It has made only one. -/
theorem ReservesAt.unique (h : Run (Step Thread.next) (inFlight sys requests) es c) {i : ℕ}
    {grant grant' : Grant} {b b' a a' : Config (SmartParking D) (Thread D)}
    (h1 : ReservesAt (inFlight sys requests) es i grant b a)
    (h2 : ReservesAt (inFlight sys requests) es i grant' b' a') : b = b' ∧ a = a' := by
  obtain ⟨pre, t, ch, hp, hb, hs, _⟩ := h1
  obtain ⟨pre', t', ch', hp', hb', hs', _⟩ := h2
  obtain ⟨rfl, heq⟩ := label_unique (fun _ _ _ _ => Thread.rank_lt) h hp hp' rfl
  have hbb := hb.unique step_deterministic hb'
  subst hbb
  rw [heq] at hs
  exact ⟨rfl, step_deterministic _ _ _ _ hs hs'⟩

/-- The reservation takes a place from each hour exactly when the node is still
available. -/
theorem ReservesAt.takesOne_iff {i : ℕ} {grant : Grant}
    {before after : Config (SmartParking D) (Thread D)}
    (h : ReservesAt (inFlight sys requests) es i grant before after) :
    TakesOne before.shared.slots after.shared.slots grant.parkingNode grant.startH grant.endH ↔
      before.shared.availableAtTime grant.parkingNode grant.startH grant.endH = true := by
  obtain ⟨pre, t, ch, _, hrun, ⟨hth, s', th', hnext, rfl⟩, hp, hs, he⟩ := h
  obtain ⟨hw, hplace⟩ := ready_of_run hrun _ (List.mem_of_getElem? hth)
  simp only [Thread.next, Option.some.injEq, Prod.mk.injEq] at hnext
  obtain ⟨rfl, _⟩ := hnext
  rw [hp, hs, he, takesOne_reserveSlot_iff hw, availableAtTime_iff]
  exact ⟨fun hfree => ⟨hw, hplace, hfree⟩, fun havail => havail.2.2⟩

/-! ### Counting the grants of a run without updates -/

/-- The threads that have been granted the node at the hour. -/
def successes (c : Config (SmartParking D) (Thread D)) (id h : ℤ) : ℕ :=
  (c.threads.filterMap Thread.grant?).countP fun grant => grant.covers id h

/-- A reservation of the node at the hour, by a thread granted in the end. -/
def bookedLabel (final : Config (SmartParking D) (Thread D)) (id h : ℤ) (e : ℕ × Thread D) :
    Bool :=
  match e.2 with
  | .reserveSlot t ch => (final.threads[e.1]?.bind Thread.grant?).isSome &&
      decide (id = ch.parkingNode ∧ t.startH ≤ h ∧ h < t.endH)
  | _ => false

def Thread.NoUpdate : Thread D → Prop
  | .updateEnter _ => False
  | .updateCapacity _ _ => False
  | _ => True

theorem noUpdate_of_run (hno : ∀ request ∈ requests, ∀ r, request ≠ .update r)
    (h : Run (Step Thread.next) (inFlight sys requests) es c) : ∀ th ∈ c.threads, th.NoUpdate := by
  refine (pool_invariant (I := fun _ => True) (L := fun _ => Thread.NoUpdate) ?_ ?_ trivial ?_ h).2
  · rintro s th s' th' - hth hnext
    refine ⟨trivial, ?_⟩
    cases Thread.move_of_next hnext with
    | accept _ => exact hth
    | _ => trivial
  · exact fun _ _ _ _ _ _ _ _ hu => hu
  · intro th hth
    obtain ⟨request, hmem, rfl⟩ := List.mem_map.mp hth
    cases request with
    | update r => exact absurd rfl (hno _ hmem r)
    | _ => trivial

/-- One step of a run without updates: free places and bookings counted together
do not grow, if the bookings counted find a free place. -/
theorem step_count {final : Config (SmartParking D) (Thread D)} {id h : ℤ} {e : ℕ × Thread D}
    {c' : Config (SmartParking D) (Thread D)} (hstep : Step Thread.next c e c')
    (hno : e.2.NoUpdate) (hready : e.2.Ready c.shared)
    (hfree : bookedLabel final id h e = true → 0 < slotAt c.shared.slots id h)
    (hpos : 0 ≤ slotAt c.shared.slots id h) :
    ((if bookedLabel final id h e = true then 1 else 0 : ℤ) + slotAt c'.shared.slots id h ≤
        slotAt c.shared.slots id h) ∧ 0 ≤ slotAt c'.shared.slots id h := by
  obtain ⟨i, th⟩ := e
  obtain ⟨_, s', th', hnext, rfl⟩ := hstep
  cases Thread.move_of_next hnext with
  | @reserve t ch =>
    have hslot := slotAt_reserveSlot c.shared ch.parkingNode hready.1 id h
    by_cases hin : id = ch.parkingNode ∧ t.startH ≤ h ∧ h < t.endH
    · by_cases hzero : 0 < slotAt c.shared.slots id h
      · rw [if_pos ⟨hin, hzero⟩] at hslot
        rw [hslot]
        split <;> omega
      · -- nothing is taken, and then the booking is none of those counted
        rw [if_neg fun hc => hzero hc.2] at hslot
        rw [hslot, if_neg fun hc => hzero (hfree hc)]
        omega
    · have hlabel : ¬ bookedLabel final id h (i, .reserveSlot t ch) = true := by
        simp [bookedLabel, hin]
      rw [if_neg fun hc => hin hc.1] at hslot
      rw [hslot, if_neg hlabel]
      omega
  | update => exact absurd hno (by simp [Thread.NoUpdate])
  | choose hth _ _ => rcases hth with rfl | rfl <;> exact ⟨by simp [bookedLabel], hpos⟩
  | giveUp hth => rcases hth with rfl | rfl <;> exact ⟨by simp [bookedLabel], hpos⟩
  | _ => exact ⟨by simp [bookedLabel], hpos⟩

/-- Where every reservation of a grant finds its node available, every booking counted
finds a free place. -/
theorem free_of_bookedLabel (h : Run (Step Thread.next) (inFlight sys requests) es c) (id hour : ℤ)
    (havail : ∀ i grant, Grants c i grant → ∀ before after,
      ReservesAt (inFlight sys requests) es i grant before after →
      before.shared.availableAtTime grant.parkingNode grant.startH grant.endH = true) :
    Steps (Step Thread.next) (inFlight sys requests) es fun _ s e =>
      bookedLabel c id hour e = true → 0 < slotAt s.shared.slots id hour := by
  rintro pre ⟨i, th⟩ s hpre hs hlabel
  cases th with
  | reserveSlot t ch =>
    simp only [bookedLabel, Bool.and_eq_true, decide_eq_true_eq, Option.isSome_iff_exists]
      at hlabel
    obtain ⟨⟨grant, hg⟩, rfl, h1, h2⟩ := hlabel
    obtain ⟨b, a, hres⟩ := reserve_of_success h hg
    obtain ⟨_, _, hfr⟩ := availableAtTime_iff.mp (havail i grant hg b a hres)
    obtain ⟨pre', t', ch', hp', hb', hstep', e1, e2, e3⟩ := hres
    obtain ⟨rfl, heq⟩ := label_unique (fun _ _ _ _ => Thread.rank_lt) h hpre hp' rfl
    obtain ⟨rfl, rfl⟩ := Thread.reserveSlot.inj heq
    obtain rfl := Run.unique step_deterministic hs hb'
    obtain ⟨free, hslot, hp⟩ := hfr hour (by omega) (by omega)
    rw [slotAt, ← e1, hslot]
    exact hp
  | _ => simp [bookedLabel] at hlabel

/-- Then bookings counted and free places together never exceed the places at the
start. -/
theorem bookings_le (hno : ∀ request ∈ requests, ∀ r, request ≠ .update r)
    (h : Run (Step Thread.next) (inFlight sys requests) es c) (id hour : ℤ)
    (hpos : 0 ≤ slotAt sys.slots id hour)
    (hfree : Steps (Step Thread.next) (inFlight sys requests) es fun _ s e =>
      bookedLabel c id hour e = true → 0 < slotAt s.shared.slots id hour) :
    (es.countP (bookedLabel c id hour) : ℤ) + slotAt c.shared.slots id hour ≤
        slotAt sys.slots id hour ∧ 0 ≤ slotAt c.shared.slots id hour := by
  have halong : Along (Step Thread.next) (inFlight sys requests) es fun pre s =>
      ((pre.countP (bookedLabel c id hour) : ℤ) + slotAt s.shared.slots id hour ≤
        slotAt sys.slots id hour) ∧ 0 ≤ slotAt s.shared.slots id hour := along_of_steps
    (Q := fun _ s e => (bookedLabel c id hour e = true → 0 < slotAt s.shared.slots id hour) ∧
      e.2.NoUpdate ∧ e.2.Ready s.shared)
    ⟨by simp [inFlight], hpos⟩
    (fun pre s e s' hP hstep hQ => by
      obtain ⟨hle, hnonneg⟩ := step_count hstep hQ.2.1 hQ.2.2 hQ.1 hP.2
      refine ⟨?_, hnonneg⟩
      rw [List.countP_append, List.countP_singleton]
      push_cast
      have := hP.1
      omega)
    (fun pre e s hpre hs => by
      obtain ⟨s', hstep, _⟩ := h.next_step step_deterministic hpre hs
      have hmem := List.mem_of_getElem? hstep.1
      exact ⟨hfree pre e s hpre hs, noUpdate_of_run hno hs _ hmem, ready_of_run hs _ hmem⟩)
  exact halong es c List.prefix_rfl h

/-- Every grant has its booking among those counted. -/
theorem successes_le_bookings (h : Run (Step Thread.next) (inFlight sys requests) es c)
    (id hour : ℤ) : successes c id hour ≤ es.countP (bookedLabel c id hour) := by
  refine countP_threads_le fun i grant hg hcov => ?_
  obtain ⟨b, a, pre, t, ch, ⟨post, rfl⟩, _, _, h1, h2, h3⟩ := reserve_of_success h hg
  obtain ⟨hid, hs, he⟩ := Grant.covers_iff.mp hcov
  refine ⟨(i, .reserveSlot t ch), by simp, rfl, ?_⟩
  have hsome : (c.threads[i]?.bind Thread.grant?).isSome = true := by
    rw [show c.threads[i]?.bind Thread.grant? = some grant from hg]
    rfl
  simp only [bookedLabel, hsome, Bool.true_and, decide_eq_true_eq]
  exact ⟨by omega, by omega, by omega⟩

/-- With every booking counted finding a free place, the grants of a node at an
hour are no more than the places it had at the start. -/
theorem successes_le (hno : ∀ request ∈ requests, ∀ r, request ≠ .update r)
    (h : Run (Step Thread.next) (inFlight sys requests) es c) (id hour : ℤ)
    (hpos : 0 ≤ slotAt sys.slots id hour)
    (havail : ∀ i grant, Grants c i grant → ∀ before after,
      ReservesAt (inFlight sys requests) es i grant before after →
      before.shared.availableAtTime grant.parkingNode grant.startH grant.endH = true) :
    (successes c id hour : ℤ) ≤ slotAt sys.slots id hour := by
  obtain ⟨hle, hnonneg⟩ := bookings_le hno h id hour hpos (free_of_bookedLabel h id hour havail)
  have hcount := successes_le_bookings h id hour
  omega

/-- Every request granted has taken a place from each hour of its window. -/
def WholeBookings (c₀ : Config (SmartParking D) (Thread D)) (es : List (ℕ × Thread D))
    (c : Config (SmartParking D) (Thread D)) : Prop :=
  ∀ i grant, Grants c i grant → ∃ before after, ReservesAt c₀ es i grant before after ∧
    TakesOne before.shared.slots after.shared.slots grant.parkingNode grant.startH grant.endH

/-- Whenever a request that is granted reserves its node, the node is available. -/
def StillAvailable (c₀ : Config (SmartParking D) (Thread D)) (es : List (ℕ × Thread D))
    (c : Config (SmartParking D) (Thread D)) : Prop :=
  ∀ i grant, Grants c i grant → ∀ before after, ReservesAt c₀ es i grant before after →
    before.shared.availableAtTime grant.parkingNode grant.startH grant.endH = true

/-- Without updates, no node is granted at an hour more often than it has places
there at the start: for distinct ids, than its capacity in the file. -/
def WithinLoaded (nodesList : Text) (requests : List Request)
    (c : Config (SmartParking D) (Thread D)) : Prop :=
  (∀ request ∈ requests, ∀ r, request ≠ .update r) → ∀ id h,
    successes c id h ≤ slotAt (loadNodes (D := D) nodesList).2 id h ∧
      (DistinctIds D nodesList → ∀ n : Node D, (loadNodes nodesList).1[id]? = some n →
        successes c id h ≤ max 0 n.capacity)

theorem wholeBookings_iff_stillAvailable
    (h : Run (Step Thread.next) (inFlight sys requests) es c) :
    WholeBookings (inFlight sys requests) es c ↔ StillAvailable (inFlight sys requests) es c := by
  constructor
  · intro hw i grant hg before after hres
    obtain ⟨b, a, hres', htakes⟩ := hw i grant hg
    obtain ⟨rfl, rfl⟩ := hres.unique h hres'
    exact hres.takesOne_iff.mp htakes
  · intro ha i grant hg
    obtain ⟨b, a, hres⟩ := reserve_of_success h hg
    exact ⟨b, a, hres, hres.takesOne_iff.mpr (ha i grant hg b a hres)⟩

theorem StillAvailable.withinLoaded {nodesList adjacencyList transport : Text}
    (h : Run (Step Thread.next) (inFlight (start nodesList adjacencyList transport) requests) es c)
    (ha : StillAvailable (inFlight (start nodesList adjacencyList transport) requests) es c) :
    WithinLoaded nodesList requests c := by
  intro hno id hour
  have hle := successes_le hno h id hour (slotAt_loadNodes_nonneg id hour) ha
  refine ⟨hle, fun hd n hn => ?_⟩
  exact hle.trans ((slotShape_start hd adjacencyList transport).slotAt_le hn hour)

/-- **No lost booking.**  Every request granted has its whole booking, and without
updates nothing is granted beyond what was loaded, exactly when every reservation
of a request that is granted finds its node available. -/
theorem wholeBookings_iff {nodesList adjacencyList transport : Text}
    (h : Run (Step Thread.next) (inFlight (start nodesList adjacencyList transport) requests)
      es c) :
    (WholeBookings (inFlight (start nodesList adjacencyList transport) requests) es c ∧
      WithinLoaded nodesList requests c) ↔
    StillAvailable (inFlight (start nodesList adjacencyList transport) requests) es c :=
  ⟨fun hc => (wholeBookings_iff_stillAvailable h).mp hc.1,
    fun ha => ⟨(wholeBookings_iff_stillAvailable h).mpr ha, ha.withinLoaded h⟩⟩

end run

/-! ### Two requests for one place -/

/-- A nodes file with one node, of one place. -/
def oneFile : Text := "1 A 1 0 0 0\n".toList

def oneLot : SmartParking ℤ := start oneFile [] []

/-- One request after the other: the second is refused. -/
theorem wholeBookings_iff_one : ∃ es c,
    Run (Step Thread.next) (inFlight oneLot [.route parkAtA, .route parkAtA]) es c ∧
      successes c 1 10 = 1 ∧
      ((WholeBookings (inFlight oneLot [.route parkAtA, .route parkAtA]) es c ∧
        WithinLoaded oneFile [.route parkAtA, .route parkAtA] c) ↔
      StillAvailable (inFlight oneLot [.route parkAtA, .route parkAtA]) es c) := by
  obtain ⟨es, c, hrun, htest⟩ := run_of_scheduleThen Thread.next
    (inFlight oneLot [.route parkAtA, .route parkAtA]) [0, 0, 0, 0, 1, 1, 1]
    (fun _ c => successes c 1 10 = 1) (by decide)
  exact ⟨es, c, hrun, by simpa using htest, wholeBookings_iff hrun⟩

/-- Both requests check before either reserves: both are granted the only place. -/
theorem two_requests_one_place : ∃ es c,
    Run (Step Thread.next) (inFlight oneLot [.route parkAtA, .route parkAtA]) es c ∧
      successes c 1 10 = 2 ∧ slotAt oneLot.slots 1 10 = 1 ∧
      ¬ WholeBookings (inFlight oneLot [.route parkAtA, .route parkAtA]) es c := by
  obtain ⟨es, c, hrun, htest⟩ := run_of_scheduleThen Thread.next
    (inFlight oneLot [.route parkAtA, .route parkAtA]) [0, 0, 1, 1, 0, 0, 1, 1]
    (fun _ c => successes c 1 10 = 2) (by decide)
  have htwo : successes c 1 10 = 2 := by simpa using htest
  have hone : slotAt oneLot.slots 1 10 = 1 := by decide
  refine ⟨es, c, hrun, htwo, hone, fun hw => ?_⟩
  have hno : ∀ request ∈ [Request.route parkAtA, .route parkAtA], ∀ r, request ≠ .update r := by
    simp
  have hle := successes_le hno hrun 1 10 (by decide)
    ((wholeBookings_iff_stillAvailable hrun).mp hw)
  rw [htwo, hone] at hle
  omega

/-! ### One thread alone -/

section alone
variable [StreamDouble D]

theorem step_alone {sys sys' : SmartParking D} {th th' : Thread D}
    (h : th.next sys = some (sys', th')) :
    Step Thread.next ⟨sys, [th]⟩ (0, th) ⟨sys', [th']⟩ :=
  ⟨rfl, sys', th', h, rfl⟩

/-- From the choice of the parking node on. -/
theorem run_chosen {sys sys' : SmartParking D} {reply : RouteReply D} {t : Trip} {c : Choice}
    (h : (if c.parkingNode = -1 then (sys, noParking)
      else respond (sys.reserveSlot c.parkingNode t.startH t.endH) t c) = (sys', reply)) :
    ∃ es, Run (Step Thread.next) ⟨sys, [.chosen t c]⟩ es ⟨sys', [.done (.route reply)]⟩ := by
  rw [Thread.chosen]
  by_cases hp : c.parkingNode = -1
  · rw [if_pos hp, Prod.mk.injEq] at h
    obtain ⟨rfl, rfl⟩ := h
    rw [if_pos hp]
    exact ⟨_, .nil⟩
  · rw [if_neg hp] at h
    rw [if_neg hp]
    have hreserve : (Thread.reserveSlot t c).next sys =
        some (sys.reserveSlot c.parkingNode t.startH t.endH, .respond t c) := rfl
    have hrespond : (Thread.respond t c).next (sys.reserveSlot c.parkingNode t.startH t.endH) =
        some (sys', .done (.route reply)) := by rw [Thread.next, h]
    exact ⟨_, (Run.nil.snoc (step_alone hreserve)).snoc (step_alone hrespond)⟩

/-- From the test of the destination on. -/
theorem run_found {sys sys' : SmartParking D} {r : RouteRequest} {reply : RouteReply D} {t : Trip}
    (ht : t.Found sys r) (h : route sys r = .ok (sys', reply)) :
    ∃ es, Run (Step Thread.next) ⟨sys, [.availableAtTime t]⟩ es
      ⟨sys', [.done (.route reply)]⟩ := by
  rw [route_of_found ht, ← apply_ite Except.ok] at h
  obtain ⟨es, hrest⟩ := run_chosen (Except.ok.inj h)
  rw [chooseParking] at hrest
  cases havail : sys.availableAtTime t.dest t.startH t.endH with
  | true =>
    have hcheck : (Thread.availableAtTime t).next sys =
        some (sys, .chosen t { fallback := false, parkingNode := t.dest }) := by
      rw [Thread.next, if_pos havail]
    rw [if_pos havail] at hrest
    exact ⟨_, (Run.nil.snoc (step_alone hcheck)).append hrest⟩
  | false =>
    have hcheck : (Thread.availableAtTime t).next sys = some (sys, .fallbackParking t) := by
      rw [Thread.next, if_neg (by simp [havail])]
    rw [if_neg (by simp [havail])] at hrest
    exact ⟨_, ((Run.nil.snoc (step_alone hcheck)).snoc (step_alone rfl)).append hrest⟩

/-- A thread that runs alone does what the handler does. -/
theorem run_alone {sys sys' : SmartParking D} {request : Request} {reply : Reply D}
    (h : handle sys request = .ok (sys', reply)) :
    ∃ es, Run (Step Thread.next) (inFlight sys [request]) es ⟨sys', [.done reply]⟩ := by
  cases request with
  | nodes =>
    simp only [handle, Except.ok.injEq, Prod.mk.injEq] at h
    obtain ⟨rfl, rfl⟩ := h
    exact ⟨_, Run.nil.snoc (step_alone rfl)⟩
  | update r =>
    simp only [handle, Except.ok.injEq, Prod.mk.injEq] at h
    obtain ⟨rfl, rfl⟩ := h
    rw [SmartParking.update]
    cases hu : SmartParking.updateEnter sys r with
    | inl reply =>
      have henter : (Thread.updateEnter r).next sys = some (sys, .done (.update reply)) := by
        rw [Thread.next, hu]
      exact ⟨_, Run.nil.snoc (step_alone henter)⟩
    | inr p =>
      have henter : (Thread.updateEnter r).next sys = some (sys, .updateCapacity p.1 p.2) := by
        rw [Thread.next, hu]
      exact ⟨_, (Run.nil.snoc (step_alone henter)).snoc (step_alone rfl)⟩
  | route r =>
    have hserved : Served handle sys (.route r, reply) sys' := h
    obtain ⟨routeReply, hroute, rfl⟩ := route_of_served hserved
    cases henter : SmartParking.routeEnter sys r with
    | error halt =>
      rw [SmartParking.route, henter] at hroute
      exact absurd hroute (by simp)
    | ok entered =>
      cases entered with
      | inl early =>
        rw [SmartParking.route, henter] at hroute
        simp only [Except.ok.injEq, Prod.mk.injEq] at hroute
        obtain ⟨rfl, rfl⟩ := hroute
        have hnext : (Thread.routeEnter r).next sys = some (sys, .done (.route early)) := by
          rw [Thread.next, henter]
        exact ⟨_, Run.nil.snoc (step_alone hnext)⟩
      | inr t =>
        have hnext : (Thread.routeEnter r).next sys = some (sys, .availableAtTime t) := by
          rw [Thread.next, henter]
        obtain ⟨es, hrest⟩ := run_found (routeEnter_trip.mp henter) hroute
        exact ⟨_, (Run.nil.snoc (step_alone hnext)).append hrest⟩

end alone

end SmartParking
