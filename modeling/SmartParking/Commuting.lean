/-
Operations that commute.

* `route_disjoint_commute` — two `/route` requests for disjoint windows give each
  its own reply and the same final state, whichever is served first;
* `reserveAround_eq` — bookings of one node that could all be made, and a change of
  its capacity between any two of them, end in one state, whatever the order.

What a request replies depends on the slots of its window only
(`route_reply_congr`), and where the node table has every ghost all it does to the
state is the reservation (`applyReply`).
-/
import SmartParking.NodeTable

open StdMap TextStream Runs

namespace SmartParking

variable {D : Type}

/-! ### One request, in its window -/

/-- The hours that a request asks for. -/
def RouteRequest.InWindow (r : RouteRequest) (h : ℤ) : Prop :=
  ∃ startH endH, hourParam r.sh 10 = .ok startH ∧ hourParam r.eh 12 = .ok endH ∧
    startH ≤ h ∧ h < endH

/-- No hour is asked for by both. -/
def RouteRequest.Disjoint (r₁ r₂ : RouteRequest) : Prop :=
  ∀ h, ¬ (r₁.InWindow h ∧ r₂.InWindow h)

/-- The reservation that a reply tells of. -/
def applyReply (sys : SmartParking D) : RouteReply D → SmartParking D
  | .success grant _ => sys.reserveSlot grant.parkingNode grant.startH grant.endH
  | _ => sys

/-- Two tables agree in the hours that a request asks for. -/
def AgreeIn (slots slots' : Slots) (r : RouteRequest) : Prop :=
  ∀ h, r.InWindow h → ∀ id, slot? slots' id h = slot? slots id h

theorem Trip.Found.inWindow_iff {sys : SmartParking D} {r : RouteRequest} {t : Trip}
    (ht : t.Found sys r) (h : ℤ) : r.InWindow h ↔ t.startH ≤ h ∧ h < t.endH := by
  constructor
  · rintro ⟨startH, endH, hs, he, hin⟩
    obtain rfl := Except.ok.inj (hs.symm.trans ht.startH)
    obtain rfl := Except.ok.inj (he.symm.trans ht.endH)
    exact hin
  · exact fun hin => ⟨_, _, ht.startH, ht.endH, hin⟩

theorem chooseParking_congr {sys : SmartParking D} {slots' : Slots} {r : RouteRequest} {t : Trip}
    (ht : t.Found sys r) (hagree : AgreeIn sys.slots slots' r) :
    chooseParking { sys with slots := slots' } t = chooseParking sys t := by
  have havail : ∀ id, availableAtTime { sys with slots := slots' } id t.startH t.endH =
      sys.availableAtTime id t.startH t.endH := fun id =>
    availableAtTime_congr rfl fun h h1 h2 => hagree h ((ht.inWindow_iff h).mpr ⟨h1, h2⟩) id
  simp only [chooseParking, fallbackParking, havail]

/-- Replying changes the slots only. -/
theorem applyReply_frame (sys : SmartParking D) (reply : RouteReply D) :
    applyReply sys reply = { sys with slots := (applyReply sys reply).slots } := by
  cases reply with
  | success grant body => exact reserveSlot_frame sys _ _ _
  | _ => rfl

/-- Reservations of windows without a common hour commute. -/
theorem reserveSlot_comm (sys : SmartParking D) {p₁ s₁ e₁ p₂ s₂ e₂ : ℤ} (hw₁ : ValidWindow s₁ e₁)
    (hw₂ : ValidWindow s₂ e₂) (hdisj : ∀ h, s₁ ≤ h → h < e₁ → s₂ ≤ h → ¬ h < e₂) :
    (sys.reserveSlot p₁ s₁ e₁).reserveSlot p₂ s₂ e₂ =
      (sys.reserveSlot p₂ s₂ e₂).reserveSlot p₁ s₁ e₁ := by
  have hslots : ((sys.reserveSlot p₁ s₁ e₁).reserveSlot p₂ s₂ e₂).slots =
      ((sys.reserveSlot p₂ s₂ e₂).reserveSlot p₁ s₁ e₁).slots := by
    refine slots_ext (fun id => by simp only [mem_reserveSlot]) fun id h => ?_
    simp only [slot?_reserveSlot hw₁, slot?_reserveSlot hw₂]
    by_cases h1 : s₁ ≤ h ∧ h < e₁
    · have h2 : ¬ (s₂ ≤ h ∧ h < e₂) := fun h2 => hdisj h h1.1 h1.2 h2.1 h2.2
      simp only [h2, and_false, if_false]
    · simp only [h1, and_false, if_false]
  rw [reserveSlot_frame (sys.reserveSlot p₁ s₁ e₁), hslots,
    reserveSlot_frame (sys.reserveSlot p₂ s₂ e₂), reserveSlot_frame sys p₁,
    reserveSlot_frame sys p₂]

section route
variable [Zero D] {sys sys' : SmartParking D}

/-- Drawing does not read the slots. -/
theorem respond_slots (sys : SmartParking D) (slots' : Slots) (t : Trip) (c : Choice) :
    (respond { sys with slots := slots' } t c).2 = (respond sys t c).2 := rfl

/-- **The reply is local.**  It depends on the slots of the window only. -/
theorem route_reply_congr {slots' : Slots} {r : RouteRequest}
    (hagree : AgreeIn sys.slots slots' r) :
    (route { sys with slots := slots' } r).map Prod.snd = (route sys r).map Prod.snd := by
  have henter : routeEnter { sys with slots := slots' } r = routeEnter sys r := rfl
  rw [route, route, henter]
  cases hr : routeEnter sys r with
  | error halt => rfl
  | ok out =>
    cases out with
    | inl reply => rfl
    | inr t =>
      have hchoice := chooseParking_congr (routeEnter_trip.mp hr) hagree
      dsimp only
      rw [hchoice]
      split
      · rfl
      · rw [reserveSlot_frame, reserveSlot_frame sys]
        exact congrArg Except.ok (respond_slots _ _ _ _)

/-- Where every ghost is known, a request does to the state what its reply says. -/
theorem state_of_route (hk : TableKnown sys) {r : RouteRequest} {reply : RouteReply D}
    (h : route sys r = .ok (sys', reply)) : sys' = applyReply sys reply := by
  rcases route_cases h with ⟨rfl, hno⟩ | ⟨grant, body, t, rfl, hg⟩
  · cases reply with
    | success grant body => exact absurd rfl (hno grant body)
    | _ => rfl
  · have hnodes := hg.nodes_eq_iff.2 (hk.ghostsKnown r)
    rw [hg.nodes] at hnodes
    rw [hg.state, hnodes, applyReply]
    exact (congrArg (fun nodes => { sys.reserveSlot grant.parkingNode grant.startH grant.endH with
      nodes := nodes }) (nodes_reserveSlot sys _ _ _)).symm

/-- A request, by its reply and what that does. -/
theorem route_eq_ok_iff (hk : TableKnown sys) {r : RouteRequest} {reply : RouteReply D} :
    route sys r = .ok (sys', reply) ↔
      (route sys r).map Prod.snd = .ok reply ∧ sys' = applyReply sys reply := by
  constructor
  · intro h
    exact ⟨by rw [h]; rfl, state_of_route hk h⟩
  · rintro ⟨h, rfl⟩
    cases hr : route sys r with
    | error halt => simp [hr, Except.map] at h
    | ok p =>
      obtain ⟨s, reply'⟩ := p
      rw [hr] at h
      obtain rfl : reply' = reply := Except.ok.inj h
      rw [state_of_route hk hr]

/-- A reply with a grant has reserved the window asked for. -/
theorem window_of_reply {r : RouteRequest} {grant : Grant} {body : RouteBody D}
    (h : (route sys r).map Prod.snd = .ok (.success grant body)) :
    ValidWindow grant.startH grant.endH ∧
      ∀ k, grant.startH ≤ k → k < grant.endH → r.InWindow k := by
  cases hr : route sys r with
  | error halt => simp [hr, Except.map] at h
  | ok p =>
    obtain ⟨s, reply⟩ := p
    rw [hr] at h
    obtain rfl : reply = .success grant body := Except.ok.inj h
    obtain ⟨t, hg⟩ := route_success hr
    refine ⟨hg.window, fun k h1 h2 => (hg.found.inWindow_iff k).mpr ?_⟩
    rw [hg.grant_eq] at h1 h2
    exact ⟨h1, h2⟩

/-! ### Two requests -/

/-- Both requests, one after the other. -/
def routeBoth (sys : SmartParking D) (r₁ r₂ : RouteRequest) :
    Except Halt (SmartParking D × RouteReply D × RouteReply D) := do
  let (sys, reply₁) ← route sys r₁
  let (sys, reply₂) ← route sys r₂
  pure (sys, reply₁, reply₂)

theorem routeBoth_eq_ok_iff {r₁ r₂ : RouteRequest} {a b : RouteReply D} :
    routeBoth sys r₁ r₂ = .ok (sys', a, b) ↔
      ∃ s, route sys r₁ = .ok (s, a) ∧ route s r₂ = .ok (sys', b) := by
  rw [routeBoth]
  constructor
  · intro h
    obtain ⟨⟨s, a'⟩, h1, h⟩ := bind_eq_ok h
    obtain ⟨⟨s', b'⟩, h2, h⟩ := bind_eq_ok h
    simp only [pure, Except.pure, Except.ok.injEq, Prod.mk.injEq] at h
    obtain ⟨rfl, rfl, rfl⟩ := h
    exact ⟨s, h1, h2⟩
  · rintro ⟨s, h1, h2⟩
    rw [h1]
    simp only [bind, Except.bind, h2]
    rfl

theorem agreeIn_applyReply {r₁ r₂ : RouteRequest} (hdisj : r₁.Disjoint r₂) {reply : RouteReply D}
    (h : (route sys r₁).map Prod.snd = .ok reply) :
    AgreeIn sys.slots (applyReply sys reply).slots r₂ := by
  cases reply with
  | success grant body =>
    obtain ⟨hw, hin⟩ := window_of_reply h
    intro k hk id
    rw [applyReply, slot?_reserveSlot hw, if_neg]
    rintro ⟨_, h1, h2⟩
    exact hdisj k ⟨hin k h1 h2, hk⟩
  | _ => exact fun _ _ _ => rfl

/-- Each of two requests for disjoint windows replies as if it were alone. -/
theorem routeBoth_iff (hk : TableKnown sys) {r₁ r₂ : RouteRequest} (hdisj : r₁.Disjoint r₂)
    {a b : RouteReply D} :
    routeBoth sys r₁ r₂ = .ok (sys', a, b) ↔
      (route sys r₁).map Prod.snd = .ok a ∧ (route sys r₂).map Prod.snd = .ok b ∧
        sys' = applyReply (applyReply sys a) b := by
  rw [routeBoth_eq_ok_iff]
  -- after the first reply the second request finds its window as it was
  have hsecond : (route sys r₁).map Prod.snd = .ok a →
      (route (applyReply sys a) r₂ = .ok (sys', b) ↔
        (route sys r₂).map Prod.snd = .ok b ∧ sys' = applyReply (applyReply sys a) b) := by
    intro ha
    have hframe := applyReply_frame sys a
    have hk' : TableKnown (applyReply sys a) := by
      rw [hframe]
      exact hk
    have hreply := route_reply_congr (agreeIn_applyReply hdisj ha)
    rw [← hframe] at hreply
    rw [route_eq_ok_iff hk', hreply]
  constructor
  · rintro ⟨s, h1, h2⟩
    obtain ⟨ha, rfl⟩ := (route_eq_ok_iff hk).mp h1
    exact ⟨ha, (hsecond ha).mp h2⟩
  · rintro ⟨ha, hb⟩
    exact ⟨_, (route_eq_ok_iff hk).mpr ⟨ha, rfl⟩, (hsecond ha).mpr hb⟩

theorem applyReply_comm {r₁ r₂ : RouteRequest} (hdisj : r₁.Disjoint r₂) {a b : RouteReply D}
    (ha : (route sys r₁).map Prod.snd = .ok a) (hb : (route sys r₂).map Prod.snd = .ok b) :
    applyReply (applyReply sys a) b = applyReply (applyReply sys b) a := by
  cases a with
  | success grant₁ body₁ =>
    cases b with
    | success grant₂ body₂ =>
      obtain ⟨hw₁, hin₁⟩ := window_of_reply ha
      obtain ⟨hw₂, hin₂⟩ := window_of_reply hb
      exact reserveSlot_comm sys hw₁ hw₂
        fun h h1 h2 h3 h4 => hdisj h ⟨hin₁ h h1 h2, hin₂ h h3 h4⟩
    | _ => rfl
  | _ => rfl

/-- **Disjoint windows do not interfere.**  Whichever request is served first, each
gets the same reply and the final state is the same. -/
theorem route_disjoint_commute (hk : TableKnown sys) {r₁ r₂ : RouteRequest}
    (hdisj : r₁.Disjoint r₂) (a b : RouteReply D) :
    routeBoth sys r₁ r₂ = .ok (sys', a, b) ↔ routeBoth sys r₂ r₁ = .ok (sys', b, a) := by
  have hdisj' : r₂.Disjoint r₁ := fun h hc => hdisj h hc.symm
  rw [routeBoth_iff hk hdisj, routeBoth_iff hk hdisj']
  constructor
  · rintro ⟨ha, hb, rfl⟩
    exact ⟨hb, ha, applyReply_comm hdisj ha hb⟩
  · rintro ⟨hb, ha, rfl⟩
    exact ⟨ha, hb, (applyReply_comm hdisj ha hb).symm⟩

end route

theorem exists_ok {α : Type} {x : Except Halt α} (p : α → Bool)
    (h : x.toOption.any p = true) : ∃ a, x = .ok a ∧ p a = true := by
  cases x with
  | error halt => simp [Except.toOption] at h
  | ok a => exact ⟨a, rfl, by simpa [Except.toOption] using h⟩

/-- Park at A between the given hours. -/
def parkBetween (sh eh : Text) : RouteRequest :=
  { s := some ['A'], e := some ['A'], sh := some sh, eh := some eh }

theorem route_disjoint_commute_town : ∃ sys' a b,
    routeBoth town (parkBetween ['8'] ['9']) (parkBetween ['9'] ['1', '1']) = .ok (sys', a, b) ∧
      slotAt sys'.slots 71 8 = 1 ∧ slotAt sys'.slots 71 9 = 1 ∧
      routeBoth town (parkBetween ['9'] ['1', '1']) (parkBetween ['8'] ['9']) =
        .ok (sys', b, a) := by
  have hdisj : (parkBetween ['8'] ['9']).Disjoint (parkBetween ['9'] ['1', '1']) := by
    rintro h ⟨⟨_, e₁, _, he₁, _, h1⟩, s₂, _, hs₂, _, h2, _⟩
    have he : hourParam (some ['9']) 12 = .ok 9 := by decide
    have hs : hourParam (some ['9']) 10 = .ok 9 := by decide
    obtain rfl := Except.ok.inj (he.symm.trans he₁)
    obtain rfl := Except.ok.inj (hs.symm.trans hs₂)
    omega
  obtain ⟨⟨sys', a, b⟩, hboth, htest⟩ := exists_ok
    (x := routeBoth town (parkBetween ['8'] ['9']) (parkBetween ['9'] ['1', '1']))
    (fun out => slotAt out.1.slots 71 8 = 1 ∧ slotAt out.1.slots 71 9 = 1) (by decide +kernel)
  simp only [decide_eq_true_eq] at htest
  exact ⟨sys', a, b, hboth, htest.1, htest.2,
    (route_disjoint_commute tableKnown_town hdisj a b).mp hboth⟩

/-! ### Bookings of one node around a capacity change -/

/-- A window `[startH, endH)`. -/
abbrev Window : Type := ℤ × ℤ

def reserveAll (sys : SmartParking D) (id : ℤ) (ws : List Window) : SmartParking D :=
  ws.foldl (fun sys w => sys.reserveSlot id w.1 w.2) sys

/-- Each window is available when its turn comes. -/
def Bookable (sys : SmartParking D) (id : ℤ) : List Window → Prop
  | [] => True
  | w :: ws => sys.availableAtTime id w.1 w.2 = true ∧ Bookable (sys.reserveSlot id w.1 w.2) id ws

/-- The reservations in order, with the capacity change after the first `i`. -/
def reserveAround [StreamDouble D] (sys : SmartParking D) (id cap : ℤ) (ws : List Window) (i : ℕ) :
    SmartParking D :=
  reserveAll ((reserveAll sys id (ws.take i)).updateCapacity id cap) id (ws.drop i)

/-- The windows with the given hour. -/
def covers (ws : List Window) (h : ℤ) : ℕ := ws.countP fun w => w.1 ≤ h ∧ h < w.2

theorem covers_cons (w : Window) (ws : List Window) (h : ℤ) :
    covers (w :: ws) h = covers ws h + if w.1 ≤ h ∧ h < w.2 then 1 else 0 := by
  simp [covers, List.countP_cons]

theorem covers_append (ws ws' : List Window) (h : ℤ) :
    covers (ws ++ ws') h = covers ws h + covers ws' h := List.countP_append

theorem covers_perm {ws ws' : List Window} (hp : ws'.Perm ws) (h : ℤ) :
    covers ws' h = covers ws h := hp.countP_eq _

/-- The free places after `k` takings, each of one place while there is one. -/
def takeMany (k : ℕ) (free : ℤ) : ℤ := max (min 0 free) (free - k)

theorem reserveAll_frame (sys : SmartParking D) (id : ℤ) (ws : List Window) :
    reserveAll sys id ws = { sys with slots := (reserveAll sys id ws).slots } := by
  induction ws generalizing sys with
  | nil => rfl
  | cons w ws ih =>
    have hcons : reserveAll sys id (w :: ws) = reserveAll (sys.reserveSlot id w.1 w.2) id ws := rfl
    rw [hcons, ih, reserveSlot_frame]

@[simp] theorem nodes_reserveAll (sys : SmartParking D) (id : ℤ) (ws : List Window) :
    (reserveAll sys id ws).nodes = sys.nodes := by
  rw [reserveAll_frame]

theorem mem_reserveAll (sys : SmartParking D) (id id' : ℤ) (ws : List Window) :
    id' ∈ (reserveAll sys id ws).slots ↔ id' ∈ sys.slots := by
  induction ws generalizing sys with
  | nil => exact Iff.rfl
  | cons w ws ih => exact (ih _).trans (mem_reserveSlot sys id w.1 w.2 id')

/-- The slot table after a list of reservations. -/
theorem slot?_reserveAll {sys : SmartParking D} {id : ℤ} {ws : List Window}
    (hws : ∀ w ∈ ws, ValidWindow w.1 w.2) (id' h : ℤ) :
    slot? (reserveAll sys id ws).slots id' h =
      if id' = id then (slot? sys.slots id h).map (takeMany (covers ws h))
      else slot? sys.slots id' h := by
  induction ws generalizing sys with
  | nil =>
    have hzero : takeMany (covers [] h) = fun free => free := by
      funext free
      simp [takeMany, covers]
    rw [hzero, Option.map_id']
    by_cases hid : id' = id
    · rw [if_pos hid, hid]
      rfl
    · rw [if_neg hid]
      rfl
  | cons w ws ih =>
    have hcons : reserveAll sys id (w :: ws) = reserveAll (sys.reserveSlot id w.1 w.2) id ws := rfl
    rw [hcons, ih fun x hx => hws x (List.mem_cons_of_mem _ hx),
      slot?_reserveSlot (hws w (by simp)), slot?_reserveSlot (hws w (by simp))]
    by_cases hid : id' = id
    · simp only [if_pos hid, true_and]
      -- this window takes a place in its hours, and the rest take theirs from what it leaves
      by_cases hin : w.1 ≤ h ∧ h < w.2
      · rw [if_pos hin, afterTake, Option.map_map, covers_cons, if_pos hin]
        congr 1
        funext free
        simp only [takeMany, Function.comp_apply]
        push_cast
        split <;> omega
      · rw [if_neg hin, covers_cons, if_neg hin, add_zero]
    · simp only [hid, false_and, if_false]

/-- Windows that could be booked are valid, and each hour has had a place for every
window with it. -/
theorem Bookable.covers_le {sys : SmartParking D} {id : ℤ} {ws : List Window}
    (hb : Bookable sys id ws) : (∀ w ∈ ws, ValidWindow w.1 w.2) ∧
      ∀ h, 0 ≤ slotAt sys.slots id h → (covers ws h : ℤ) ≤ slotAt sys.slots id h := by
  induction ws generalizing sys with
  | nil => exact ⟨by simp, fun h h0 => by simpa [covers] using h0⟩
  | cons w ws ih =>
    obtain ⟨havail, hrest⟩ := hb
    obtain ⟨hvalid, hle⟩ := ih hrest
    have hbooked := booked_reserveSlot havail
    refine ⟨List.forall_mem_cons.mpr ⟨(availableAtTime_iff.mp havail).1, hvalid⟩, fun h h0 => ?_⟩
    have hslot := hbooked.slotAt_eq id h
    have hrest := hle h
    rw [covers_cons]
    by_cases hin : w.1 ≤ h ∧ h < w.2
    · have hpos := hbooked.slotAt_pos hin.1 hin.2
      rw [if_pos ⟨rfl, hin⟩] at hslot
      rw [if_pos hin]
      push_cast
      omega
    · rw [if_neg fun hc => hin hc.2] at hslot
      rw [if_neg hin]
      push_cast
      omega

section around
variable [StreamDouble D] {sys : SmartParking D}

/-- The slots of the node after reservations and a capacity change among them: what
the reservations take and what the change adds or takes away cancel. -/
theorem slot?_reserveAround (hs : SlotShape sys) {id cap : ℤ} {n : Node D}
    (hn : sys.nodes[id]? = some n) (hold : IsInt n.capacity) (hcap : 0 ≤ cap) {ws : List Window}
    (hws : ∀ w ∈ ws, ValidWindow w.1 w.2)
    (hle : ∀ h, (covers ws h : ℤ) ≤ slotAt sys.slots id h) (i : ℕ) (id' h : ℤ) :
    slot? (reserveAround sys id cap ws i).slots id' h =
      if id' = id ∧ 0 ≤ h ∧ h < 24 then
        some (max 0 (cap - max 0 (n.capacity - slotAt sys.slots id h) - covers ws h))
      else slot? sys.slots id' h := by
  have hsplit : covers (ws.take i) h + covers (ws.drop i) h = covers ws h := by
    rw [← covers_append, List.take_append_drop]
  have hbefore : ∀ id' h, slot? (reserveAll sys id (ws.take i)).slots id' h =
      if id' = id then (slot? sys.slots id h).map (takeMany (covers (ws.take i) h))
      else slot? sys.slots id' h := slot?_reserveAll fun w hw => hws w (List.mem_of_mem_take hw)
  have hn' : (reserveAll sys id (ws.take i)).nodes[id]? = some n := by rw [nodes_reserveAll, hn]
  rw [reserveAround, slot?_reserveAll fun w hw => hws w (List.mem_of_mem_drop hw),
    slot?_updateCapacity hn', slot?_updateCapacity hn', slotAt, hbefore, hbefore, if_pos rfl]
  by_cases hid : id' = id
  · subst hid
    have hnonneg := hs.slotAt_nonneg id' h
    have htop := hs.slotAt_le hn h
    have hcount := hle h
    by_cases hh : 0 ≤ h ∧ h < 24
    · simp only [hh, and_self, if_true, Option.map_some, Option.some_inj]
      have hleft : ((slot? sys.slots id' h).map (takeMany (covers (ws.take i) h))).getD 0 =
          slotAt sys.slots id' h - covers (ws.take i) h := by
        rw [slotAt] at hnonneg hcount ⊢
        cases hslot : slot? sys.slots id' h with
        | none =>
          simp only [hslot, Option.map_none, Option.getD_none] at hcount ⊢
          omega
        | some free =>
          simp only [hslot, Option.map_some, Option.getD_some, takeMany] at hnonneg hcount ⊢
          omega
      -- there were no more free before, so the number of places taken is an `int`
      have htaken : IsInt (n.capacity - (slotAt sys.slots id' h - covers (ws.take i) h)) :=
        isInt_sub_free hold (by omega) (by omega)
      rw [hleft, takeMany, placesLeft_eq htaken]
      omega
    · -- no hour outside the day has an entry
      have hnone : slot? sys.slots id' h = none := by
        cases hslot : slot? sys.slots id' h with
        | none => rfl
        | some free => exact absurd ((hs.hours id' (mem_of_slot? hslot) h).mp ⟨free, hslot⟩) hh
      simp [hh, hnone]
  · simp [hid]

theorem mem_reserveAround {id cap : ℤ} {n : Node D} (hn : sys.nodes[id]? = some n)
    (ws : List Window) (i : ℕ) (id' : ℤ) :
    id' ∈ (reserveAround sys id cap ws i).slots ↔ id' = id ∨ id' ∈ sys.slots := by
  have hn' : (reserveAll sys id (ws.take i)).nodes[id]? = some n := by rw [nodes_reserveAll, hn]
  rw [reserveAround, mem_reserveAll, mem_updateCapacity hn', mem_reserveAll]

/-- All but the slots: the capacity is changed and the file is written. -/
theorem reserveAround_frame (sys : SmartParking D) (id cap : ℤ) (ws : List Window) (i : ℕ) :
    reserveAround sys id cap ws i =
      { sys.updateCapacity id cap with slots := (reserveAround sys id cap ws i).slots } := by
  have hupdate : ∀ slots' : Slots,
      (updateCapacity { sys with slots := slots' } id cap) =
        { sys.updateCapacity id cap with
          slots := (updateCapacity { sys with slots := slots' } id cap).slots } := by
    intro slots'
    rw [updateCapacity, updateCapacity]
    cases sys.nodes[id]? <;> rfl
  rw [reserveAround, reserveAll_frame _ id (ws.drop i), reserveAll_frame sys id (ws.take i),
    hupdate]

/-- **Bookings and a capacity change commute.**  Windows that could be reserved one
after another are reserved in any order, with the capacity change at any place among
them: the final state is the same. -/
theorem reserveAround_eq {nodesList adjacencyList transport : Text} (hd : DistinctIds D nodesList)
    {es : List (Event D)}
    (h : Run (Served handle) (start nodesList adjacencyList transport) es sys) {id cap : ℤ}
    (hplace : isPlace sys.nodes id = true) (hcap : 0 ≤ cap) {ws : List Window}
    (hb : Bookable sys id ws) {ws₁ ws₂ : List Window} (hp₁ : ws₁.Perm ws) (hp₂ : ws₂.Perm ws)
    (i j : ℕ) : reserveAround sys id cap ws₁ i = reserveAround sys id cap ws₂ j := by
  have hs := slotShape_of_served_run hd h
  obtain ⟨n, hn, _⟩ := isPlace_iff.mp hplace
  have hint := intCapacities_of_run h id n hn
  obtain ⟨hvalid, hcovers⟩ := hb.covers_le
  -- in every order and at every place the slots are those of one formula
  have hslots : ∀ (ws' : List Window) (i : ℕ), ws'.Perm ws → ∀ id' k : ℤ,
      slot? (reserveAround sys id cap ws' i).slots id' k =
        if id' = id ∧ 0 ≤ k ∧ k < 24 then
          some (max 0 (cap - max 0 (n.capacity - slotAt sys.slots id k) - covers ws k))
        else slot? sys.slots id' k := by
    intro ws' i hp id' k
    rw [← covers_perm hp]
    refine slot?_reserveAround hs hn hint hcap (fun w hw => hvalid w (hp.mem_iff.mp hw)) ?_ i id' k
    intro k'
    rw [covers_perm hp]
    exact hcovers k' (hs.slotAt_nonneg id k')
  have hsame : (reserveAround sys id cap ws₁ i).slots = (reserveAround sys id cap ws₂ j).slots := by
    refine slots_ext (fun id' => ?_) fun id' k => ?_
    · rw [mem_reserveAround hn, mem_reserveAround hn]
    · rw [hslots ws₁ i hp₁, hslots ws₂ j hp₂]
  rw [reserveAround_frame, hsame, ← reserveAround_frame]

end around

/-- Two bookings of one hour on a lot of two places, which is cut to one place after
both of them or before the first, and the bookings swapped. -/
theorem reserveAround_eq_lot :
    slotAt (reserveAround lot 1 1 [(10, 12), (11, 13)] 2).slots 1 11 = 0 ∧
      reserveAround lot 1 1 [(10, 12), (11, 13)] 2 =
        reserveAround lot 1 1 [(11, 13), (10, 12)] 0 := by
  have hrun : Run (Served handle) lot [] lot := .nil
  have hb : Bookable lot 1 [(10, 12), (11, 13)] := And.intro (by decide) ⟨by decide, trivial⟩
  exact ⟨by decide, reserveAround_eq distinctIds_lotFile hrun (by decide) (by decide) hb
    (List.Perm.refl _) (List.Perm.swap _ _ _) 2 0⟩

end SmartParking
