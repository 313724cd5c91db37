/-
The page and the multithreaded server together.

As in `Session.lean`, but the requests of the page and of the other clients are threads of
the server, which interleave at their accesses to the tables and the users file
(`WholeServer.lean`, `Library/Threaded.lean`).

* `alone_server` — a thread that runs alone does what its handler does;
* `session_threads` — where every choice of a node stands and every name appended is free,
  the page and its user cannot tell the threads from a server that serves one request at a
  time;
* `busy_admin` — and however the threads interleave, a user who is shown the admin panel has
  logged in with a pair that logs in as admin from then on.
-/
import SmartParking.Library.Threaded
import SmartParking.Session
import SmartParking.WholeServer

open StdMap TextStream Runs Linearization Messages Threaded

namespace SmartParking

variable {D : Type} [StreamDouble D]

/-! ### A thread alone -/

section alone
variable {sys sys' : SmartParking D} {th th' : Thread D}

/-- What a thread has found out is still so. -/
def Thread.UpToDate (sys : SmartParking D) : Thread D → Prop
  | .fallbackParking t => sys.availableAtTime t.dest t.startH t.endH = false
  | th => th.ChoiceStands sys

/-- As long as no other thread moves. -/
theorem Thread.upToDate_next (h : th.UpToDate sys) (hnext : th.next sys = some (sys', th')) :
    th'.UpToDate sys' := by
  have hchosen : ∀ {t : Trip} {c : Choice}, chooseParking sys t = c →
      (Thread.chosen t c : Thread D).UpToDate sys := by
    intro t c hc
    rw [Thread.chosen]
    split
    · trivial
    · exact hc
  cases th with
  | availableAtTime t =>
    simp only [Thread.next] at hnext
    split at hnext
    · rename_i havail
      obtain ⟨rfl, rfl⟩ := Prod.mk.inj (Option.some.inj hnext)
      exact hchosen (by rw [chooseParking, if_pos havail])
    · rename_i hno
      obtain ⟨rfl, rfl⟩ := Prod.mk.inj (Option.some.inj hnext)
      exact Bool.eq_false_iff.mpr hno
  | fallbackParking t =>
    obtain ⟨rfl, rfl⟩ := Prod.mk.inj (Option.some.inj hnext)
    exact hchosen (by rw [chooseParking, if_neg (Bool.eq_false_iff.mp h)])
  | _ =>
    cases Thread.move_of_next hnext with
    | choose hth _ _ => simp at hth
    | _ => trivial

theorem alone_thread : Alone (Thread.next (D := D)) handle Thread.start Thread.reply?
    Thread.ChoiceStands := by
  intro sys request sys' reply hserve
  obtain ⟨es, hrun⟩ := run_alone hserve
  obtain ⟨th, hthreads, _, hlone⟩ := lone_of_run (J := Thread.UpToDate)
    (Q := Thread.ChoiceStands) (by cases request <;> trivial)
    (fun _ _ _ _ h hnext => Thread.upToDate_next h hnext)
    (fun _ th h => by
      cases th with
      | fallbackParking t => trivial
      | _ => exact h) hrun
  obtain rfl : Thread.done reply = th := (List.cons.inj hthreads).1
  exact ⟨_, _, hlone, rfl⟩

theorem alone_account {ξ : Type} : Alone AccountThread.next (serveAccount (ξ := ξ))
    AccountThread.start AccountThread.reply? AccountThread.NameFree := by
  intro file request file' reply hserve
  cases request with
  | login user pass =>
    obtain ⟨rfl, rfl⟩ := Prod.mk.inj (Except.ok.inj hserve)
    exact ⟨_, _, Run.nil.snoc ⟨rfl, trivial, rfl⟩, rfl⟩
  | register user pass =>
    obtain ⟨rfl, rfl⟩ := Prod.mk.inj (Except.ok.inj hserve)
    rw [registerHandler, registerUser]
    cases htaken : userTaken file (user.getD []) with
    | true =>
      have hscan : AccountThread.next file (.register (.scan (user.getD []) (pass.getD []))) =
          some (file, .register (.done (user.getD []) false)) := by
        rw [AccountThread.next, RegisterThread.next, htaken]
        rfl
      exact ⟨_, _, Run.nil.snoc ⟨rfl, trivial, hscan⟩, rfl⟩
    | false =>
      have hscan : AccountThread.next file (.register (.scan (user.getD []) (pass.getD []))) =
          some (file, .register (.append (user.getD []) (pass.getD []))) := by
        rw [AccountThread.next, RegisterThread.next, htaken]
        rfl
      have hfree : AccountThread.NameFree file
          (.register (.append (user.getD []) (pass.getD []))) := htaken
      exact ⟨_, _, (Run.nil.snoc ⟨rfl, trivial, hscan⟩).snoc ⟨rfl, hfree, rfl⟩, rfl⟩

/-- **A thread that runs alone** finds its choice standing and its name free, and does what
its handler does. -/
theorem alone_server : Alone (ServerThread.next (D := D)) serve ServerThread.start
    ServerThread.reply? ServerThread.Sound :=
  alone_thread.sum alone_account

end alone

/-! ### Sessions -/

abbrev BusyServer (D : Type) : Type :=
  Busy (ServerState D) (ServerThread D) ServerRequest (Page D) Fetch (ServerReply D)

abbrev ServerMoment (D : Type) : Type :=
  Moment (ServerThread D) ServerRequest Fetch (ServerReply D)

section session
variable {raw : Text × Text → Text × Text → Option Text × Option Text} {s : ServerState D}

/-- What may happen once the page has been loaded, with the requests as threads of which
each finds its choice standing and its name free. -/
abbrev BusyVisit (raw : Text × Text → Text × Text → Option Text × Option Text)
    (s : ServerState D) (ms : List (ServerMoment D)) (c : BusyServer D) : Prop :=
  Run (StepMeets (browser raw) ServerThread.next ServerThread.start ServerThread.reply?
    ServerThread.Sound) (idle s Page.opened [.nodes]) ms c

end session

/-- The session of these turns, in which each step of a thread meets `Q`. -/
theorem busyVisit_of_turns (s₀ : ServerState ℤ) (turns : List (Turn Fetch ServerRequest))
    (Q : ServerState ℤ → ServerThread ℤ → Prop) [∀ s th, Decidable (Q s th)]
    (q : List (ServerMoment ℤ) → BusyServer ℤ → Bool)
    (h : playThen (browser asTyped) ServerThread.next ServerThread.start ServerThread.reply? Q
      q [] (idle s₀ Page.opened [.nodes]) turns = true) :
    ∃ ms c, Run (StepMeets (browser asTyped) ServerThread.next ServerThread.start
      ServerThread.reply? Q) (idle s₀ Page.opened [.nodes]) ms c ∧ q ms c = true :=
  run_of_playThen .nil h

/-- Another client books while the page looks at the nodes and its user logs in. -/
def meanwhile : List (Turn Fetch ServerRequest) :=
  [.acceptOther (.inl (.route parkAtA)), .accept, .move 0, .move 1, .move 0, .answer 1, .arrive,
    .click (.login "admin".toList "123".toList), .accept, .move 0, .move 1]

section admin
variable {raw : Text × Text → Text × Text → Option Text × Option Text} {s s' : ServerState D}
  {ms : List (ServerMoment D)} {c : BusyServer D}

/-- What may happen once the page has been loaded, whether choices stand and names are free
or not. -/
abbrev AnyVisit (raw : Text × Text → Text × Text → Option Text × Option Text)
    (s : ServerState D) (ms : List (ServerMoment D)) (c : BusyServer D) : Prop :=
  Run (Threaded.Step (browser raw) ServerThread.next ServerThread.start ServerThread.reply?)
    (idle s Page.opened [.nodes]) ms c

/-- A step of a thread leaves the users file as it is or appends a line. -/
theorem users_of_next {th th' : ServerThread D} (h : th.next s = some (s', th')) :
    s'.2 = s.2 ∨ ∃ user pass, s'.2 = s.2 ++ userLine user pass := by
  cases th with
  | inl th =>
    obtain ⟨_, _, _, hsame⟩ := nextSum_inl h
    exact .inl hsame
  | inr th =>
    obtain ⟨_, _, hnext, _⟩ := nextSum_inr h
    generalize s'.2 = file at hnext ⊢
    cases AccountThread.move_of_next hnext with
    | append => exact .inr ⟨_, _, rfl⟩
    | _ => exact .inl rfl

theorem endsInSpace_of_next {th th' : ServerThread D} (hfile : EndsInSpace s.2)
    (h : th.next s = some (s', th')) : EndsInSpace s'.2 := by
  rcases users_of_next h with hsame | ⟨user, pass, happend⟩
  · rwa [hsame]
  · rw [happend]
    exact endsInSpace_userLine _ _ _

theorem loginUser_of_next {th th' : ServerThread D} (hfile : EndsInSpace s.2)
    (h : th.next s = some (s', th')) {u p r : Text} (hlogin : loginUser s.2 u p = some r) :
    loginUser s'.2 u p = some r := by
  rcases users_of_next h with hsame | ⟨user, pass, happend⟩
  · rwa [hsame]
  · rw [happend, loginUser_append_userLine hfile, hlogin, Option.some_or]

/-- A login that has been let in still would be. -/
def LetIn (s : ServerState D) (request : ServerRequest) : ServerThread D → Prop
  | .inr (.login user pass) => request = .inr (.login user pass)
  | .inr (.loggedIn reply) => ∃ user pass, request = .inr (.login user pass) ∧
      (reply.success = true → loginUser s.2 (user.getD []) (pass.getD []) = some reply.role)
  | _ => True

theorem kept_letIn : Kept (ServerThread.next (D := D)) (fun s => EndsInSpace s.2) LetIn where
  own := by
    intro s request th s' th' hfile hlet h
    refine ⟨endsInSpace_of_next hfile h, ?_⟩
    cases th with
    | inl th =>
      obtain ⟨_, rfl, _, _⟩ := nextSum_inl h
      trivial
    | inr th =>
      obtain ⟨_, rfl, hnext, _⟩ := nextSum_inr h
      generalize hfile' : s'.2 = file' at hnext
      cases AccountThread.move_of_next hnext with
      | login =>
        exact ⟨_, _, hlet, fun hs => by rw [hfile']; exact loginUser_of_success hs⟩
      | _ => trivial
  other := by
    intro s request th s' th' request' u hfile _ h hu
    rcases u with u | (⟨user, pass⟩ | reply | call)
    · trivial
    · exact hu
    · obtain ⟨user, pass, hrequest, hlogin⟩ := hu
      exact ⟨user, pass, hrequest, fun hs => loginUser_of_next hfile h (hlogin hs)⟩
    · trivial

/-- A reply that shows the admin panel answers a login with a pair that still logs in as
admin. -/
def Admits (s : ServerState D) (f : Fetch) (reply : ServerReply D) : Prop :=
  Page.grantsAdmin reply = true →
    ∃ user pass, f = .login user pass ∧ loginUser s.2 user pass = some Page.roleAdmin

theorem admits_of_visit (hfile : EndsInSpace s.2) (h : AnyVisit raw s ms c) :
    ∀ a ∈ arrivedReplies ms, Admits c.shared a.1 a.2 := by
  refine (warranted_of_run (K := Admits) kept_letIn (fun s request _ => ?_) ?_ ?_ hfile h).2
  · rcases request with (_ | _ | _) | (_ | _)
    · trivial
    · trivial
    · trivial
    · rfl
    · trivial
  · intro s f th reply _ hlet hreply hgrants
    obtain ⟨data, rfl, hsuccess, hrole⟩ := Page.login_of_grantsAdmin hgrants
    rcases th with th | th
    · obtain ⟨_, _, heq⟩ := Option.map_eq_some_iff.mp hreply
      simp at heq
    · obtain ⟨reply, hreply, heq⟩ := Option.map_eq_some_iff.mp hreply
      obtain rfl := Sum.inr.inj heq
      cases th with
      | login user pass => simp [AccountThread.reply?] at hreply
      | loggedIn reply =>
        obtain rfl := AccountReply.login.inj (Option.some.inj hreply)
        obtain ⟨user, pass, hrequest, hlogin⟩ := hlet
        cases f with
        | login user' pass' =>
          obtain ⟨rfl, rfl⟩ := AccountRequest.login.inj (Sum.inr.inj hrequest)
          exact ⟨user', pass', rfl, hrole ▸ hlogin hsuccess⟩
        | _ => simp [browser, Fetch.request] at hrequest
      | register call => cases call <;> simp [AccountThread.reply?] at hreply
  · intro s request th s' th' f reply hfile _ hnext hadmits hgrants
    obtain ⟨user, pass, rfl, hlogin⟩ := hadmits hgrants
    exact ⟨user, pass, rfl, loginUser_of_next hfile hnext hlogin⟩

/-- **The admin panel, however the threads interleave.**  Whoever clicks on its button has
logged in before, with a pair that logs in as admin from then on, whatever the choices and
the names registered. -/
theorem busy_admin (hfile : EndsInSpace s.2) (h : AnyVisit raw s ms c)
    {pre : List (ServerMoment D)} {id cap : Text}
    (hpre : pre ++ [.clicked (.update id cap)] <+: ms) :
    ∃ user pass, .clicked (.login user pass) ∈ pre ∧
      loginUser c.shared.2 user pass = some Page.roleAdmin := by
  have hadmits := admits_of_visit hfile h
  obtain ⟨c₁, hclicked⟩ := h.restrict hpre
  obtain ⟨c₀, hbefore, hstep⟩ := run_snoc_iff.mp hclicked
  have hpanel : c₀.client.adminPanel = true := by
    cases hstep with
    | clicked hoffers => exact (Bool.and_eq_true_iff.mp hoffers).2
  have hclient : c₀.client = Page.after ((arrivedReplies pre).map Prod.snd) := by
    rw [client_of_moments hbefore, Page.after, List.foldl_map]
    rfl
  rw [hclient, Page.adminPanel_after, List.any_map, List.any_eq_true] at hpanel
  obtain ⟨a, ha, hgrants⟩ := hpanel
  have hlater : a ∈ arrivedReplies ms :=
    ((List.prefix_append _ _).trans hpre).sublist.filterMap _ |>.subset ha
  obtain ⟨user, pass, hlogin, hpair⟩ := hadmits a hlater hgrants
  have hasked := asked_of_run (fun f => f = .nodes) (by simp)
    (fun _ _ _ hf => eq_nodes_of_mem_onReply hf) hbefore a.1
    (by simp only [about, List.mem_append]; exact .inr (.inr (.inr (List.mem_map_of_mem ha))))
  rw [hlogin] at hasked
  exact ⟨user, pass, hasked.resolve_left (by simp), hpair⟩

end admin

/-- While two other clients register one name at a time, the admin logs in and clicks. -/
def bobsAndAdmin : List (Turn Fetch ServerRequest) :=
  [.acceptOther (.inr (.register (some "bob".toList) (some "1".toList))),
    .acceptOther (.inr (.register (some "bob".toList) (some "2".toList))), .move 0, .move 1,
    .click (.login "admin".toList "123".toList), .accept, .accept, .move 3, .move 0, .move 1,
    .answer 3, .arrive, .click (.update "71".toList ['5'])]

theorem busy_admin_town : ∃ ms c, AnyVisit asTyped (town, adminFile) ms c ∧
    ((accounts c.shared.2).map Prod.fst).count "bob".toList = 2 ∧
    ∃ pre, ms = pre ++ [.clicked (.update "71".toList ['5'])] ∧
      ∃ user pass, .clicked (.login user pass) ∈ pre ∧
        loginUser c.shared.2 user pass = some Page.roleAdmin := by
  obtain ⟨ms, c, hrun, htest⟩ := busyVisit_of_turns (town, adminFile) bobsAndAdmin (fun _ _ => True)
    (fun ms c => ((accounts c.shared.2).map Prod.fst).count "bob".toList = 2 ∧
      ms.getLast? = some (.clicked (.update "71".toList ['5']))) (by decide +kernel)
  obtain ⟨hbobs, hlast⟩ := of_decide_eq_true htest
  obtain ⟨pre, rfl⟩ := List.getLast?_eq_some_iff.mp hlast
  have hfile : EndsInSpace adminFile := endsInSpace_of_usersFile usersFile_adminFile
  have hvisit : AnyVisit asTyped (town, adminFile) _ c := run_of_stepMeets hrun
  exact ⟨_, c, hvisit, hbobs, pre, rfl, busy_admin hfile hvisit List.prefix_rfl⟩

end SmartParking
