/-
Logins and registrations in flight together.

The handlers of `/login` and `/register` as threads over the users file: a login reads the
file in one step, a registration is the thread of `ConcurrentRegistration.lean` with the
reply of its handler.

* `atomic_account` — each takes effect at one step, when an append finds its name free;
* `accounts_serializable_iff` — for names and passwords that are words, the requests might
  as well have been served one at a time exactly when every append finds its name free.
-/
import SmartParking.ConcurrentRegistration
import SmartParking.Library.Linearization

open TextStream Runs Pool Linearization

namespace SmartParking

/-! ### Requests -/

/-- The parameters of `/login` and `/register`; `none` where the URL has none. -/
inductive AccountRequest
  | login (user pass : Option Text)
  | register (user pass : Option Text)
  deriving DecidableEq

inductive AccountReply
  | login (reply : LoginReply)
  | register (reply : RegisterReply)
  deriving DecidableEq

/-- One request served alone. -/
def serveAccount {ξ : Type} (file : Text) : AccountRequest → Except ξ (Text × AccountReply)
  | .login user pass => .ok (file, .login (loginHandler file user pass))
  | .register user pass =>
    .ok ((registerHandler file user pass).2, .register (registerHandler file user pass).1)

/-- What is to be registered, if anything. -/
def AccountRequest.call? : AccountRequest → Option (Text × Text)
  | .login _ _ => none
  | .register user pass => some (user.getD [], pass.getD [])

/-- Requests served one at a time are registrations, as far as the file goes. -/
theorem registers_of_served {ξ : Type} {file file' : Text}
    {es : List (AccountRequest × AccountReply)}
    (h : Run (Served (serveAccount (ξ := ξ))) file es file') :
    Run Registers file (es.filterMap fun e => e.1.call?) file' := by
  refine h.invariant (I := fun es file' =>
    Run Registers file (es.filterMap fun e => e.1.call?) file') .nil ?_
  rintro es s ⟨request, reply⟩ s' _ ih hstep
  rw [List.filterMap_append]
  cases request with
  | login user pass =>
    obtain ⟨rfl, rfl⟩ := Prod.mk.inj (Except.ok.inj hstep)
    show Run Registers file (_ ++ []) s
    rwa [List.append_nil]
  | register user pass =>
    obtain ⟨rfl, rfl⟩ := Prod.mk.inj (Except.ok.inj hstep)
    exact ih.snoc (e := (user.getD [], pass.getD [])) rfl

/-! ### Threads -/

/-- Where a request stands. -/
inductive AccountThread
  | login (user pass : Option Text)
  | loggedIn (reply : LoginReply)
  | register (call : RegisterThread)
  deriving DecidableEq

def AccountThread.start : AccountRequest → AccountThread
  | .login user pass => .login user pass
  | .register user pass => .register (.scan (user.getD []) (pass.getD []))

/-- The next atomic step of a request. -/
def AccountThread.next (file : Text) : AccountThread → Option (Text × AccountThread)
  | .login user pass => some (file, .loggedIn (loginHandler file user pass))
  | .loggedIn _ => none
  | .register call => (call.next file).map fun p => (p.1, .register p.2)

def AccountThread.reply? : AccountThread → Option AccountReply
  | .loggedIn reply => some (.login reply)
  | .register (.done _ ok) =>
    some (.register { success := ok, error := if ok then none else some "User already exists" })
  | _ => none

/-- What is known of a thread that serves a request. -/
def AccountThread.Serves (_file : Text) (request : AccountRequest) : AccountThread → Prop
  | .login user pass => request = .login user pass
  | .register (.scan user pass) =>
    ∃ u p, request = .register u p ∧ user = u.getD [] ∧ pass = p.getD []
  | .register (.append user pass) =>
    ∃ u p, request = .register u p ∧ user = u.getD [] ∧ pass = p.getD []
  | _ => True

/-- The name about to be appended is free. -/
def AccountThread.NameFree (file : Text) : AccountThread → Prop
  | .register (.append user _) => userTaken file user = false
  | _ => True

instance (file : Text) (th : AccountThread) : Decidable (th.NameFree file) :=
  match th with
  | .register (.append user _) => inferInstanceAs (Decidable (userTaken file user = false))
  | .login _ _ | .loggedIn _ | .register (.scan _ _) | .register (.done _ _) => isTrue trivial

/-- How far a thread has come. -/
def AccountThread.rank : AccountThread → ℕ
  | .login _ _ => 0
  | .loggedIn _ => 1
  | .register (.scan _ _) => 0
  | .register (.append _ _) => 1
  | .register (.done _ _) => 2

/-- **What one step can do.** -/
inductive AccountThread.Move (file : Text) : AccountThread → Text → AccountThread → Prop
  | login {user pass : Option Text} :
      Move file (.login user pass) file (.loggedIn (loginHandler file user pass))
  | refuse {user pass : Text} : userTaken file user = true →
      Move file (.register (.scan user pass)) file (.register (.done user false))
  | pass {user pass : Text} : userTaken file user = false →
      Move file (.register (.scan user pass)) file (.register (.append user pass))
  | append {user pass : Text} :
      Move file (.register (.append user pass)) (file ++ userLine user pass)
        (.register (.done user true))

theorem AccountThread.move_of_next {file file' : Text} {th th' : AccountThread}
    (h : th.next file = some (file', th')) : Move file th file' th' := by
  cases th with
  | login user pass =>
    simp only [AccountThread.next, Option.some.injEq, Prod.mk.injEq] at h
    obtain ⟨rfl, rfl⟩ := h
    exact .login
  | loggedIn reply => simp [AccountThread.next] at h
  | register call =>
    obtain ⟨p, hp, heq⟩ := Option.map_eq_some_iff.mp h
    obtain ⟨rfl, rfl⟩ := Prod.mk.inj heq
    cases call with
    | scan user pass =>
      simp only [RegisterThread.next, Option.some.injEq] at hp
      subst hp
      cases htaken : userTaken file user with
      | true => exact .refuse htaken
      | false => exact .pass htaken
    | append user pass =>
      simp only [RegisterThread.next, Option.some.injEq] at hp
      subst hp
      exact .append
    | done user ok => simp [RegisterThread.next] at hp

theorem AccountThread.rank_lt {file file' : Text} {th th' : AccountThread}
    (h : th.next file = some (file', th')) : th.rank < th'.rank := by
  cases AccountThread.move_of_next h <;> simp [AccountThread.rank]

/-- A thread that has not replied can go on. -/
theorem AccountThread.exists_next {th : AccountThread} (file : Text) (h : th.reply? = none) :
    ∃ p, th.next file = some p := by
  cases th with
  | login user pass => exact ⟨_, rfl⟩
  | loggedIn reply => simp [AccountThread.reply?] at h
  | register call =>
    cases call with
    | done user ok => simp [AccountThread.reply?] at h
    | _ => exact ⟨_, rfl⟩

/-- The step that commits a thread does what serving its request would do. -/
theorem AccountThread.served_of_commit {ξ : Type} {file file' : Text} {request : AccountRequest}
    {th th' : AccountThread} {reply : AccountReply} (hserves : th.Serves file request)
    (h : Move file th file' th') (hfree : th.NameFree file) (hsome : th'.reply? = some reply) :
    serveAccount (ξ := ξ) file request = .ok (file', reply) := by
  cases h with
  | login =>
    obtain rfl := hserves
    obtain rfl := Option.some_inj.mp hsome
    rfl
  | refuse htaken =>
    obtain ⟨u, p, rfl, rfl, rfl⟩ := hserves
    obtain rfl := Option.some_inj.mp hsome
    simp only [serveAccount, registerHandler, registerUser, htaken]
    rfl
  | pass _ => simp [AccountThread.reply?] at hsome
  | append =>
    obtain ⟨u, p, rfl, rfl, rfl⟩ := hserves
    have hname : userTaken file (u.getD []) = false := hfree
    obtain rfl := Option.some_inj.mp hsome
    simp only [serveAccount, registerHandler, registerUser, hname]
    rfl

/-- **Account threads take effect at one step**, when appends find their names free. -/
theorem atomic_account {ξ : Type} : Atomic AccountThread.next (serveAccount (ξ := ξ))
    (fun _ => True) AccountThread.Serves (fun _ th => th.reply?) AccountThread.NameFree where
  own _ hserves h := by
    refine ⟨trivial, ?_⟩
    cases AccountThread.move_of_next h with
    | pass _ => exact hserves
    | _ => trivial
  other _ _ _ hu := ⟨hu, rfl⟩
  before _ _ h hnone := by
    cases AccountThread.move_of_next h with
    | append => simp [AccountThread.reply?] at hnone
    | _ => rfl
  commit _ hserves h hfree _ hsome :=
    AccountThread.served_of_commit hserves (AccountThread.move_of_next h) hfree hsome
  after _ _ h hsome := by
    cases AccountThread.move_of_next h <;> simp [AccountThread.reply?] at hsome

theorem ends_account :
    Ends AccountThread.start AccountThread.reply? (fun (_ : Text) th => th.reply?) where
  begins _ request := by cases request <;> rfl
  replies h := h

theorem AccountThread.serves_start (file : Text) (request : AccountRequest) :
    (AccountThread.start request).Serves file request := by
  cases request with
  | login user pass => rfl
  | register user pass => exact ⟨user, pass, rfl, rfl, rfl⟩

/-! ### Files that hold one account a name -/

/-- The names and passwords to be registered are words. -/
def RegistersWords (requests : List AccountRequest) : Prop :=
  ∀ user pass, AccountRequest.register user pass ∈ requests →
    IsWord (user.getD []) ∧ IsWord (pass.getD [])

/-- The requests have arrived and none has been looked at. -/
abbrev accountsInFlight (file : Text) (requests : List AccountRequest) :
    Config Text AccountThread :=
  arrived AccountThread.start file requests

section run
variable {file : Text} {requests : List AccountRequest} {es : List (ℕ × AccountThread)}
  {c c' : Config Text AccountThread}

theorem serving_account (h : Run (Step AccountThread.next) (accountsInFlight file requests) es c) :
    Serving (fun _ => True) AccountThread.Serves requests c :=
  (atomic_account (ξ := Empty)).serving_of_run trivial
    (fun request _ => AccountThread.serves_start file request) h

/-- One step leaves the file as it is or appends the line of two words. -/
theorem shared_of_step (hwords : RegistersWords requests)
    (hs : Serving (fun _ => True) AccountThread.Serves requests c) {e : ℕ × AccountThread}
    (hstep : Step AccountThread.next c e c') :
    (c'.shared = c.shared ∧ e.2.NameFree c.shared) ∨
      ∃ user pass, e.2 = .register (.append user pass) ∧ IsWord user ∧ IsWord pass ∧
        c'.shared = c.shared ++ userLine user pass := by
  obtain ⟨i, th⟩ := e
  obtain ⟨hi, file', th', hnext, rfl⟩ := hstep
  obtain ⟨request, hr, hserves⟩ := hs.2 i th hi
  cases AccountThread.move_of_next hnext with
  | @append user pass =>
    obtain ⟨u, p, rfl, rfl, rfl⟩ := hserves
    obtain ⟨hu, hp⟩ := hwords u p (List.mem_of_getElem? hr)
    exact .inr ⟨_, _, rfl, hu, hp, rfl⟩
  | _ => exact .inl ⟨rfl, trivial⟩

/-- The file keeps its form. -/
theorem form_of_run (hfile : EndsInSpace file ∧ leftover file = [])
    (hwords : RegistersWords requests)
    (h : Run (Step AccountThread.next) (accountsInFlight file requests) es c) :
    EndsInSpace c.shared ∧ leftover c.shared = [] := by
  refine h.invariant (I := fun _ c => EndsInSpace c.shared ∧ leftover c.shared = []) hfile ?_
  intro _ c e c' hrun ⟨hend, hleft⟩ hstep
  rcases shared_of_step hwords (serving_account hrun) hstep with
    ⟨hsame, _⟩ | ⟨user, pass, _, hu, hp, hshared⟩
  · rw [hsame]
    exact ⟨hend, hleft⟩
  · rw [hshared]
    exact ⟨endsInSpace_userLine _ _ _, leftover_append_words hend hleft hu hp⟩

/-- Accounts once in the file stay there. -/
theorem accounts_prefix_of_threads (hfile : EndsInSpace file ∧ leftover file = [])
    (hwords : RegistersWords requests) {fs : List (ℕ × AccountThread)}
    (h : Run (Step AccountThread.next) (accountsInFlight file requests) es c)
    (h' : Run (Step AccountThread.next) c fs c') : accounts c.shared <+: accounts c'.shared := by
  refine h'.invariant (I := fun _ d => accounts c.shared <+: accounts d.shared)
    List.prefix_rfl ?_
  intro fs d e d' hrun ih hstep
  have hd := h.append hrun
  obtain ⟨hend, hleft⟩ := form_of_run hfile hwords hd
  rcases shared_of_step hwords (serving_account hd) hstep with
    ⟨hsame, _⟩ | ⟨user, pass, _, hu, hp, hshared⟩
  · rw [hsame]
    exact ih
  · rw [hshared, accounts_append_words hend hleft hu hp]
    exact ih.trans (List.prefix_append _ _)

/-- Served one at a time, the requests leave distinct names. -/
theorem accountsFile_of_served {ξ : Type} {hist : List (AccountRequest × AccountReply)} {s : Text}
    (hfile : AccountsFile file)
    (hwords : ∀ user pass reply, (AccountRequest.register user pass, reply) ∈ hist →
      IsWord (user.getD []) ∧ IsWord (pass.getD []))
    (h : Run (Served (serveAccount (ξ := ξ))) file hist s) : AccountsFile s := by
  refine h.invariant (I := fun hist s => (∀ user pass reply,
    (AccountRequest.register user pass, reply) ∈ hist →
      IsWord (user.getD []) ∧ IsWord (pass.getD [])) → AccountsFile s) (fun _ => hfile) ?_ hwords
  rintro hist s ⟨request, reply⟩ s' _ ih hstep hwords
  have hs := ih fun user pass reply hmem => hwords user pass reply (List.mem_append_left _ hmem)
  cases request with
  | login user pass =>
    simp only [Served, serveAccount, Except.ok.injEq, Prod.mk.injEq] at hstep
    rw [← hstep.1]
    exact hs
  | register user pass =>
    obtain ⟨hend, hleft, hnames⟩ := hs
    obtain ⟨hu, hp⟩ := hwords user pass reply (List.mem_append_right _ List.mem_cons_self)
    simp only [Served, serveAccount, registerHandler, registerUser, Except.ok.injEq,
      Prod.mk.injEq] at hstep
    rw [← hstep.1]
    cases htaken : userTaken s (user.getD []) with
    | true => exact ⟨hend, hleft, hnames⟩
    | false => exact ⟨endsInSpace_userLine _ _ _, leftover_append_words hend hleft hu hp,
        (nodup_names_append_iff hend hleft hu hp).mpr ⟨hnames, htaken⟩⟩

/-- **Serializability of logins and registrations.**  For words, the requests might as
well have been served one at a time exactly when every append finds its name free, and
then in an order that respects which came after which. -/
theorem accounts_serializable_iff {ξ : Type} (hfile : AccountsFile file)
    (hwords : RegistersWords requests)
    (h : Run (Step AccountThread.next) (accountsInFlight file requests) es c) :
    ((∃ hist, Serializes (serveAccount (ξ := ξ)) AccountThread.reply? file requests c hist) ↔
        Steps (Step AccountThread.next) (accountsInFlight file requests) es
          fun _ c e => e.2.NameFree c.shared) ∧
      (Steps (Step AccountThread.next) (accountsInFlight file requests) es
          (fun _ c e => e.2.NameFree c.shared) →
        ∃ hist, Linearizes AccountThread.next (serveAccount (ξ := ξ)) AccountThread.start
          AccountThread.reply? file requests es c hist) := by
  have hlin : Steps (Step AccountThread.next) (accountsInFlight file requests) es
        (fun _ c e => e.2.NameFree c.shared) →
      ∃ hist, Linearizes AccountThread.next (serveAccount (ξ := ξ)) AccountThread.start
        AccountThread.reply? file requests es c hist := by
    intro hfree
    obtain ⟨hist, hlin, _⟩ := atomic_account.linearizable trivial
      (fun request _ => AccountThread.serves_start file request) ends_account h hfree
    exact ⟨hist, hlin⟩
  refine ⟨⟨?_, fun hfree => ?_⟩, hlin⟩
  · rintro ⟨hist, hserial⟩ pre e s hpre hs
    obtain ⟨s', hstep, hs'⟩ := h.next_step step_deterministic hpre hs
    rcases shared_of_step hwords (serving_account hs) hstep with
      ⟨_, hfree⟩ | ⟨user, pass, heq, hu, hp, hshared⟩
    · exact hfree
    · rw [heq]
      -- a name appended twice would still be there twice at the end
      obtain ⟨post, rfl⟩ := hpre
      obtain ⟨d, hd, hrest⟩ := h.exists_append
      obtain rfl := Run.unique step_deterministic hd hs'
      have hform : EndsInSpace file ∧ leftover file = [] := ⟨hfile.1, hfile.2.1⟩
      have hfinal : AccountsFile c.shared := by
        refine accountsFile_of_served hfile (fun user pass reply hmem => ?_) hserial.serial
        obtain ⟨x, hx, hxe⟩ := List.mem_map.mp hmem
        have hreq := List.mem_of_getElem? (hserial.requests x hx)
        rw [show x.2.1 = .register user pass from congrArg Prod.fst hxe] at hreq
        exact hwords user pass hreq
      have hsub := ((accounts_prefix_of_threads hform hwords hd hrest).sublist.map
        fun a => a.1).nodup hfinal.2.2
      rw [hshared] at hsub
      obtain ⟨hend, hleft⟩ := form_of_run hform hwords hs
      exact ((nodup_names_append_iff hend hleft hu hp).mp hsub).2
  · obtain ⟨hist, hlinear⟩ := hlin hfree
    exact ⟨hist, hlinear.toSerializes⟩

end run

/-- A login between the scan and the append of a registration, and a registration of the
same name after it. -/
theorem accounts_serializable_iff_bob : ∃ requests es c,
    Run (Step AccountThread.next) (accountsInFlight adminFile requests) es c ∧
      c.threads.map AccountThread.reply? =
        [some (.register ⟨true, none⟩), some (.login ⟨false, roleUser⟩),
          some (.register ⟨false, some "User already exists"⟩)] ∧
      ((∃ hist, Serializes (serveAccount (ξ := Empty)) AccountThread.reply? adminFile requests
          c hist) ↔
        Steps (Step AccountThread.next) (accountsInFlight adminFile requests) es
          fun _ c e => e.2.NameFree c.shared) := by
  refine ⟨[.register (some "bob".toList) (some ['1']), .login (some "bob".toList) (some ['1']),
    .register (some "bob".toList) (some ['2'])], ?_⟩
  obtain ⟨es, c, hrun, htest⟩ := run_of_scheduleThen AccountThread.next
    (accountsInFlight adminFile [.register (some "bob".toList) (some ['1']),
      .login (some "bob".toList) (some ['1']), .register (some "bob".toList) (some ['2'])])
    [0, 1, 0, 2]
    (fun _ c => c.threads.map AccountThread.reply? =
      [some (.register ⟨true, none⟩), some (.login ⟨false, roleUser⟩),
        some (.register ⟨false, some "User already exists"⟩)]) (by decide +kernel)
  refine ⟨es, c, hrun, by simpa using htest, (accounts_serializable_iff
    (accountsFile_of_usersFile usersFile_adminFile (by decide)) ?_ hrun).1⟩
  intro user pass hmem
  simp only [List.mem_cons, AccountRequest.register.injEq, reduceCtorEq, List.not_mem_nil, or_false,
    false_or] at hmem
  rcases hmem with ⟨rfl, rfl⟩ | ⟨rfl, rfl⟩ <;> decide

end SmartParking
