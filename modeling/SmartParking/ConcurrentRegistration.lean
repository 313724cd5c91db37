/-
Registrations in flight together.

`registerUser` scans the file through one handle and appends through another, and
the server runs it multithreaded with nothing held in between.  The scan and the
append are atomic steps of a thread, and the threads interleave in any order.

* `register_alone` — a thread that runs alone does what `registerUser` does;
* `step_uniqueNames_iff` — what one step does to the names;
* `uniqueNames_iff` — names stay unique throughout a run exactly when every append
  finds the name still free;
* `two_registrations_one_name` — which fails when two calls scan before either of
  them appends.
-/
import SmartParking.AccountStore
import SmartParking.Library.Pool

open TextStream Runs Pool

namespace SmartParking

/-! ### Threads -/

/-- Where a call of `registerUser` stands; `done` carries its result. -/
inductive RegisterThread
  | scan (user pass : Text)
  | append (user pass : Text)
  | done (user : Text) (ok : Bool)
  deriving DecidableEq

/-- The next atomic step of a call. -/
def RegisterThread.next (file : Text) : RegisterThread → Option (Text × RegisterThread)
  | .scan user pass =>
    some (file, if userTaken file user then .done user false else .append user pass)
  | .append user pass => some (file ++ userLine user pass, .done user true)
  | .done _ _ => none

/-- The calls have been made and none has looked at the file. -/
def registering (file : Text) (calls : List (Text × Text)) : Config Text RegisterThread :=
  ⟨file, calls.map fun call => .scan call.1 call.2⟩

/-- What is known of a call, given the file: its strings are words, and if it was
accepted its name is in the file. -/
def RegisterThread.Known (file : Text) : RegisterThread → Prop
  | .scan user pass => IsWord user ∧ IsWord pass
  | .append user pass => IsWord user ∧ IsWord pass
  | .done user ok => ok = true → userTaken file user = true

/-- Call `i` has returned true. -/
def Accepts (c : Config Text RegisterThread) (i : ℕ) (user : Text) : Prop :=
  c.threads[i]? = some (RegisterThread.done user true)

/-- No two accounts of the file have one name, and no two calls with one name
have been accepted. -/
structure UniqueNames (c : Config Text RegisterThread) : Prop where
  file : ((accounts c.shared).map fun a => a.1).Nodup
  calls : ∀ i j user, Accepts c i user → Accepts c j user → i = j

/-- An append finds no account of the name in the file. -/
def StillFree (c : Config Text RegisterThread) (e : ℕ × RegisterThread) : Prop :=
  ∀ user pass, e.2 = .append user pass → userTaken c.shared user = false

/-! ### Steps -/

theorem userTaken_append {file : Text} (hend : EndsInSpace file) (hleft : leftover file = [])
    {user pass : Text} (hu : IsWord user) (hp : IsWord pass) (name : Text) :
    userTaken (file ++ userLine user pass) name = true ↔
      userTaken file name = true ∨ name = user := by
  simp only [userTaken_iff, accounts_append_words hend hleft hu hp, List.mem_append,
    List.mem_singleton, or_and_right, exists_or, exists_eq_left]
  exact or_congr_right eq_comm

/-- The file keeps its form, and what is known of each call stays true. -/
theorem known_of_run {file : Text} {calls : List (Text × Text)} {es : List (ℕ × RegisterThread)}
    {c : Config Text RegisterThread} (hfile : EndsInSpace file ∧ leftover file = [])
    (hwords : ∀ call ∈ calls, IsWord call.1 ∧ IsWord call.2)
    (h : Run (Step RegisterThread.next) (registering file calls) es c) :
    (EndsInSpace c.shared ∧ leftover c.shared = []) ∧ ∀ th ∈ c.threads, th.Known c.shared := by
  refine pool_invariant (I := fun file => EndsInSpace file ∧ leftover file = [])
    (L := RegisterThread.Known) ?_ ?_ hfile ?_ h
  · rintro f th f' th' hf hth hnext
    cases th with
    | scan user pass =>
      simp only [RegisterThread.next, Option.some.injEq, Prod.mk.injEq] at hnext
      obtain ⟨rfl, rfl⟩ := hnext
      refine ⟨hf, ?_⟩
      split
      · exact fun hc => absurd hc (by simp)
      · exact hth
    | append user pass =>
      simp only [RegisterThread.next, Option.some.injEq, Prod.mk.injEq] at hnext
      obtain ⟨rfl, rfl⟩ := hnext
      exact ⟨⟨endsInSpace_userLine _ _ _, leftover_append_words hf.1 hf.2 hth.1 hth.2⟩,
        fun _ => (userTaken_append hf.1 hf.2 hth.1 hth.2 user).mpr (.inr rfl)⟩
    | done user ok => simp [RegisterThread.next] at hnext
  · rintro f th f' th' u hf hth hnext hu
    cases u with
    | done name ok =>
      intro hok
      have hname := hu hok
      cases th with
      | scan user pass =>
        simp only [RegisterThread.next, Option.some.injEq, Prod.mk.injEq] at hnext
        exact hnext.1 ▸ hname
      | append user pass =>
        simp only [RegisterThread.next, Option.some.injEq, Prod.mk.injEq] at hnext
        obtain ⟨rfl, _⟩ := hnext
        exact (userTaken_append hf.1 hf.2 hth.1 hth.2 name).mpr (.inl hname)
      | done user ok => simp [RegisterThread.next] at hnext
    | _ => exact hu
  · intro th hth
    obtain ⟨call, hcall, rfl⟩ := List.mem_map.mp hth
    exact hwords call hcall

/-- With one more account the names are distinct if they were and its own was free. -/
theorem nodup_names_append_iff {file : Text} (hend : EndsInSpace file) (hleft : leftover file = [])
    {user pass : Text} (hu : IsWord user) (hp : IsWord pass) :
    ((accounts (file ++ userLine user pass)).map fun a => a.1).Nodup ↔
      ((accounts file).map fun a => a.1).Nodup ∧ userTaken file user = false := by
  have hfree : userTaken file user = false ↔ user ∉ (accounts file).map fun a => a.1 := by
    rw [← Bool.not_eq_true, userTaken_iff, List.mem_map]
  rw [accounts_append_words hend hleft hu hp, List.map_append, hfree]
  exact List.nodup_append_comm.trans (List.nodup_cons.trans and_comm)

/-- The calls accepted once call `i` has moved on. -/
theorem accepts_set_iff {c : Config Text RegisterThread} {i : ℕ} {th : RegisterThread}
    (hi : c.threads[i]? = some th) (file : Text) (th' : RegisterThread) (j : ℕ) (name : Text) :
    Accepts ⟨file, c.threads.set i th'⟩ j name ↔
      if j = i then th' = .done name true else Accepts c j name := by
  rw [Accepts, getElem?_set_step hi]
  split
  · exact Option.some_inj
  · exact Iff.rfl

/-- Accepting a call whose name no account has. -/
theorem UniqueNames.accept {c : Config Text RegisterThread} (hu : UniqueNames c)
    (hknown : ∀ th ∈ c.threads, th.Known c.shared) {i : ℕ} {th : RegisterThread}
    (hi : c.threads[i]? = some th) {user : Text} (hfree : userTaken c.shared user = false)
    (file : Text) : ∀ j k name, Accepts ⟨file, c.threads.set i (.done user true)⟩ j name →
      Accepts ⟨file, c.threads.set i (.done user true)⟩ k name → j = k := by
  -- a call accepted earlier has another name, since its name is in the file
  have hother : ∀ j, ¬ Accepts c j user := by
    intro j hj
    have htaken := hknown _ (List.mem_of_getElem? hj) rfl
    rw [hfree] at htaken
    simp at htaken
  intro j k name hj hk
  rw [accepts_set_iff hi] at hj hk
  by_cases hji : j = i
  · by_cases hki : k = i
    · rw [hji, hki]
    · rw [if_pos hji] at hj
      rw [if_neg hki] at hk
      obtain ⟨rfl, _⟩ := RegisterThread.done.inj hj
      exact absurd hk (hother k)
  · rw [if_neg hji] at hj
    by_cases hki : k = i
    · rw [if_pos hki] at hk
      obtain ⟨rfl, _⟩ := RegisterThread.done.inj hk
      exact absurd hj (hother j)
    · rw [if_neg hki] at hk
      exact hu.calls j k name hj hk

/-- **One step** keeps the names unique exactly when it appends no name that is
there. -/
theorem step_uniqueNames_iff {c c' : Config Text RegisterThread} {e : ℕ × RegisterThread}
    (hfile : EndsInSpace c.shared ∧ leftover c.shared = [])
    (hknown : ∀ th ∈ c.threads, th.Known c.shared) (hu : UniqueNames c)
    (h : Step RegisterThread.next c e c') : UniqueNames c' ↔ StillFree c e := by
  obtain ⟨i, th⟩ := e
  obtain ⟨hi, f', th', hnext, rfl⟩ := h
  have hth := hknown th (List.mem_of_getElem? hi)
  cases th with
  | scan user pass =>
    simp only [RegisterThread.next, Option.some.injEq, Prod.mk.injEq] at hnext
    obtain ⟨rfl, rfl⟩ := hnext
    refine ⟨fun _ user' pass' hc => by simp at hc, fun _ => ⟨hu.file, ?_⟩⟩
    -- no call is accepted by a scan
    have hold : ∀ (j : ℕ) (name : Text),
        Accepts ⟨c.shared, c.threads.set i (if userTaken c.shared user = true then
          .done user false else .append user pass)⟩ j name → Accepts c j name := by
      intro j name hj
      rw [accepts_set_iff hi] at hj
      split at hj
      · split at hj <;> simp at hj
      · exact hj
    exact fun j k name hj hk => hu.calls j k name (hold j name hj) (hold k name hk)
  | append user pass =>
    simp only [RegisterThread.next, Option.some.injEq, Prod.mk.injEq] at hnext
    obtain ⟨rfl, rfl⟩ := hnext
    have hnames := nodup_names_append_iff hfile.1 hfile.2 hth.1 hth.2
    constructor
    · rintro ⟨hnodup, _⟩ user' pass' heq
      obtain ⟨rfl, rfl⟩ := RegisterThread.append.inj heq
      exact (hnames.mp hnodup).2
    · intro hfree
      have huser := hfree user pass rfl
      exact ⟨hnames.mpr ⟨hu.file, huser⟩, hu.accept hknown hi huser _⟩
  | done user ok => simp [RegisterThread.next] at hnext

/-! ### Runs -/

/-- **Unique names under concurrency.**  Throughout a run no name is held twice and
no two calls with one name are accepted, exactly when every append of the run finds
its name still free. -/
theorem uniqueNames_iff {file : Text} (hfile : AccountsFile file) {calls : List (Text × Text)}
    (hwords : ∀ call ∈ calls, IsWord call.1 ∧ IsWord call.2) {es : List (ℕ × RegisterThread)}
    {c : Config Text RegisterThread}
    (h : Run (Step RegisterThread.next) (registering file calls) es c) :
    Along (Step RegisterThread.next) (registering file calls) es (fun _ c => UniqueNames c) ↔
      Steps (Step RegisterThread.next) (registering file calls) es
        (fun _ c e => StillFree c e) := by
  obtain ⟨hend, hleft, hnames⟩ := hfile
  have hstart : UniqueNames (registering file calls) := by
    refine ⟨hnames, fun i j user hi _ => ?_⟩
    obtain ⟨call, _, hc⟩ := List.mem_map.mp (List.mem_of_getElem? hi)
    exact absurd hc (by simp)
  refine along_iff_steps step_deterministic hstart h ?_
  intro pre c e c' hrun hu hstep
  obtain ⟨hshared, hknown⟩ := known_of_run ⟨hend, hleft⟩ hwords hrun
  exact step_uniqueNames_iff hshared hknown hu hstep

/-- Two calls that register `bob`. -/
def twoBobs : List (Text × Text) := [("bob".toList, "1".toList), ("bob".toList, "2".toList)]

/-- One call after the other: the second is refused. -/
theorem uniqueNames_iff_bob : ∃ es c,
    Run (Step RegisterThread.next) (registering adminFile twoBobs) es c ∧
      c.threads = [.done "bob".toList true, .done "bob".toList false] ∧
      (Along (Step RegisterThread.next) (registering adminFile twoBobs) es
          (fun _ c => UniqueNames c) ↔
        Steps (Step RegisterThread.next) (registering adminFile twoBobs) es
          (fun _ c e => StillFree c e)) := by
  obtain ⟨es, c, hrun, htest⟩ := run_of_scheduleThen RegisterThread.next
    (registering adminFile twoBobs) [0, 0, 1]
    (fun _ c => c.threads = [.done "bob".toList true, .done "bob".toList false]) (by decide)
  exact ⟨es, c, hrun, by simpa using htest,
    uniqueNames_iff (accountsFile_of_usersFile usersFile_adminFile (by decide)) (by decide) hrun⟩

/-- Both calls scan before either appends: both are accepted, and the file holds
`bob` twice. -/
theorem two_registrations_one_name : ∃ es c,
    Run (Step RegisterThread.next) (registering adminFile twoBobs) es c ∧
      c.threads = [.done "bob".toList true, .done "bob".toList true] ∧
      ¬ ((accounts c.shared).map fun a => a.1).Nodup ∧ ¬ UniqueNames c := by
  obtain ⟨es, c, hrun, htest⟩ := run_of_scheduleThen RegisterThread.next
    (registering adminFile twoBobs) [0, 1, 0, 1]
    (fun _ c => c.threads = [.done "bob".toList true, .done "bob".toList true] ∧
      ¬ ((accounts c.shared).map fun a => a.1).Nodup) (by decide)
  simp only [decide_eq_true_eq] at htest
  exact ⟨es, c, hrun, htest.1, htest.2, fun hu => htest.2 hu.file⟩

/-! ### One call alone -/

/-- A call that runs alone does what `registerUser` does. -/
theorem register_alone (file user pass : Text) :
    ∃ es, Run (Step RegisterThread.next) (registering file [(user, pass)]) es
      ⟨(registerUser file user pass).2, [.done user (registerUser file user pass).1]⟩ := by
  have hscan : Step RegisterThread.next (registering file [(user, pass)])
      (0, .scan user pass)
      ⟨file, [if userTaken file user then .done user false else .append user pass]⟩ :=
    ⟨rfl, _, _, rfl, rfl⟩
  rw [registerUser]
  cases htaken : userTaken file user with
  | true =>
    rw [htaken, if_pos rfl] at hscan
    exact ⟨_, Run.nil.snoc hscan⟩
  | false =>
    rw [htaken, if_neg (by simp)] at hscan
    have happend : Step RegisterThread.next ⟨file, [.append user pass]⟩ (0, .append user pass)
        ⟨file ++ userLine user pass, [.done user true]⟩ := ⟨rfl, _, _, rfl, rfl⟩
    exact ⟨_, (Run.nil.snoc hscan).snoc happend⟩

end SmartParking
