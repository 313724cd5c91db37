/-
The users file as a table of accounts.

A file that ends at a break, whose words form triples with distinct names, stands
for a table keyed by the user name (`Represents`).  On such a file, and for names
and passwords that are single words, `registerUser` is `Registry.enroll` and
`loginUser` looks its pair up:

* `represents_registerUser` — one call;
* `represents_run` — a sequence of calls adds the accounts accepted, in order;
* `users_refine` — what the file holds and answers after every sequence of calls;
* `accounts_survive` — for arbitrary strings, and on a file whose words need not
  form triples, logins and taken names are kept all the same.
-/
import SmartParking.Library.Registry
import SmartParking.Registration

open TextStream Runs

namespace SmartParking

/-- An account: name, password and role. -/
abbrev Account : Type := Text × Text × Text

/-- Accounts with distinct names. -/
abbrev AccountTable : Type := Registry fun a : Account => a.1

/-- The file stands for the table. -/
structure Represents (file : Text) (table : AccountTable) : Prop where
  accounts : accounts file = table.records
  complete : leftover file = []
  terminated : EndsInSpace file

/-- An empty file, or one that ends in whitespace, whose words form triples with
distinct names. -/
def AccountsFile (file : Text) : Prop :=
  EndsInSpace file ∧ leftover file = [] ∧ ((accounts file).map fun a => a.1).Nodup

theorem exists_represents {file : Text} (h : AccountsFile file) :
    ∃ table, Represents file table :=
  ⟨⟨accounts file, h.2.2⟩, rfl, h.2.1, h.1⟩

/-- Lines of three words with distinct names are such a file. -/
theorem accountsFile_of_usersFile {file : Text} (h : UsersFile file)
    (hd : ((accounts file).map fun a => a.1).Nodup) : AccountsFile file :=
  ⟨endsInSpace_of_usersFile h, leftover_of_usersFile h, hd⟩

/-! ### One call -/

theorem Represents.userTaken_iff {file : Text} {table : AccountTable} (h : Represents file table)
    {user : Text} : userTaken file user = true ↔ table.Taken user := by
  rw [SmartParking.userTaken_iff, h.accounts, Registry.taken_iff]

theorem leftover_eq_nil_iff {file : Text} : leftover file = [] ↔ 3 ∣ (words file).length := by
  rw [leftover, List.drop_eq_nil_iff]
  omega

/-- A line of words, on a file without words left over, is one account. -/
theorem accounts_append_words {file : Text} (hend : EndsInSpace file) (hleft : leftover file = [])
    {user pass : Text} (hu : IsWord user) (hp : IsWord pass) :
    accounts (file ++ userLine user pass) = accounts file ++ [(user, pass, roleUser)] := by
  rw [accounts_append_userLine hend, newAccounts, hleft, words_word hu, words_word hp]
  rfl

theorem leftover_append_words {file : Text} (hend : EndsInSpace file) (hleft : leftover file = [])
    {user pass : Text} (hu : IsWord user) (hp : IsWord pass) :
    leftover (file ++ userLine user pass) = [] := by
  have hfile := leftover_eq_nil_iff.mp hleft
  rw [leftover_eq_nil_iff, words_append hend, words_userLine, words_word hu, words_word hp,
    List.length_append]
  exact (Nat.dvd_add_right hfile).mpr (by simp)

theorem represents_append {file : Text} {table table' : AccountTable} (h : Represents file table)
    {user pass : Text} (hu : IsWord user) (hp : IsWord pass)
    (htable : table'.records = table.records ++ [(user, pass, roleUser)]) :
    Represents (file ++ userLine user pass) table' where
  accounts := by rw [accounts_append_words h.terminated h.complete hu hp, h.accounts, htable]
  complete := leftover_append_words h.terminated h.complete hu hp
  terminated := endsInSpace_userLine file user pass

/-- **One call** of `registerUser` enrolls an account. -/
theorem represents_registerUser {file : Text} {table : AccountTable} (h : Represents file table)
    {user pass : Text} (hu : IsWord user) (hp : IsWord pass) :
    (registerUser file user pass).1 = (table.enroll (user, pass, roleUser)).1 ∧
      Represents (registerUser file user pass).2 (table.enroll (user, pass, roleUser)).2 := by
  by_cases htaken : table.Taken user
  · rw [registerUser, if_pos (h.userTaken_iff.mpr htaken), Registry.enroll_of_taken htaken]
    exact ⟨rfl, h⟩
  · obtain ⟨hok, hrecords⟩ := Registry.enroll_of_free (r := (user, pass, roleUser)) htaken
    rw [registerUser, if_neg fun hc => htaken (h.userTaken_iff.mp hc)]
    exact ⟨hok.symm, represents_append h hu hp hrecords⟩

/-- A login looks the pair up in the table. -/
theorem Represents.loginUser_iff {file : Text} {table : AccountTable} (h : Represents file table)
    {u p r : Text} : loginUser file u p = some r ↔ (u, p, r) ∈ table.records := by
  rw [loginUser_eq, h.accounts, Option.map_eq_some_iff]
  have hkey : ∀ a : Account, (a.1 = u && a.2.1 = p : Bool) = true → a.1 = u := by
    intro a ha
    simp only [Bool.and_eq_true, decide_eq_true_eq] at ha
    exact ha.1
  simp only [table.find?_eq_some_iff hkey, Bool.and_eq_true, decide_eq_true_eq]
  constructor
  · rintro ⟨a, ⟨ha, rfl, rfl⟩, rfl⟩
    exact ha
  · intro hmem
    exact ⟨(u, p, r), ⟨hmem, rfl, rfl⟩, rfl⟩

/-! ### Sequences of calls -/

/-- A call of `registerUser` with its result. -/
abbrev Answered : Type := (Text × Text) × Bool

/-- The account a call asks for. -/
def Answered.account (e : Answered) : Account := (e.1.1, e.1.2, roleUser)

/-- `registerUser` answers a call and leaves a file. -/
def Answers (file : Text) (e : Answered) (file' : Text) : Prop :=
  registerUser file e.1.1 e.1.2 = (e.2, file')

/-- The accounts of the calls that were accepted, in order. -/
def accepted (es : List Answered) : List Account :=
  (es.filter fun e => e.2).map Answered.account

theorem accepted_snoc (es : List Answered) (e : Answered) :
    accepted (es ++ [e]) = accepted es ++ if e.2 then [e.account] else [] := by
  rw [accepted, accepted, List.filter_append, List.map_append]
  cases he : e.2 <;> simp [he]

/-- **A sequence of calls** keeps to the table: the file stands for the accounts
enrolled one after another, which are those of the calls accepted. -/
theorem represents_run {file s : Text} {table : AccountTable} {es : List Answered}
    (hfile : Represents file table) (hwords : ∀ e ∈ es, IsWord e.1.1 ∧ IsWord e.1.2)
    (h : Run Answers file es s) :
    Represents s (table.enrollAll (es.map Answered.account)) ∧
      (table.enrollAll (es.map Answered.account)).records = table.records ++ accepted es := by
  induction h with
  | nil => exact ⟨hfile, by simp [Registry.enrollAll, accepted]⟩
  | @snoc es s s' e _ hstep ih =>
    obtain ⟨hs, hrecords⟩ := ih fun e' he' => hwords e' (List.mem_append_left _ he')
    obtain ⟨hu, hp⟩ := hwords e (by simp)
    obtain ⟨hok, hs'⟩ := represents_registerUser hs hu hp
    have hanswer : e.2 = ((table.enrollAll (es.map Answered.account)).enroll e.account).1 := by
      rw [hstep] at hok
      exact hok
    rw [hstep] at hs'
    rw [List.map_append, List.map_singleton, Registry.enrollAll_snoc, accepted_snoc]
    refine ⟨hs', ?_⟩
    -- the answer says whether the account has been added
    by_cases htaken : (table.enrollAll (es.map Answered.account)).Taken e.1.1
    · rw [Registry.enroll_of_taken htaken] at hanswer ⊢
      rw [hrecords, if_neg (by simp [hanswer]), List.append_nil]
    · obtain ⟨hfree, hnew⟩ := Registry.enroll_of_free (r := e.account) htaken
      rw [hnew, hrecords, if_pos (hanswer.trans hfree), List.append_assoc]

/-- **The users file refines a table of accounts.**  After every sequence of calls
it holds the accounts it held and those accepted, in order, with distinct names;
a call is refused exactly when the name is there, and a login succeeds exactly
with what is there. -/
theorem users_refine {file s : Text} {es : List Answered} (hfile : AccountsFile file)
    (hwords : ∀ e ∈ es, IsWord e.1.1 ∧ IsWord e.1.2) (h : Run Answers file es s) :
    accounts s = accounts file ++ accepted es ∧ leftover s = [] ∧
      ((accounts s).map fun a => a.1).Nodup ∧
      (∀ user pass, registerUser s user pass = (false, s) ↔ ∃ a ∈ accounts s, a.1 = user) ∧
      (∀ u p, (loginUser s u p).isSome = true ↔ ∃ r, (u, p, r) ∈ accounts s) ∧
      ∀ u p r, (u, p, r) ∈ accounts s → loginUser s u p = some r := by
  obtain ⟨table, htable⟩ := exists_represents hfile
  obtain ⟨hs, hrecords⟩ := represents_run htable hwords h
  have hlogin : ∀ u p r, loginUser s u p = some r ↔ (u, p, r) ∈ accounts s := by
    intro u p r
    rw [hs.loginUser_iff, hs.accounts]
  refine ⟨?_, hs.complete, ?_, ?_, ?_, fun u p r => (hlogin u p r).mpr⟩
  · rw [hs.accounts, hrecords, htable.accounts]
  · rw [hs.accounts]
    exact Registry.distinct _
  · intro user pass
    rw [← userTaken_iff, registerUser]
    cases userTaken s user <;> simp
  · intro u p
    rw [Option.isSome_iff_exists]
    exact exists_congr (hlogin u p)

/-- On a one-account file, `bob` is accepted once and then refused. -/
theorem users_refine_bob : ∃ s, Run Answers adminFile
      [(("bob".toList, "1".toList), true), (("bob".toList, "2".toList), false)] s ∧
    accounts s = accounts adminFile ++ [("bob".toList, "1".toList, roleUser)] := by
  have hfirst : Answers adminFile (("bob".toList, "1".toList), true)
      (adminFile ++ userLine "bob".toList "1".toList) := by
    unfold Answers
    decide
  have hsecond : Answers (adminFile ++ userLine "bob".toList "1".toList)
      (("bob".toList, "2".toList), false) (adminFile ++ userLine "bob".toList "1".toList) := by
    unfold Answers
    decide
  have hrun := (Run.nil.snoc hfirst).snoc hsecond
  exact ⟨_, hrun, (users_refine (accountsFile_of_usersFile usersFile_adminFile (by decide))
    (by decide) hrun).1⟩

/-! ### Arbitrary strings -/

/-- **Registered accounts survive.**  Whatever is registered, and however the words
of the file group, a login that succeeds goes on succeeding with its role, and a
name that is refused goes on being refused. -/
theorem accounts_survive {file s : Text} {calls : List (Text × Text)} (hfile : EndsInSpace file)
    (h : Run Registers file calls s) :
    (∀ u p r, loginUser file u p = some r → loginUser s u p = some r) ∧
      ∀ user pass pass', (registerUser file user pass).1 = false →
        (registerUser s user pass').1 = false := by
  have hrefused : ∀ file user pass, (registerUser file user pass).1 = false ↔
      ∃ a ∈ accounts file, a.1 = user := by
    intro file user pass
    rw [← userTaken_iff, registerUser]
    cases userTaken file user <;> simp
  refine ⟨fun u p r hlogin => loginUser_of_run hfile h hlogin, fun user pass pass' hno => ?_⟩
  obtain ⟨a, ha, hname⟩ := (hrefused file user pass).mp hno
  exact (hrefused s user pass').mpr
    ⟨a, (accounts_prefix_of_run hfile h).subset ha, hname⟩

/-- A name with a blank shifts the words that follow; `admin` still logs in. -/
theorem accounts_survive_admin : ∃ s, Run Registers adminFile [("eve x".toList, [])] s ∧
    loginUser s "admin".toList "123".toList = some "admin".toList := by
  have hrun : Run Registers adminFile [("eve x".toList, [])]
      (registerUser adminFile "eve x".toList []).2 := Run.snoc (s := adminFile) .nil rfl
  exact ⟨_, hrun, (accounts_survive (endsInSpace_of_usersFile usersFile_adminFile) hrun).1 _ _ _
    (by decide)⟩

end SmartParking
