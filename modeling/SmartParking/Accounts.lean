/-
The users file: `loginUser` and `registerUser` of `Server.cpp`.

The file `./UserFiles/users.txt` is a text that both functions scan three words
at a time (`while(file >> u >> p >> r)`); a registration appends one line.  A
missing file reads as the empty one: no login succeeds, the scan for the name
finds nothing, and the append creates it.

Over the text stands the list of accounts it is meant to hold, `accounts`:

* `loginUser_eq` — a login looks up the first account with the given name and
  password;
* `accounts_append_userLine` — the line of a registration keeps the accounts and adds
  those that the leftover words of the file form with the words appended;
* `Registers` — the step relation of the calls of `registerUser`, with the
  invariants of its runs (`endsInSpace_of_run`, `accounts_prefix_of_run`).
-/
import SmartParking.Library.Runs
import SmartParking.Library.TextStream

open TextStream Runs

namespace SmartParking

/-- The text `user`, the role written for a new account. -/
def roleUser : Text := ['u', 's', 'e', 'r']

/-- `loginUser`: the role of the account found, if any. -/
def loginUser (file user pass : Text) : Option Text :=
  ((readAll readTriple file).find? fun t => t.1 = user && t.2.1 = pass).map fun t => t.2.2

/-- The scan of `registerUser`: is the name taken? -/
def userTaken (file user : Text) : Bool :=
  (readAll readTriple file).any fun t => t.1 = user

/-- The line `registerUser` appends. -/
def userLine (user pass : Text) : Text := user ++ ' ' :: pass ++ ' ' :: roleUser ++ ['\n']

/-- `registerUser`: its result and the file afterwards. -/
def registerUser (file user pass : Text) : Bool × Text :=
  if userTaken file user then (false, file) else (true, file ++ userLine user pass)

/-! ### The handlers -/

structure LoginReply where
  success : Bool
  role : Text
  deriving DecidableEq

/-- The `/login` handler; a missing parameter is the empty string. -/
def loginHandler (file : Text) (user pass : Option Text) : LoginReply :=
  match loginUser file (user.getD []) (pass.getD []) with
  | some role => { success := true, role := role }
  | none => { success := false, role := roleUser }

structure RegisterReply where
  success : Bool
  error : Option String
  deriving DecidableEq

/-- The `/register` handler. -/
def registerHandler (file : Text) (user pass : Option Text) : RegisterReply × Text :=
  let (ok, file) := registerUser file (user.getD []) (pass.getD [])
  ({ success := ok, error := if ok then none else some "User already exists" }, file)

/-! ### The accounts in a file -/

/-- The accounts of a file: its words by threes. -/
def accounts (file : Text) : List (Text × Text × Text) := triples (words file)

/-- The words at the end of the file that form no account yet. -/
def leftover (file : Text) : List Text := (words file).drop (3 * ((words file).length / 3))

theorem loginUser_eq (file user pass : Text) :
    loginUser file user pass =
      ((accounts file).find? fun t => t.1 = user && t.2.1 = pass).map fun t => t.2.2 := by
  rw [loginUser, readAll_readTriple, accounts]

theorem userTaken_iff {file user : Text} :
    userTaken file user = true ↔ ∃ t ∈ accounts file, t.1 = user := by
  rw [userTaken, readAll_readTriple, accounts]
  simp

theorem triples_append_of_dvd {α : Type} {l : List α} (m : List α) (h : 3 ∣ l.length) :
    triples (l ++ m) = triples l ++ triples m := by
  obtain ⟨k, hk⟩ := h
  induction k generalizing l with
  | zero =>
    obtain rfl : l = [] := List.length_eq_zero_iff.mp (by omega)
    rfl
  | succ k ih =>
    match l, hk with
    | a :: b :: c :: l', hk =>
      have hl' : l'.length = 3 * k := by
        simp only [List.length_cons] at hk
        omega
      simp only [List.cons_append, triples, ih hl']

theorem triples_of_length_lt {α : Type} {l : List α} (h : l.length < 3) : triples l = [] := by
  match l, h with
  | [], _ => rfl
  | [_], _ => rfl
  | [_, _], _ => rfl

/-- Grouping by threes keeps the groups of a prefix; what it left over is
grouped with the rest. -/
theorem triples_append {α : Type} (l m : List α) :
    triples (l ++ m) = triples l ++ triples (l.drop (3 * (l.length / 3)) ++ m) := by
  have hlen : (l.take (3 * (l.length / 3))).length = 3 * (l.length / 3) := by
    rw [List.length_take]
    omega
  have hdvd : 3 ∣ (l.take (3 * (l.length / 3))).length := ⟨l.length / 3, hlen⟩
  have hrest : triples (l.drop (3 * (l.length / 3))) = [] := by
    refine triples_of_length_lt ?_
    rw [List.length_drop]
    omega
  -- cut both lists after the full groups of `l`
  have hl := triples_append_of_dvd (l.drop (3 * (l.length / 3))) hdvd
  rw [List.take_append_drop, hrest, List.append_nil] at hl
  have hlm := triples_append_of_dvd (l.drop (3 * (l.length / 3)) ++ m) hdvd
  rw [← List.append_assoc, List.take_append_drop] at hlm
  rw [hlm, hl]

theorem length_leftover (file : Text) : (leftover file).length < 3 := by
  rw [leftover, List.length_drop]
  omega

theorem isWord_roleUser : IsWord roleUser := by decide

theorem words_userLine (user pass : Text) :
    words (userLine user pass) = words user ++ words pass ++ [roleUser] := by
  have hspace : isSpace ' ' = true := by decide
  have hnewline : isSpace '\n' = true := by decide
  have hline : userLine user pass = user ++ ' ' :: (pass ++ ' ' :: (roleUser ++ '\n' :: [])) := by
    simp [userLine]
  rw [hline, words_append_cons hspace, words_append_cons hspace,
    words_append_cons hnewline, words_word isWord_roleUser]
  simp

theorem endsInSpace_userLine (file user pass : Text) :
    EndsInSpace (file ++ userLine user pass) := by
  intro c hc
  rw [userLine, ← List.append_assoc, List.getLast?_append] at hc
  simp only [List.getLast?_singleton, Option.some_or, Option.mem_def, Option.some.injEq] at hc
  subst hc
  decide

/-- The accounts a registration adds. -/
def newAccounts (file user pass : Text) : List (Text × Text × Text) :=
  triples (leftover file ++ (words user ++ words pass ++ [roleUser]))

/-- Appending the line keeps the accounts and adds those formed by the leftover
words and the words appended. -/
theorem accounts_append_userLine {file : Text} (hfile : EndsInSpace file) (user pass : Text) :
    accounts (file ++ userLine user pass) = accounts file ++ newAccounts file user pass := by
  rw [accounts, words_append hfile, words_userLine, triples_append]
  rfl

theorem loginUser_append_userLine {file : Text} (hfile : EndsInSpace file)
    (user pass u p : Text) :
    loginUser (file ++ userLine user pass) u p =
      (loginUser file u p).or
        (((newAccounts file user pass).find? fun t => t.1 = u && t.2.1 = p).map
          fun t => t.2.2) := by
  rw [loginUser_eq, loginUser_eq, accounts_append_userLine hfile, List.find?_append]
  cases (accounts file).find? fun t => t.1 = u && t.2.1 = p <;> simp

/-! ### Runs of registrations -/

/-- One call of `registerUser(call.1, call.2)`. -/
def Registers (file : Text) (call : Text × Text) (file' : Text) : Prop :=
  file' = (registerUser file call.1 call.2).2

theorem registers_deterministic : Deterministic Registers := by
  intro s e s₁ s₂ h₁ h₂
  rw [h₁, h₂]

/-- A call either finds the name taken and leaves the file, or appends its line. -/
theorem registers_cases {file file' : Text} {call : Text × Text} (h : Registers file call file') :
    (userTaken file call.1 = true ∧ file' = file) ∨
      (userTaken file call.1 = false ∧ file' = file ++ userLine call.1 call.2) := by
  rw [Registers, registerUser] at h
  cases ht : userTaken file call.1 with
  | true => exact .inl ⟨rfl, by simpa [ht] using h⟩
  | false => exact .inr ⟨rfl, by simpa [ht] using h⟩

variable {file : Text} {calls : List (Text × Text)} {s : Text}

theorem endsInSpace_of_run (hfile : EndsInSpace file) (h : Run Registers file calls s) :
    EndsInSpace s := by
  refine h.invariant (I := fun _ s => EndsInSpace s) hfile ?_
  intro _ s c s' _ hs hstep
  rcases registers_cases hstep with ⟨_, rfl⟩ | ⟨_, rfl⟩
  · exact hs
  · exact endsInSpace_userLine _ _ _

/-- Registrations only append accounts. -/
theorem accounts_prefix_of_run (hfile : EndsInSpace file) (h : Run Registers file calls s) :
    accounts file <+: accounts s := by
  have key : EndsInSpace s ∧ accounts file <+: accounts s := by
    refine h.invariant (I := fun _ s => EndsInSpace s ∧ accounts file <+: accounts s)
      ⟨hfile, List.prefix_rfl⟩ ?_
    rintro _ s c s' _ ⟨hs, hpre⟩ hstep
    rcases registers_cases hstep with ⟨_, rfl⟩ | ⟨_, rfl⟩
    · exact ⟨hs, hpre⟩
    · refine ⟨endsInSpace_userLine _ _ _, hpre.trans ?_⟩
      rw [accounts_append_userLine hs]
      exact List.prefix_append _ _
  exact key.2

/-- A login that succeeds goes on succeeding, with the same role. -/
theorem loginUser_of_run (hfile : EndsInSpace file) (h : Run Registers file calls s)
    {u p r : Text} (hlogin : loginUser file u p = some r) : loginUser s u p = some r := by
  obtain ⟨more, hmore⟩ := accounts_prefix_of_run hfile h
  rw [loginUser_eq] at hlogin ⊢
  -- the first match stays first, since accounts are only appended
  obtain ⟨t, ht, rfl⟩ := Option.map_eq_some_iff.mp hlogin
  rw [← hmore, List.find?_append, ht]
  rfl

/-! ### Well-formed files -/

/-- Newline-terminated lines of three words each. -/
def UsersFile (file : Text) : Prop :=
  ∃ lines : List Text, file = lines.flatMap (fun l => l ++ ['\n']) ∧
    ∀ l ∈ lines, '\n' ∉ l ∧ (words l).length = 3

theorem endsInSpace_lines (lines : List Text) :
    EndsInSpace (lines.flatMap fun l => l ++ ['\n']) := by
  rcases List.eq_nil_or_concat lines with rfl | ⟨init, l, rfl⟩
  · simp [EndsInSpace]
  · intro c hc
    rw [List.concat_eq_append, List.flatMap_append, List.flatMap_singleton,
      ← List.append_assoc, List.getLast?_append] at hc
    simp only [List.getLast?_singleton, Option.some_or, Option.mem_def, Option.some.injEq] at hc
    subst hc
    decide

theorem endsInSpace_of_usersFile (h : UsersFile file) : EndsInSpace file := by
  obtain ⟨lines, rfl, _⟩ := h
  exact endsInSpace_lines lines

/-- In a well-formed file no word is left over. -/
theorem leftover_of_usersFile (h : UsersFile file) : leftover file = [] := by
  obtain ⟨lines, rfl, hlines⟩ := h
  -- each line ends in a break, so the words of the file are those of its lines
  have hdvd : 3 ∣ (words (lines.flatMap fun l => l ++ ['\n'])).length := by
    induction lines with
    | nil => simp
    | cons l ls ih =>
      have hl := (hlines l (by simp)).2
      have hls := ih fun l' hl' => hlines l' (by simp [hl'])
      have hnewline : isSpace '\n' = true := by decide
      rw [List.flatMap_cons, List.append_assoc, List.singleton_append,
        words_append_cons hnewline, List.length_append, hl]
      exact (Nat.dvd_add_right (by decide)).mpr hls
  rw [leftover, Nat.mul_div_cancel' hdvd, List.drop_length]

end SmartParking
