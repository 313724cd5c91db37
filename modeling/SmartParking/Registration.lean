/-
What registrations can and cannot do to logins.

A registration appends the words of both fields and the word `user` to a file
that is read three words at a time, so a field with a blank, a newline or no
character at all shifts the records that follow.

* `registration_grants_admin` — one call with a newline in the password field
  creates an admin login;
* `noNewPrivilege_iff` — along a run of registrations no new login with
  another role than `user` appears exactly when each call's words form only
  records with role `user` or repeats of earlier ones (`Harmless`);
* `registered_cannot_login` — an empty name registers and cannot log in;
* `registered_login_iff` — an accepted registration can log in, then and ever
  after, exactly when its record falls into step with the file (`InStep`).
-/
import SmartParking.Accounts

open TextStream Runs

namespace SmartParking

/-! ### Roles -/

/-- No pair logs in with a role other than `user` that it did not have before. -/
def NoNewPrivilege (before after : Text) : Prop :=
  ∀ u p r, r ≠ roleUser → loginUser after u p = some r → loginUser before u p = some r

/-- The call leaves the file alone, or every record its words form with the
words left over at the end of the file has the role `user` or repeats the name
and password of an earlier record. -/
def Harmless (file : Text) (call : Text × Text) : Prop :=
  userTaken file call.1 = true ∨
    ∀ pre t post, newAccounts file call.1 call.2 = pre ++ t :: post →
      t.2.2 = roleUser ∨ ∃ b ∈ accounts file ++ pre, b.1 = t.1 ∧ b.2.1 = t.2.1

/-- Two words in the fields of a call, on a file in step: its record is harmless. -/
theorem harmless_of_two_words {file : Text} {call : Text × Text} (hfile : leftover file = [])
    (h : (words call.1 ++ words call.2).length = 2) : Harmless file call := by
  obtain ⟨a, b, hab⟩ := List.length_eq_two.mp h
  refine .inr fun pre t post hnew => .inl ?_
  rw [newAccounts, hfile, hab] at hnew
  have ht : t ∈ [(a, b, roleUser)] := by
    rw [show [(a, b, roleUser)] = pre ++ t :: post from hnew]
    simp
  rw [List.mem_singleton.mp ht]

theorem find?_account_isSome {l : List (Text × Text × Text)} {u p : Text}
    (h : ∃ b ∈ l, b.1 = u ∧ b.2.1 = p) :
    ∃ t, l.find? (fun t => t.1 = u && t.2.1 = p) = some t := by
  refine Option.isSome_iff_exists.mp (List.find?_isSome.mpr ?_)
  obtain ⟨b, hb, h1, h2⟩ := h
  exact ⟨b, hb, by simp [h1, h2]⟩

/-- One call keeps `NoNewPrivilege` exactly when it is harmless. -/
theorem noNewPrivilege_step {file s s' : Text} {call : Text × Text} (hfile : EndsInSpace file)
    {calls : List (Text × Text)} (hrun : Run Registers file calls s)
    (hs : NoNewPrivilege file s) (hstep : Registers s call s') :
    NoNewPrivilege file s' ↔ Harmless s call := by
  have hspace := endsInSpace_of_run hfile hrun
  rcases registers_cases hstep with ⟨htaken, rfl⟩ | ⟨htaken, rfl⟩
  · exact ⟨fun _ => .inl htaken, fun _ => hs⟩
  constructor
  · intro hs'
    refine .inr fun pre t post hnew => ?_
    by_contra hbad
    obtain ⟨hrole, hnone⟩ := not_or.mp hbad
    -- the first record with this name and password is `t` itself
    have hfirst : (accounts s ++ pre).find? (fun b => b.1 = t.1 && b.2.1 = t.2.1) = none := by
      rw [List.find?_eq_none]
      intro b hb hmatch
      simp only [Bool.and_eq_true, decide_eq_true_eq] at hmatch
      exact hnone ⟨b, hb, hmatch⟩
    have hlogin : loginUser (s ++ userLine call.1 call.2) t.1 t.2.1 = some t.2.2 := by
      rw [loginUser_eq, accounts_append_userLine hspace, hnew, ← List.append_assoc,
        List.find?_append, hfirst]
      simp
    have hbefore := loginUser_of_run hfile hrun (hs' _ _ _ hrole hlogin)
    rw [loginUser_eq] at hbefore
    obtain ⟨b, hb, _⟩ := Option.map_eq_some_iff.mp hbefore
    rw [List.find?_append, hb] at hfirst
    simp at hfirst
  · rintro hharm u p r hr hlogin
    rw [loginUser_append_userLine hspace] at hlogin
    cases hold : loginUser s u p with
    | some r' =>
      rw [hold] at hlogin
      exact hs u p r hr (hold.trans hlogin)
    | none =>
      rw [hold, Option.none_or] at hlogin
      obtain ⟨t, ht, rfl⟩ := Option.map_eq_some_iff.mp hlogin
      obtain ⟨hmatch, pre, post, hnew, hpre⟩ := List.find?_eq_some_iff_append.mp ht
      simp only [Bool.and_eq_true, decide_eq_true_eq] at hmatch
      obtain ⟨rfl, rfl⟩ := hmatch
      rcases hharm with hharm | hharm
      · rw [htaken] at hharm
        exact absurd hharm (by simp)
      rcases hharm pre t post hnew with hrole | ⟨b, hb, hb1, hb2⟩
      · exact absurd hrole hr
      · -- an earlier record with the same name and password would have matched
        exfalso
        rcases List.mem_append.mp hb with hb | hb
        · obtain ⟨b', hb'⟩ := find?_account_isSome ⟨b, hb, hb1, hb2⟩
          rw [loginUser_eq, hb'] at hold
          simp at hold
        · have := hpre b hb
          simp [hb1, hb2] at this

/-- A privilege gained stays: if none is gained at the end, none was before. -/
theorem noNewPrivilege_along {file : Text} (hfile : EndsInSpace file) {calls : List (Text × Text)}
    {t : Text} (hrun : Run Registers file calls t) (ht : NoNewPrivilege file t) :
    Along Registers file calls (fun _ s => NoNewPrivilege file s) := by
  rintro pre s ⟨rest, rfl⟩ hs u p r hr hlogin
  obtain ⟨s', hs', hrest⟩ := hrun.exists_append
  have heq := Run.unique registers_deterministic hs hs'
  subst heq
  exact ht u p r hr (loginUser_of_run (endsInSpace_of_run hfile hs) hrest hlogin)

/-- **Registration and privileges.**  A sequence of registrations on a
well-formed file gives no pair a login with a new role other than `user`
exactly when every call of it is harmless. -/
theorem noNewPrivilege_iff {file : Text} (hfile : UsersFile file) {calls : List (Text × Text)}
    {t : Text} (hrun : Run Registers file calls t) :
    NoNewPrivilege file t ↔ Steps Registers file calls (fun _ s call => Harmless s call) := by
  have hspace := endsInSpace_of_usersFile hfile
  have hiff : Along Registers file calls (fun _ s => NoNewPrivilege file s) ↔
      Steps Registers file calls (fun _ s call => Harmless s call) := by
    refine along_iff_steps registers_deterministic (fun _ _ _ _ h => h) hrun ?_
    intro pre s call s' hr hs hstep
    exact noNewPrivilege_step hspace hr hs hstep
  rw [← hiff]
  constructor
  · exact noNewPrivilege_along hspace hrun
  · intro h
    exact h calls t List.prefix_rfl hrun

/-- One account, `admin`. -/
def adminFile : Text := "admin 123 admin\n".toList

theorem usersFile_adminFile : UsersFile adminFile :=
  ⟨["admin 123 admin".toList], by decide, by decide⟩

/-- On a one-account file, registering `bob` with password `1` is harmless. -/
theorem noNewPrivilege_iff_bob :
    NoNewPrivilege adminFile (registerUser adminFile "bob".toList "1".toList).2 ↔
      Steps Registers adminFile [("bob".toList, "1".toList)] (fun _ s call => Harmless s call) :=
  noNewPrivilege_iff usersFile_adminFile
    (.snoc (e := ("bob".toList, "1".toList)) .nil rfl)

/-- A newline in the password field registers `eve` as an administrator. -/
theorem registration_grants_admin :
    ¬ ∀ file, UsersFile file → ∀ calls t, Run Registers file calls t → NoNewPrivilege file t := by
  intro h
  have hrun : Run Registers adminFile [("eve".toList, "pw admin\nmallory".toList)]
      (registerUser adminFile "eve".toList "pw admin\nmallory".toList).2 :=
    Run.snoc (s := adminFile) .nil rfl
  have hlogin := h _ usersFile_adminFile _ _ hrun "eve".toList "pw".toList "admin".toList
    (by decide) (by decide)
  exact absurd hlogin (by decide)

/-! ### Logging in after registering -/

/-- The record of the call falls into step with the file: both fields are one
word, and the words left over are none, or happen to complete to a record with
this name and password. -/
def InStep (file user pass : Text) : Prop :=
  IsWord user ∧ IsWord pass ∧
    (leftover file = [] ∨ (leftover file = [user] ∧ pass = user) ∨ leftover file = [user, pass])

theorem loginUser_isSome_iff {file u p : Text} :
    (loginUser file u p).isSome = true ↔ ∃ t ∈ accounts file, t.1 = u ∧ t.2.1 = p := by
  rw [loginUser_eq, Option.isSome_map, List.find?_isSome]
  simp

theorem mem_of_mem_triples {α : Type} {l : List α} {t : α × α × α} (h : t ∈ triples l) :
    t.1 ∈ l ∧ t.2.1 ∈ l := by
  induction l using triples.induct with
  | case1 a b c l ih =>
    rw [triples, List.mem_cons] at h
    rcases h with rfl | h
    · simp
    · obtain ⟨h1, h2⟩ := ih h
      simp [h1, h2]
  | case2 l hl =>
    rw [triples] at h
    · simp at h
    · exact hl

/-- The record just written is found exactly when it is in step. -/
theorem newAccounts_login_iff {file user pass : Text} :
    (∃ t ∈ newAccounts file user pass, t.1 = user ∧ t.2.1 = pass) ↔ InStep file user pass := by
  have hlen := length_leftover file
  constructor
  · rintro ⟨t, ht, rfl, rfl⟩
    have hword : ∀ w ∈ leftover file ++ (words t.1 ++ words t.2.1 ++ [roleUser]), IsWord w := by
      intro w hw
      simp only [List.mem_append, List.mem_singleton] at hw
      rcases hw with hw | (hw | hw) | rfl
      · exact isWord_of_mem_words (List.drop_subset _ _ hw)
      · exact isWord_of_mem_words hw
      · exact isWord_of_mem_words hw
      · exact isWord_roleUser
    obtain ⟨h1, h2⟩ := mem_of_mem_triples ht
    have hu := hword _ h1
    have hp := hword _ h2
    refine ⟨hu, hp, ?_⟩
    rw [newAccounts, words_word hu, words_word hp] at ht
    match hl : leftover file, hlen with
    | [], _ => exact .inl rfl
    -- one word left over: it is read as the name, and the name as the password
    | [a], _ =>
      rw [hl] at ht
      simp only [List.cons_append, List.nil_append, triples, List.mem_singleton] at ht
      obtain ⟨ha, hb⟩ : t.1 = a ∧ t.2.1 = t.1 := by
        rw [Prod.ext_iff, Prod.ext_iff] at ht
        exact ⟨ht.1, ht.2.1⟩
      exact .inr (.inl ⟨by rw [ha], hb⟩)
    -- two words left over: they are read as name and password
    | [a, b], _ =>
      rw [hl] at ht
      simp only [List.cons_append, List.nil_append, triples, List.mem_singleton] at ht
      obtain ⟨ha, hb⟩ : t.1 = a ∧ t.2.1 = b := by
        rw [Prod.ext_iff, Prod.ext_iff] at ht
        exact ⟨ht.1, ht.2.1⟩
      exact .inr (.inr (by rw [ha, hb]))
  · rintro ⟨hu, hp, hl⟩
    rw [newAccounts, words_word hu, words_word hp]
    rcases hl with hl | ⟨hl, rfl⟩ | hl
    · exact ⟨(user, pass, roleUser), by simp [hl, triples], rfl, rfl⟩
    · exact ⟨(pass, pass, pass), by simp [hl, triples], rfl, rfl⟩
    · exact ⟨(user, pass, user), by simp [hl, triples], rfl, rfl⟩

/-- **Logging in after registering.**  On every file reached from a well-formed
one, an accepted registration logs in — at once and after any further
registrations — exactly when its record falls into step. -/
theorem registered_login_iff {file : Text} (hfile : UsersFile file) {calls : List (Text × Text)}
    {s : Text} (hrun : Run Registers file calls s) {user pass : Text}
    (hok : (registerUser s user pass).1 = true) :
    (∀ later t, Run Registers (registerUser s user pass).2 later t →
      (loginUser t user pass).isSome = true) ↔ InStep s user pass := by
  have hspace := endsInSpace_of_run (endsInSpace_of_usersFile hfile) hrun
  have hfree : userTaken s user = false := by
    rw [registerUser] at hok
    split at hok
    · exact absurd hok (by simp)
    · rename_i h
      simpa using h
  have hafter : (registerUser s user pass).2 = s ++ userLine user pass := by
    simp [registerUser, hfree]
  have hold : ¬ ∃ t ∈ accounts s, t.1 = user := fun h => by
    rw [userTaken_iff.mpr h] at hfree
    exact absurd hfree (by simp)
  -- the name was free, so only a new record can match
  have hnow : (loginUser (s ++ userLine user pass) user pass).isSome = true ↔
      InStep s user pass := by
    rw [← newAccounts_login_iff, loginUser_isSome_iff, accounts_append_userLine hspace]
    constructor
    · rintro ⟨t, ht, h1, h2⟩
      rcases List.mem_append.mp ht with ht | ht
      · exact absurd ⟨t, ht, h1⟩ hold
      · exact ⟨t, ht, h1, h2⟩
    · rintro ⟨t, ht, h⟩
      exact ⟨t, List.mem_append_right _ ht, h⟩
  rw [hafter, ← hnow]
  constructor
  · intro h
    exact h [] _ .nil
  · intro h later t ht
    obtain ⟨r, hr⟩ := Option.isSome_iff_exists.mp h
    rw [loginUser_of_run (endsInSpace_userLine _ _ _) ht hr]
    rfl

/-- Registering `bob` on a one-account file is in step. -/
theorem registered_login_iff_bob :
    (∀ later t, Run Registers (registerUser adminFile "bob".toList "1".toList).2 later t →
      (loginUser t "bob".toList "1".toList).isSome = true) ↔
      InStep adminFile "bob".toList "1".toList :=
  registered_login_iff usersFile_adminFile .nil (by decide)

/-- With an empty name the registration is accepted and the login fails. -/
theorem registered_cannot_login :
    ¬ ∀ file, UsersFile file → ∀ calls s, Run Registers file calls s → ∀ user pass,
      (registerUser s user pass).1 = true →
      ∀ later t, Run Registers (registerUser s user pass).2 later t →
        (loginUser t user pass).isSome = true := by
  intro h
  have hlogin := h _ usersFile_adminFile [] _ .nil [] "1".toList (by decide) [] _ .nil
  exact absurd hlogin (by decide)

end SmartParking
