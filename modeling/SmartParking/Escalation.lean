/-
Who comes to the admin panel.

The panel is shown to whoever logs in as admin (`Session.lean`), and registrations are
appended to a file that is read by threes of words.  A blank in a field is enough to
write a whole record:

* `panel_opens` — whatever has happened, a user who sees the login box can come to the
  admin panel by one registration and one login, with fields of one line;
* `admin_from_start` — while every registration served is harmless, the pair that came to
  the panel is an admin's in the file that the server found at the beginning.
-/
import SmartParking.Session

open StdMap TextStream Runs Messages Linearization

namespace SmartParking

variable {D : Type}

/-! ### A registration that makes an admin -/

/-- What an input field can hold. -/
def OneLine (t : Text) : Prop := '\n' ∉ t ∧ '\r' ∉ t

instance (t : Text) : Decidable (OneLine t) := inferInstanceAs (Decidable (_ ∧ _))

/-- A name after some words `x`. -/
def padded (k : ℕ) (name : Text) : Text := (List.replicate k "x ".toList).flatten ++ name

theorem words_padded (k : ℕ) {name : Text} (h : IsWord name) :
    words (padded k name) = List.replicate k ['x'] ++ [name] := by
  induction k with
  | zero => exact words_word h
  | succ k ih =>
    have hcons : padded (k + 1) name = ['x'] ++ ' ' :: padded k name := by
      simp [padded, List.replicate_succ]
    rw [hcons, words_append_cons (by decide), ih, words_word (by decide)]
    rfl

theorem oneLine_padded (k : ℕ) {name : Text} (h : OneLine name) : OneLine (padded k name) := by
  induction k with
  | zero => exact h
  | succ k ih =>
    have hcons : padded (k + 1) name = 'x' :: ' ' :: padded k name := by
      simp [padded, List.replicate_succ]
    rw [OneLine] at ih ⊢
    rw [hcons]
    simpa using ih

/-- There is a name that is not in the file. -/
theorem exists_name_not_mem (file : Text) :
    ∃ name, IsWord name ∧ OneLine name ∧ name ≠ ['x'] ∧ name ∉ words file := by
  have hinj : Function.Injective fun n : ℕ => List.replicate (n + 1) 'e' := by
    intro n m h
    simpa using congrArg List.length h
  obtain ⟨_, ⟨n, rfl⟩, hn⟩ :=
    (Set.infinite_range_of_injective hinj).exists_notMem_finset (words file).toFinset
  refine ⟨List.replicate (n + 1) 'e', ⟨by simp, fun c hc => ?_⟩, ⟨?_, ?_⟩, ?_, by simpa using hn⟩
  · rw [List.eq_of_mem_replicate hc]
    decide
  · exact fun hc => absurd (List.eq_of_mem_replicate hc) (by decide)
  · exact fun hc => absurd (List.eq_of_mem_replicate hc) (by decide)
  · simp [List.replicate_succ]

/-- **A record of one's own.**  For every users file there are fields of one line that
`registerUser` accepts and a pair that logs in as admin afterwards. -/
theorem exists_admin_call (file : Text) : ∃ user pass u p,
    OneLine user ∧ OneLine pass ∧ OneLine u ∧ OneLine p ∧
      registerUser file user pass = (true, file ++ userLine user pass) ∧
      loginUser (file ++ userLine user pass) u p = some Page.roleAdmin := by
  obtain ⟨name, hword, hline, hx, hnew⟩ := exists_name_not_mem file
  -- the words in front of the name fill up the last record
  let k := (3 - (words file).length % 3) % 3
  refine ⟨' ' :: padded k name, "p admin".toList, name, ['p'], ?_, by decide, hline, by decide,
    ?_, ?_⟩
  · simpa [OneLine] using oneLine_padded k hline
  · have hfree : userTaken file (' ' :: padded k name) = false := by
      rw [Bool.eq_false_iff]
      intro htaken
      obtain ⟨t, ht, heq⟩ := userTaken_iff.mp htaken
      have hblank := (isWord_of_mem_words (mem_of_mem_triples ht).1).2 ' ' (by simp [heq])
      exact absurd hblank (by decide)
    rw [registerUser, hfree]
    rfl
  · have hpass : words "p admin".toList = [['p'], Page.roleAdmin] := by decide
    have hwords : words (file ++ userLine (' ' :: padded k name) "p admin".toList) =
        (words file ++ List.replicate k ['x']) ++ [name, ['p'], Page.roleAdmin, roleUser] := by
      have hcons : userLine (' ' :: padded k name) "p admin".toList =
          ' ' :: userLine (padded k name) "p admin".toList := rfl
      rw [hcons, words_append_cons (by decide), words_userLine, words_padded k hword, hpass]
      simp
    have hdvd : 3 ∣ (words file ++ List.replicate k ['x']).length := by
      rw [List.length_append, List.length_replicate]
      omega
    have hnone : (triples (words file ++ List.replicate k ['x'])).find?
        (fun t => t.1 = name && t.2.1 = ['p']) = none := by
      rw [List.find?_eq_none]
      intro t ht hmatch
      simp only [Bool.and_eq_true, decide_eq_true_eq] at hmatch
      have hmem := (mem_of_mem_triples ht).1
      rw [hmatch.1, List.mem_append] at hmem
      exact hmem.elim hnew fun hc => hx (List.eq_of_mem_replicate hc)
    rw [loginUser_eq, accounts, hwords, triples_append_of_dvd _ hdvd, List.find?_append, hnone]
    simp [triples]

/-! ### From any session to the panel -/

section session
variable [StreamDouble D] {raw : Text × Text → Text × Text → Option Text × Option Text}
  {s : ServerState D} {es : List (Happening Fetch ServerRequest (ServerReply D))}
  {se : Session (ServerState D) (Page D) Fetch (ServerReply D)}

/-- **Anyone can come to the admin panel.**  Whatever the users file and whatever is under
way, one registration and then one login are enough, typed in fields of one line, without
a message lost and without help. -/
theorem panel_opens (raw : Text × Text → Text × Text → Option Text × Option Text)
    (se : Session (ServerState D) (Page D) Fetch (ServerReply D))
    (hbox : se.client.loginBox = true) :
    ∃ user pass u p es se', OneLine user ∧ OneLine pass ∧ OneLine u ∧ OneLine p ∧
      Run (Step (browser raw) serve) se es se' ∧
      clicks es = [.register user pass, .login u p] ∧ NoLoss es ∧ others es = [] ∧
      ∀ id cap, se'.client.offers (.update id cap) = true := by
  obtain ⟨⟨sys, file⟩, pg, sent, replies⟩ := se
  obtain ⟨user, pass, u, p, huser, hpass, hu, hp, hregister, hlogin⟩ := exists_admin_call file
  have hserve₁ : serve (sys, file) (Fetch.request raw (.register user pass)) =
      .ok ((sys, file ++ userLine user pass),
        .inr (.register { success := true, error := none })) := by
    show Except.ok _ = Except.ok _
    rw [registerHandler, Option.getD_some, Option.getD_some, hregister]
    rfl
  have hserve₂ : serve (sys, file ++ userLine user pass) (Fetch.request raw (.login u p)) =
      .ok ((sys, file ++ userLine user pass),
        .inr (.login { success := true, role := Page.roleAdmin })) := by
    show Except.ok _ = Except.ok _
    rw [loginHandler, Option.getD_some, Option.getD_some, hlogin]
  have hoffers₁ : (browser raw).offers pg (.register user pass) := hbox
  have hoffers₂ : (browser raw).offers pg (.login u p) := hbox
  have hasked : Run (Step (browser raw) serve) ⟨(sys, file), pg, sent, replies⟩ _ _ :=
    (run_clicked hoffers₁ hserve₁).append (run_clicked hoffers₂ hserve₂)
  -- the reply to the registration may still be under way
  have hrun := hasked.snoc Step.arrived_last
  exact ⟨user, pass, u, p, _, _, huser, hpass, hu, hp, hrun, rfl, by simp [NoLoss], rfl,
    fun id cap => rfl⟩

theorem panel_opens_street : ∃ es se',
    Run (Step (browser asTyped) serve) (opening (street, adminFile) Page.opened [.nodes]) es se' ∧
      (clicks es).length = 2 ∧ se'.client.offers (.update ['2'] ['5']) = true := by
  obtain ⟨_, _, _, _, es, se', _, _, _, _, hrun, hclicks, _, _, hpanel⟩ :=
    panel_opens asTyped (opening (street, adminFile) Page.opened [.nodes]) rfl
  exact ⟨es, se', hrun, by rw [hclicks]; rfl, hpanel _ _⟩

/-! ### While registrations are harmless -/

/-- The registrations that the server has served. -/
def calls (raw : Text × Text → Text × Text → Option Text × Option Text)
    (es : List (Happening Fetch ServerRequest (ServerReply D))) : List (Text × Text) :=
  ((history (browser raw) es).filterMap right?).filterMap fun e => e.1.call?

/-- **No one new comes to the panel** while every registration served is harmless: the
user has logged in with a pair that was an admin's from the beginning. -/
theorem admin_from_start (hfile : EndsInSpace s.2) (h : Visit raw s es se)
    (hharm : Steps Registers s.2 (calls raw es) fun _ file call => Harmless file call)
    (hpanel : se.client.adminPanel = true) :
    ∃ user pass, .clicked (.login user pass) ∈ es ∧
      loginUser s.2 user pass = some Page.roleAdmin := by
  obtain ⟨user, pass, hasked, hlogin⟩ := admin_of_panel hfile h hpanel
  have hrun : Run Registers s.2 (calls raw es) se.server.2 :=
    registers_of_served (run_sum (run_server h)).2
  have halong := along_of_steps (Q := fun _ file call => Harmless file call)
    (P := fun calls file => Run Registers s.2 calls file ∧ NoNewPrivilege s.2 file)
    ⟨.nil, fun _ _ _ _ h => h⟩
    (fun _ _ _ _ ⟨hr, hs⟩ hstep hharmless =>
      ⟨hr.snoc hstep, (noNewPrivilege_step hfile hr hs hstep).mpr hharmless⟩) hharm
  have hkept := (halong _ _ List.prefix_rfl hrun).2
  exact ⟨user, pass, hasked, hkept _ _ _ (by decide) hlogin⟩

/-- The registration of `bob` is harmless, and the admin logs in afterwards. -/
theorem admin_from_start_street : ∃ es se, Visit asTyped (street, adminFile) es se ∧
    calls asTyped es = [("bob".toList, "1".toList)] ∧
    ∃ user pass, .clicked (.login user pass) ∈ es ∧
      loginUser adminFile user pass = some Page.roleAdmin := by
  obtain ⟨es, se, hvisit, htest⟩ := visit_of_moves (street, adminFile)
    [none, some (.register "bob".toList "1".toList), none,
      some (.login "admin".toList "123".toList), none]
    (fun es se => se.client.adminPanel = true ∧
      calls asTyped es = [("bob".toList, "1".toList)]) (by decide +kernel)
  obtain ⟨hpanel, hcalls⟩ := of_decide_eq_true htest
  have hfile : EndsInSpace adminFile := endsInSpace_of_usersFile usersFile_adminFile
  refine ⟨es, se, hvisit, hcalls, admin_from_start hfile hvisit ?_ hpanel⟩
  rw [hcalls]
  intro pre call file hpre hrun
  obtain ⟨rfl, rfl⟩ : pre = [] ∧ call = ("bob".toList, "1".toList) := by
    cases pre with
    | nil => simpa using hpre
    | cons _ _ => simpa using hpre.length_le
  obtain rfl := run_nil_iff.mp hrun
  exact harmless_of_two_words (by decide) (by decide)

end session

end SmartParking
