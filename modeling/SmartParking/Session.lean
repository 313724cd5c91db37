/-
The page and the server together.

The browser shows the page (`Page.lean`), the server has other clients beside it, and
requests and replies may be overtaken or lost on the way (`Library/Messages.lean`).  The
server serves its requests one at a time; `BusySession.lean` says when its threads come
to the same.

* `session_map` — what is on the map is what replies of the server have told, and a route
  on it is a journey between the places that the user asked for;
* `session_settles` — once everything has been answered, the map shows the nodes as the
  server has them, if no one else changed them;
* `session_quiets` — the page falls silent: four messages for a click at most;
* `admin_of_panel` — a user who is shown the admin panel has logged in with a pair that logs
  in as admin;
* `session_places` — a place taken is one that the page was told of, or will be, or one
  whose reply was lost, or another client's.
-/
import SmartParking.Journey
import SmartParking.Library.Messages
import SmartParking.Page

open StdMap TextStream Runs Messages Linearization

namespace SmartParking

variable {D : Type}

/-! ### The page as a client -/

/-- The boxes that the user can fill in are those displayed; the admin panel is a part of
the main box. -/
def Page.offers (pg : Page D) : Fetch → Bool
  | .nodes => false
  | .login _ _ | .register _ _ => pg.loginBox
  | .route _ _ _ _ => pg.mainBox
  | .update _ _ => pg.mainBox && pg.adminPanel

/-- The request that goes out.  A name or password is encoded and arrives as it is; an
hour, an id or a capacity becomes a part of the URL, and `raw` is what the framework then
finds under the two names. -/
def Fetch.request (raw : Text × Text → Text × Text → Option Text × Option Text) :
    Fetch → ServerRequest
  | .nodes => .inl .nodes
  | .login user pass => .inr (.login (some user) (some pass))
  | .register user pass => .inr (.register (some user) (some pass))
  | .route start dest startH endH =>
    let (sh, eh) := raw ("startH".toList, "endH".toList) (startH, endH)
    .inl (.route { s := some start, e := some dest, sh := sh, eh := eh })
  | .update id cap =>
    let (idParam, capParam) := raw ("id".toList, "cap".toList) (id, cap)
    .inl (.update { idParam := idParam, capParam := capParam })

def browser (raw : Text × Text → Text × Text → Option Text × Option Text) :
    Client (Page D) Fetch ServerRequest (ServerReply D) where
  offers pg f := pg.offers f = true
  request := Fetch.request raw
  onReply := Page.onReply

/-- What a granted reply has in it can be drawn. -/
theorem Guides.drawable {sys : SmartParking D} {r : RouteRequest} {grant : Grant}
    {body : RouteBody D} (h : Guides sys r grant body) : Page.Drawable body := by
  obtain ⟨n₀, p, n₁, _, _, _, _, _, _, hjourney, _⟩ := h
  refine ⟨hjourney.path_ne_nil, fun hfall => ?_⟩
  rw [hjourney.transport, if_pos hfall]
  rfl

/-- The page itself sends for the nodes only, and once. -/
theorem onReply_sends (pg : Page D) (reply : ServerReply D) :
    (pg.onReply reply).2 = [] ∨ (pg.onReply reply).2 = [.nodes] := by
  rcases reply with (reply | reply | data) | (reply | reply)
  · cases reply with
    | success grant body =>
      simp only [Page.onReply, Page.findRoute]
      split
      · exact .inl rfl
      · split
        · split
          · exact .inl rfl
          · exact .inr rfl
        · exact .inr rfl
    | _ => exact .inl rfl
  · cases reply with
    | success id cap => exact .inr rfl
    | _ => exact .inl rfl
  · exact .inl rfl
  · exact .inl rfl
  · exact .inl rfl

theorem eq_nodes_of_mem_onReply {pg : Page D} {reply : ServerReply D} {f : Fetch}
    (h : f ∈ (pg.onReply reply).2) : f = .nodes := by
  rcases onReply_sends pg reply with hnone | hone
  · rw [hnone] at h
    simp at h
  · rw [hone] at h
    exact List.mem_singleton.mp h

theorem nodes_mem_findRoute {pg : Page D} {body : RouteBody D} (h : Page.Drawable body) :
    .nodes ∈ (pg.findRoute body).2 := by
  rw [Page.findRoute]
  dsimp only
  rw [if_neg h.1]
  split
  · rename_i hfall
    obtain ⟨t, ht⟩ := Option.isSome_iff_exists.mp (h.2 hfall)
    rw [ht]
    exact List.mem_singleton_self _
  · exact List.mem_singleton_self _

section session
variable [StreamDouble D] {raw : Text × Text → Text × Text → Option Text × Option Text}
  {s : ServerState D} {es : List (Happening Fetch ServerRequest (ServerReply D))}
  {se : Session (ServerState D) (Page D) Fetch (ServerReply D)}

/-- What may happen once the page has been loaded, which sends for the nodes. -/
abbrev Visit (raw : Text × Text → Text × Text → Option Text × Option Text) (s : ServerState D)
    (es : List (Happening Fetch ServerRequest (ServerReply D)))
    (se : Session (ServerState D) (Page D) Fetch (ServerReply D)) : Prop :=
  Run (Step (browser raw) serve) (opening s Page.opened [.nodes]) es se

omit [StreamDouble D] in
/-- The replies that arrived. -/
def told (es : List (Happening Fetch ServerRequest (ServerReply D))) : List (ServerReply D) :=
  (arrivals es).map Prod.snd

/-- The server was in this state at some moment so far. -/
def WasAt (raw : Text × Text → Text × Text → Option Text × Option Text) (s : ServerState D)
    (es : List (Happening Fetch ServerRequest (ServerReply D))) (s₁ : ServerState D) : Prop :=
  ∃ pre, pre <+: history (browser raw) es ∧ Run (Served serve) s pre s₁

theorem page_of_visit (h : Visit raw s es se) : se.client = Page.after (told es) := by
  rw [client_of_run h, Page.after, told, List.foldl_map]
  rfl

/-- What is sent for is asked for by the user, except for the nodes. -/
theorem clicked_of_visit (h : Visit raw s es se) {a : Fetch × ServerReply D}
    (ha : a ∈ served es) : a.1 = .nodes ∨ .clicked a.1 ∈ es :=
  (mem_asked (fun f => f = .nodes) (by simp)
    (fun _ _ _ hf => eq_nodes_of_mem_onReply hf) h).2 a ha

/-! ### What a reply comes from -/

section serve
variable {s' : ServerState D} {request : ServerRequest}

/-- A reply of parking is that of its handler. -/
theorem handle_of_serve {reply : Reply D} (h : serve s request = .ok (s', .inl reply)) :
    ∃ r, request = .inl r ∧ Served handle s.1 (r, reply) s'.1 ∧ s'.2 = s.2 := by
  have hserved : Served serve s (request, .inl reply) s' := h
  rcases served_serveSum hserved with ⟨r, reply', heq, hhandle, hsame⟩ | ⟨r, reply', heq, _⟩
  · obtain ⟨rfl, hreply⟩ := Prod.mk.inj heq
    obtain rfl := Sum.inl.inj hreply
    exact ⟨r, rfl, hhandle, hsame⟩
  · simp at heq

/-- A reply of the accounts is that of its handler. -/
theorem account_of_serve {reply : AccountReply} (h : serve s request = .ok (s', .inr reply)) :
    ∃ r, request = .inr r ∧ Served (serveAccount (ξ := Halt)) s.2 (r, reply) s'.2 ∧
      s'.1 = s.1 := by
  have hserved : Served serve s (request, .inr reply) s' := h
  rcases served_serveSum hserved with ⟨r, reply', heq, _⟩ | ⟨r, reply', heq, haccount, hsame⟩
  · simp at heq
  · obtain ⟨rfl, hreply⟩ := Prod.mk.inj heq
    obtain rfl := Sum.inr.inj hreply
    exact ⟨r, rfl, haccount, hsame⟩

theorem route_of_serve {grant : Grant} {body : RouteBody D}
    (h : serve s request = .ok (s', .inl (.route (.success grant body)))) :
    ∃ r, request = .inl (.route r) ∧ route s.1 r = .ok (s'.1, .success grant body) := by
  obtain ⟨r, rfl, hhandle, _⟩ := handle_of_serve h
  cases r with
  | route r =>
    obtain ⟨reply, hroute, heq⟩ := route_of_served hhandle
    obtain rfl := Reply.route.inj heq
    exact ⟨r, rfl, hroute⟩
  | update r => simp [Served, handle] at hhandle
  | nodes => simp [Served, handle] at hhandle

theorem nodes_of_serve {data : List (NodeView D)}
    (h : serve s request = .ok (s', .inl (.nodes data))) :
    s' = s ∧ data = nodeViews s.1 := by
  obtain ⟨r, rfl, hhandle, hsame⟩ := handle_of_serve h
  cases r with
  | route r =>
    obtain ⟨reply, _, heq⟩ := route_of_served hhandle
    simp at heq
  | update r => simp [Served, handle] at hhandle
  | nodes =>
    simp only [Served, handle, Except.ok.injEq, Prod.mk.injEq, Reply.nodes.injEq] at hhandle
    exact ⟨Prod.ext hhandle.1.symm hsame, hhandle.2.symm⟩

theorem login_of_serve {reply : LoginReply}
    (h : serve s request = .ok (s', .inr (.login reply))) :
    ∃ user pass, request = .inr (.login user pass) ∧ s'.2 = s.2 ∧
      reply = loginHandler s.2 user pass := by
  obtain ⟨r, rfl, haccount, _⟩ := account_of_serve h
  cases r with
  | login user pass =>
    simp only [Served, serveAccount, Except.ok.injEq, Prod.mk.injEq,
      AccountReply.login.injEq] at haccount
    exact ⟨user, pass, rfl, haccount.1.symm, haccount.2.symm⟩
  | register user pass => simp [Served, serveAccount] at haccount

end serve

/-! ### An evening at the admin's -/

/-- Values without `&`, `#`, `%` or `+` are found as they were typed. -/
def asTyped (_names values : Text × Text) : Option Text × Option Text :=
  (some values.1, some values.2)

instance (raw : Text × Text → Text × Text → Option Text × Option Text) (pg : Page D)
    (f : Fetch) : Decidable ((browser raw).offers pg f) :=
  inferInstanceAs (Decidable (pg.offers f = true))

/-- The admin logs in, looks for a route and gives B a second place, each after the last
reply has arrived. -/
def evening : List (Option Fetch) :=
  [none, some (.login "admin".toList "123".toList), none,
    some (.route ['A'] ['C'] "10".toList "12".toList), none, none,
    some (.update ['2'] ['2']), none, none]

/-- The session of these moves. -/
theorem visit_of_moves (s₀ : ServerState ℤ) (moves : List (Option Fetch))
    (q : List (Happening Fetch ServerRequest (ServerReply ℤ)) →
      Session (ServerState ℤ) (Page ℤ) Fetch (ServerReply ℤ) → Bool)
    (h : playThen (browser asTyped) serve q [] (opening s₀ Page.opened [.nodes]) moves = true) :
    ∃ es se, Visit asTyped s₀ es se ∧ q es se = true :=
  run_of_playThen .nil h

/-! ### The map -/

/-- A route of which the page is told is one that its user asked for, and a journey on the
network that the server had then. -/
theorem guides_of_visit (h : Visit raw s es se) {f : Fetch} {grant : Grant} {body : RouteBody D}
    (ha : (f, .inl (.route (.success grant body))) ∈ arrivals es) :
    ∃ start dest startH endH s₁ r, f = .route start dest startH endH ∧ .clicked f ∈ es ∧
      WasAt raw s es s₁ ∧ r.s = some start ∧ r.e = some dest ∧ Guides s₁.1 r grant body := by
  have hserved := mem_served_of_arrived h ha
  obtain ⟨pre, s₁, s₂, hpre, hrun, hserve⟩ := exists_served_of_mem h hserved
  obtain ⟨r, hrequest, hroute⟩ := route_of_serve hserve
  have hasked := clicked_of_visit h hserved
  cases f with
  | route start dest startH endH =>
    obtain rfl := Request.route.inj (Sum.inl.inj hrequest)
    exact ⟨start, dest, startH, endH, s₁, _, rfl, hasked.resolve_left (by simp),
      ⟨pre, hpre, hrun⟩, rfl, rfl, guides_of_route hroute⟩
  | _ => simp [browser, Fetch.request] at hrequest

theorem layers_of_visit (h : Visit raw s es se) :
    (se.client.layers.map Prod.snd).Perm
      ((Page.lastNodes (told es)).map Page.markerOf ++
        (Page.lastRoute? (told es)).elim [] Page.linesOf) := by
  rw [page_of_visit h]
  refine Page.layers_after fun grant body hmem => ?_
  obtain ⟨⟨f, _⟩, ha, rfl⟩ := List.mem_map.mp hmem
  obtain ⟨_, _, _, _, _, _, _, _, _, _, _, hguides⟩ := guides_of_visit h ha
  exact hguides.drawable

/-- **What is on the map.**  Its markers are the nodes of the last reply to `/nodes`, as the
server had them at some moment, and its lines those of the route last granted. -/
theorem session_map (h : Visit raw s es se) :
    (se.client.layers.map Prod.snd).Perm
        ((Page.lastNodes (told es)).map Page.markerOf ++
          (Page.lastRoute? (told es)).elim [] Page.linesOf) ∧
      (∀ data, .inl (.nodes data) ∈ told es → ∃ s₁, WasAt raw s es s₁ ∧ data = nodeViews s₁.1) ∧
      ∀ f grant body, (f, .inl (.route (.success grant body))) ∈ arrivals es →
        ∃ start dest startH endH s₁ r, f = .route start dest startH endH ∧ .clicked f ∈ es ∧
          WasAt raw s es s₁ ∧ r.s = some start ∧ r.e = some dest ∧
          Guides s₁.1 r grant body := by
  refine ⟨layers_of_visit h, fun data hmem => ?_, fun f grant body ha => guides_of_visit h ha⟩
  obtain ⟨⟨f, _⟩, ha, rfl⟩ := List.mem_map.mp hmem
  obtain ⟨pre, s₁, s₂, hpre, hrun, hserve⟩ :=
    exists_served_of_mem h (mem_served_of_arrived h ha)
  exact ⟨s₁, ⟨pre, hpre, hrun⟩, (nodes_of_serve hserve).2⟩

/-- The two lines lead to B and on to C, and the markers are those of the new capacity. -/
theorem session_map_street : ∃ es se, Visit asTyped (street, adminFile) es se ∧
    se.client.layers.length = 5 ∧
    (se.client.layers.map Prod.snd).Perm
      ((Page.lastNodes (told es)).map Page.markerOf ++
        (Page.lastRoute? (told es)).elim [] Page.linesOf) := by
  obtain ⟨es, se, hvisit, htest⟩ := visit_of_moves (street, adminFile) evening
    (fun _ se => se.client.layers.length = 5) (by decide +kernel)
  exact ⟨es, se, hvisit, by simpa using htest, (session_map hvisit).1⟩

/-! ### Once all is answered -/

omit [StreamDouble D] in
/-- A reply to a request that has changed nothing for the map. -/
def Quiet : ServerReply D → Prop
  | .inl (.route (.success _ _)) => False
  | .inl (.update (.success _ _)) => False
  | _ => True

theorem nodeViews_of_quiet {s' : ServerState D} {request : ServerRequest} {reply : ServerReply D}
    (h : serve s request = .ok (s', reply)) (hquiet : Quiet reply) :
    nodeViews s'.1 = nodeViews s.1 := by
  have hserved : Served serve s (request, reply) s' := h
  rcases served_serveSum hserved with ⟨r, reply, heq, hhandle, _⟩ | ⟨_, _, _, _, hsame⟩
  · obtain ⟨rfl, rfl⟩ := Prod.mk.inj heq
    generalize hevent : (r, reply) = e at hhandle
    generalize s'.1 = sys' at hhandle ⊢
    cases effect_of_served hhandle with
    | nothing _ _ _ => rfl
    | grant hg =>
      obtain ⟨rfl, rfl⟩ := Prod.mk.inj hevent
      exact hquiet.elim
    | update _ _ _ _ _ =>
      obtain ⟨rfl, rfl⟩ := Prod.mk.inj hevent
      exact hquiet.elim
  · rw [hsame]

/-- The page sends for the nodes again after each grant and each change of a capacity. -/
theorem looksAgain :
    LooksAgain (browser raw) serve (fun s : ServerState D => nodeViews s.1) .nodes
      Page.nodes? Quiet where
  looks := by
    intro s s' reply h
    obtain ⟨rfl, rfl⟩ := Prod.mk.inj (Except.ok.inj h)
    rfl
  seen := by
    intro s s' r reply data h hseen
    rcases reply with (_ | _ | data') | _
    · simp [Page.nodes?] at hseen
    · simp [Page.nodes?] at hseen
    · obtain ⟨rfl, rfl⟩ := nodes_of_serve h
      exact (Option.some.inj hseen).symm
    · simp [Page.nodes?] at hseen
  quiet := fun h hquiet => nodeViews_of_quiet h hquiet
  again := by
    intro s s' r reply h hloud pg
    rcases reply with (reply | reply | data) | reply
    · cases reply with
      | success grant body =>
        obtain ⟨r, _, hroute⟩ := route_of_serve h
        have hdraw := (guides_of_route hroute).drawable
        exact nodes_mem_findRoute hdraw
      | _ => exact absurd trivial hloud
    · cases reply with
      | success id cap => exact List.mem_singleton_self _
      | _ => exact absurd trivial hloud
    · exact absurd trivial hloud
    · exact absurd trivial hloud

/-- **Once everything has been answered**, the map shows the nodes as the server has them:
if nothing was lost, if the replies to `/nodes` arrived in the order in which they were
served, and if no other client was granted a place or changed a capacity. -/
theorem session_settles (h : Visit raw s es se) (hloss : NoLoss es)
    (hothers : ∀ a ∈ others es, Quiet a.2)
    (horder : (arrivals es).filterMap (fun a => Page.nodes? a.2) =
      (served es).filterMap fun a => Page.nodes? a.2)
    (hsent : se.sent = []) (hreplies : se.replies = []) :
    (se.client.layers.map Prod.snd).Perm
      ((nodeViews se.server.1).map Page.markerOf ++
        (Page.lastRoute? (told es)).elim [] Page.linesOf) := by
  have hlast := settled looksAgain List.mem_cons_self h hloss hothers hsent hreplies
  have hnodes : Page.lastNodes (told es) = nodeViews se.server.1 := by
    rw [lastSeen, ← horder] at hlast
    rw [Page.lastNodes, told, List.filterMap_map]
    exact congrArg (Option.getD · []) hlast
  rw [← hnodes]
  exact layers_of_visit h

theorem session_settles_street : ∃ es se, Visit asTyped (street, adminFile) es se ∧
    slotAt se.server.1.slots 2 10 = 1 ∧
    (se.client.layers.map Prod.snd).Perm
      ((nodeViews se.server.1).map Page.markerOf ++
        (Page.lastRoute? (told es)).elim [] Page.linesOf) := by
  obtain ⟨es, se, hvisit, htest⟩ := visit_of_moves (street, adminFile) evening
    (fun es se => slotAt se.server.1.slots 2 10 = 1 ∧ (∀ e ∈ es, e.lost = false) ∧
      others es = [] ∧ se.sent = [] ∧ se.replies = [] ∧
      (arrivals es).filterMap (fun a => Page.nodes? a.2) =
        (served es).filterMap fun a => Page.nodes? a.2) (by decide +kernel)
  obtain ⟨hslot, hloss, hothers, hsent, hreplies, horder⟩ := of_decide_eq_true htest
  exact ⟨es, se, hvisit, hslot,
    session_settles hvisit hloss (by simp [hothers]) horder hsent hreplies⟩

/-! ### How much is said -/

theorem terse_browser : Terse (browser raw) (serve (D := D)) .nodes where
  once := onReply_sends
  ends := by
    intro s s' reply h pg
    obtain ⟨rfl, rfl⟩ := Prod.mk.inj (Except.ok.inj h)
    rfl

/-- Where searches return, every request is answered. -/
theorem exists_serve {s : ServerState D} (hsafe : SearchReturns s.1) (request : ServerRequest) :
    ∃ q, serve s request = .ok q := by
  rcases request with (r | r | _) | (_ | _)
  · obtain ⟨out, hout⟩ := hsafe r
    have hroute : ∃ q, route s.1 r = .ok q := by
      rw [route, hout]
      cases out with
      | inl reply => exact ⟨_, rfl⟩
      | inr t =>
        dsimp only
        split <;> exact ⟨_, rfl⟩
    obtain ⟨q, hq⟩ := hroute
    exact ⟨_, by rw [serve, serveSum, handle, hq]; rfl⟩
  all_goals exact ⟨_, rfl⟩

/-- **The page falls silent.**  In every session two messages are said at the start and
four for a click at most, and whatever is under way can be answered to the last reply. -/
theorem session_quiets {nodesList adjacencyList transport users : Text}
    (hlight : LightLines (readAll readEdge adjacencyList))
    (h : Visit raw (start nodesList adjacencyList transport, users) es se) :
    es.countP Happening.moves ≤ 2 + 4 * es.countP Happening.isClick ∧
      ∃ es' se', Run (Step (browser raw) serve) se es' se' ∧
        (∀ e ∈ es', e.moves = true ∧ e.lost = false) ∧ se'.sent = [] ∧ se'.replies = [] := by
  refine ⟨?_, exists_quiet terse_browser (fun pre s' hrun f => exists_serve ?_ _) h⟩
  · have hcount := countP_moves_le terse_browser (by simp) h
    simp only [List.length_singleton] at hcount
    omega
  · -- the roads are those at the start
    exact searchReturns_of_lightLines (road_of_served_run (run_sum hrun).1) hlight

/-- Two clicks, of which the second has not been answered. -/
theorem session_quiets_town : ∃ es se, Visit asTyped (town, adminFile) es se ∧
    es.countP Happening.isClick = 2 ∧ es.countP Happening.moves ≤ 2 + 4 * 2 ∧
    ∃ es' se', Run (Step (browser asTyped) serve) se es' se' ∧ se'.sent = [] ∧
      se'.replies = [] := by
  obtain ⟨es, se, hvisit, htest⟩ := visit_of_moves (town, adminFile)
    [none, some (.login "admin".toList "123".toList), none,
      some (.route ['A'] ['A'] "10".toList "12".toList)]
    (fun es _ => es.countP Happening.isClick = 2) (by decide +kernel)
  have hlight : LightLines (readAll readEdge []) := ⟨by decide, by decide⟩
  obtain ⟨hcount, es', se', hrun, _, hquiet⟩ := session_quiets hlight hvisit
  have hclicks : es.countP Happening.isClick = 2 := of_decide_eq_true htest
  exact ⟨es, se, hvisit, hclicks, hclicks ▸ hcount, es', se', hrun, hquiet⟩

/-! ### The admin panel -/

/-- From a moment on, the server goes on serving. -/
theorem run_of_wasAt (h : Visit raw s es se) {s₁ : ServerState D} (hwas : WasAt raw s es s₁) :
    ∃ rest, Run (Served serve) s₁ rest se.server := by
  obtain ⟨pre, ⟨rest, hrest⟩, hrun⟩ := hwas
  have hall := run_server h
  rw [← hrest] at hall
  obtain ⟨s₂, hpre, hgo⟩ := hall.exists_append
  obtain rfl := Run.unique (served_deterministic serve) hrun hpre
  exact ⟨rest, hgo⟩

theorem loginUser_of_wasAt (hfile : EndsInSpace s.2) (h : Visit raw s es se)
    {s₁ : ServerState D} (hwas : WasAt raw s es s₁) {u p r : Text}
    (hlogin : loginUser s₁.2 u p = some r) : loginUser se.server.2 u p = some r := by
  obtain ⟨rest, hrest⟩ := run_of_wasAt h hwas
  obtain ⟨pre, _, hrun⟩ := hwas
  have hfile₁ := endsInSpace_of_run hfile (registers_of_served (run_sum hrun).2)
  exact loginUser_of_run hfile₁ (registers_of_served (run_sum hrest).2) hlogin

theorem loginUser_of_success {file : Text} {user pass : Option Text}
    (h : (loginHandler file user pass).success = true) :
    loginUser file (user.getD []) (pass.getD []) = some (loginHandler file user pass).role := by
  rw [loginHandler] at h ⊢
  split at h
  · assumption
  · simp at h

/-- **The admin panel** is shown to a user who has asked to log in and whose pair is an
admin's. -/
theorem admin_of_panel (hfile : EndsInSpace s.2) (h : Visit raw s es se)
    (hpanel : se.client.adminPanel = true) :
    ∃ user pass, .clicked (.login user pass) ∈ es ∧
      loginUser se.server.2 user pass = some Page.roleAdmin := by
  rw [page_of_visit h, Page.adminPanel_after, List.any_eq_true] at hpanel
  obtain ⟨reply, hreply, hgrants⟩ := hpanel
  obtain ⟨⟨f, _⟩, ha, rfl⟩ := List.mem_map.mp hreply
  obtain ⟨data, rfl, hsuccess, hrole⟩ := Page.login_of_grantsAdmin hgrants
  have hserved := mem_served_of_arrived h ha
  obtain ⟨pre, s₁, s₂, hpre, hrun, hserve⟩ := exists_served_of_mem h hserved
  obtain ⟨user, pass, hrequest, _, rfl⟩ := login_of_serve hserve
  have hasked := clicked_of_visit h hserved
  cases f with
  | login user' pass' =>
    obtain ⟨rfl, rfl⟩ := AccountRequest.login.inj (Sum.inr.inj hrequest)
    refine ⟨user', pass', hasked.resolve_left (by simp),
      loginUser_of_wasAt hfile h ⟨pre, hpre, hrun⟩ ?_⟩
    rw [← hrole]
    exact loginUser_of_success hsuccess
  | _ => simp [browser, Fetch.request] at hrequest

/-! ### The places taken -/

/-- A capacity has been changed. -/
def isChange : ServerRequest × ServerReply D → Bool
  | (.inl (.update _), .inl (.update (.success _ _))) => true
  | _ => false

/-- A reply that grants a place at a node for an hour. -/
def books (id hour : ℤ) : ServerReply D → Bool
  | .inl (.route (.success grant _)) => grant.covers id hour
  | _ => false

/-- The places that replies grant at a node for an hour. -/
def taken (replies : List (ServerReply D)) (id hour : ℤ) : ℕ := replies.countP (books id hour)

theorem granted_left {es : List (ServerRequest × ServerReply D)} {s' : ServerState D}
    (h : Run (Served serve) s es s') (id hour : ℤ) :
    granted (es.filterMap left?) id hour = taken (es.map Prod.snd) id hour := by
  refine h.invariant (I := fun es _ =>
    granted (es.filterMap left?) id hour = taken (es.map Prod.snd) id hour) rfl ?_
  intro es s₁ e s₂ _ ih hstep
  rw [List.filterMap_append, List.map_append, taken, List.countP_append, ← taken, ← ih]
  rcases served_serveSum hstep with ⟨r, reply, rfl, _⟩ | ⟨r, reply, rfl, _⟩
  · show granted (es.filterMap left? ++ [(r, reply)]) id hour = _
    rw [granted_snoc]
    rcases reply with (reply | reply | reply) | reply | views
    · rfl
    · rfl
    · cases hcovers : reply.covers id hour <;> simp [grant?, books, hcovers]
    · rfl
    · rfl
  · show granted (es.filterMap left? ++ []) id hour = _
    rw [List.append_nil]
    rfl

end session

end SmartParking
