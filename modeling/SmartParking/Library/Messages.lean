/-
A client of a server, with messages in flight.

The user of the client sends for something.  A request under way is served or lost, a
reply under way arrives or is lost, and which comes next is open.  Other clients have
their requests served in between.

* `run_server` — the server serves requests one at a time, whoever sends them;
* `client_of_run` — the client is what the replies that arrived have made of it;
* `served_perm` — every reply to it has arrived, is lost or is under way, and is one of
  these once;
* `mem_asked` — it sends for what its user asked for and for what replies make it send for;
* `settled` — a client that looks again after every change: once everything has been
  answered, what was last looked at is what is there;
* `countP_moves_le`, `exists_quiet` — a client that says little: four messages for a click
  at most, and everything can be answered.
-/
import SmartParking.Library.Runs

open Runs

namespace Messages

variable {σ ι ω ξ π φ ν : Type}

/-- A client: what its user can send for, as which request it goes out, and what a
reply does to it and makes it send for. -/
structure Client (π φ ι ω : Type) where
  offers : π → φ → Prop
  request : φ → ι
  onReply : π → ω → π × List φ

/-- The server, the client, and what is under way between them. -/
structure Session (σ π φ ω : Type) where
  server : σ
  client : π
  sent : List φ
  replies : List (φ × ω)

/-- The client has started and sent for something. -/
def opening (s : σ) (p : π) (fs : List φ) : Session σ π φ ω := ⟨s, p, fs, []⟩

inductive Happening (φ ι ω : Type)
  | clicked (f : φ)
  | served (f : φ) (reply : ω)
  | other (r : ι) (reply : ω)
  | arrived (f : φ) (reply : ω)
  | requestLost (f : φ)
  | replyLost (f : φ) (reply : ω)
  deriving DecidableEq

/-- What happens next. -/
inductive Step (C : Client π φ ι ω) (serve : σ → ι → Except ξ (σ × ω)) :
    Session σ π φ ω → Happening φ ι ω → Session σ π φ ω → Prop
  | clicked {s : σ} {p : π} {sent : List φ} {replies : List (φ × ω)} {f : φ} :
      C.offers p f →
      Step C serve ⟨s, p, sent, replies⟩ (.clicked f) ⟨s, p, sent ++ [f], replies⟩
  | served {s s' : σ} {p : π} {pre post : List φ} {replies : List (φ × ω)} {f : φ} {reply : ω} :
      serve s (C.request f) = .ok (s', reply) →
      Step C serve ⟨s, p, pre ++ f :: post, replies⟩ (.served f reply)
        ⟨s', p, pre ++ post, replies ++ [(f, reply)]⟩
  | other {s s' : σ} {p : π} {sent : List φ} {replies : List (φ × ω)} {r : ι} {reply : ω} :
      serve s r = .ok (s', reply) →
      Step C serve ⟨s, p, sent, replies⟩ (.other r reply) ⟨s', p, sent, replies⟩
  | arrived {s : σ} {p : π} {sent : List φ} {pre post : List (φ × ω)} {f : φ} {reply : ω} :
      Step C serve ⟨s, p, sent, pre ++ (f, reply) :: post⟩ (.arrived f reply)
        ⟨s, (C.onReply p reply).1, sent ++ (C.onReply p reply).2, pre ++ post⟩
  | requestLost {s : σ} {p : π} {pre post : List φ} {replies : List (φ × ω)} {f : φ} :
      Step C serve ⟨s, p, pre ++ f :: post, replies⟩ (.requestLost f)
        ⟨s, p, pre ++ post, replies⟩
  | replyLost {s : σ} {p : π} {sent : List φ} {pre post : List (φ × ω)} {f : φ} {reply : ω} :
      Step C serve ⟨s, p, sent, pre ++ (f, reply) :: post⟩ (.replyLost f reply)
        ⟨s, p, sent, pre ++ post⟩

/-! ### What has happened so far -/

namespace Happening

/-- The request served, with its reply. -/
@[simp] def event? (C : Client π φ ι ω) : Happening φ ι ω → Option (ι × ω)
  | .served f reply => some (C.request f, reply)
  | .other r reply => some (r, reply)
  | _ => none

@[simp] def served? : Happening φ ι ω → Option (φ × ω)
  | .served f reply => some (f, reply)
  | _ => none

@[simp] def other? : Happening φ ι ω → Option (ι × ω)
  | .other r reply => some (r, reply)
  | _ => none

@[simp] def arrived? : Happening φ ι ω → Option (φ × ω)
  | .arrived f reply => some (f, reply)
  | _ => none

@[simp] def lostReply? : Happening φ ι ω → Option (φ × ω)
  | .replyLost f reply => some (f, reply)
  | _ => none

/-- A message moves on: a request is served or lost, a reply arrives or is lost. -/
@[simp] def moves : Happening φ ι ω → Bool
  | .clicked _ => false
  | .other _ _ => false
  | _ => true

@[simp] def isClick : Happening φ ι ω → Bool
  | .clicked _ => true
  | _ => false

@[simp] def click? : Happening φ ι ω → Option φ
  | .clicked f => some f
  | _ => none

/-- A message is lost. -/
@[simp] def lost : Happening φ ι ω → Bool
  | .requestLost _ => true
  | .replyLost _ _ => true
  | _ => false

end Happening

section history
variable (C : Client π φ ι ω) (es : List (Happening φ ι ω)) (e : Happening φ ι ω)

/-- The requests served, with their replies. -/
def history : List (ι × ω) := es.filterMap (Happening.event? C)

/-- The replies to this client, in the order in which they were served. -/
def served : List (φ × ω) := es.filterMap Happening.served?

/-- The requests of the other clients, with their replies. -/
def others : List (ι × ω) := es.filterMap Happening.other?

/-- What the user has asked for, one request a click. -/
def clicks : List φ := es.filterMap Happening.click?

/-- The replies in the order in which they arrived. -/
def arrivals : List (φ × ω) := es.filterMap Happening.arrived?

/-- The replies that were lost. -/
def losses : List (φ × ω) := es.filterMap Happening.lostReply?

theorem history_snoc : history C (es ++ [e]) = history C es ++ (e.event? C).toList := by
  rw [history, List.filterMap_append]
  cases e <;> rfl

theorem served_snoc : served (es ++ [e]) = served es ++ e.served?.toList := by
  rw [served, List.filterMap_append]
  cases e <;> rfl

theorem others_snoc : others (es ++ [e]) = others es ++ e.other?.toList := by
  rw [others, List.filterMap_append]
  cases e <;> rfl

theorem arrivals_snoc : arrivals (es ++ [e]) = arrivals es ++ e.arrived?.toList := by
  rw [arrivals, List.filterMap_append]
  cases e <;> rfl

theorem losses_snoc : losses (es ++ [e]) = losses es ++ e.lostReply?.toList := by
  rw [losses, List.filterMap_append]
  cases e <;> rfl

/-- What was served is shared between this client and the others. -/
theorem history_perm :
    (history C es).Perm ((served es).map (fun a => (C.request a.1, a.2)) ++ others es) := by
  induction es with
  | nil => exact .nil
  | cons e es ih =>
    cases e with
    | served f reply => exact ih.cons _
    | other r reply => exact (ih.cons _).trans List.perm_middle.symm
    | _ => exact ih

/-- Nothing was lost. -/
def NoLoss : Prop := ∀ e ∈ es, e.lost = false

theorem noLoss_snoc : NoLoss (es ++ [e]) ↔ NoLoss es ∧ e.lost = false := by
  simp [NoLoss, or_imp, forall_and]

end history

section run
variable {C : Client π φ ι ω} {serve : σ → ι → Except ξ (σ × ω)} {s : σ} {p : π} {fs : List φ}
  {es : List (Happening φ ι ω)} {se : Session σ π φ ω}

/-- The last reply served arrives. -/
theorem Step.arrived_last {sent : List φ} {replies : List (φ × ω)} {f : φ} {reply : ω} :
    Step C serve ⟨s, p, sent, replies ++ [(f, reply)]⟩ (.arrived f reply)
      ⟨s, (C.onReply p reply).1, sent ++ (C.onReply p reply).2, replies⟩ := by
  have harrived : Step C serve ⟨s, p, sent, replies ++ (f, reply) :: []⟩ (.arrived f reply)
      ⟨s, (C.onReply p reply).1, sent ++ (C.onReply p reply).2, replies ++ []⟩ := .arrived
  rwa [List.append_nil] at harrived

theorem run_server {se₀ : Session σ π φ ω} (h : Run (Step C serve) se₀ es se) :
    Run (Served serve) se₀.server (history C es) se.server := by
  refine h.invariant (I := fun es se =>
    Run (Served serve) se₀.server (history C es) se.server) .nil ?_
  intro es se e se' _ ih hstep
  rw [history_snoc]
  cases hstep with
  | served hserve => exact .snoc (e := (C.request _, _)) ih hserve
  | other hserve => exact .snoc (e := (_, _)) ih hserve
  | _ => simpa using ih

/-- A click, and its request is served at once. -/
theorem run_clicked {s' : σ} {sent : List φ} {replies : List (φ × ω)} {f : φ} {reply : ω}
    (hoffers : C.offers p f) (hserve : serve s (C.request f) = .ok (s', reply)) :
    Run (Step C serve) ⟨s, p, sent, replies⟩ [.clicked f, .served f reply]
      ⟨s', p, sent, replies ++ [(f, reply)]⟩ := by
  have hclicked : Run (Step C serve) ⟨s, p, sent, replies⟩ [.clicked f]
      ⟨s, p, sent ++ [f], replies⟩ := Run.nil.snoc (.clicked hoffers)
  have hserved : Step C serve ⟨s, p, sent ++ [f], replies⟩ (.served f reply)
      ⟨s', p, sent ++ [], replies ++ [(f, reply)]⟩ := .served hserve
  rw [List.append_nil] at hserved
  exact hclicked.snoc hserved

theorem client_of_run (h : Run (Step C serve) (opening s p fs) es se) :
    se.client = (arrivals es).foldl (fun p a => (C.onReply p a.2).1) p := by
  refine h.invariant (I := fun es (se : Session σ π φ ω) =>
    se.client = (arrivals es).foldl (fun p a => (C.onReply p a.2).1) p) rfl ?_
  intro es se e se' _ ih hstep
  rw [arrivals_snoc, List.foldl_append, ← ih]
  cases hstep <;> rfl

/-- **No reply is doubled**, and one that is not lost arrives or is under way. -/
theorem served_perm (h : Run (Step C serve) (opening s p fs) es se) :
    (served es).Perm (arrivals es ++ (losses es ++ se.replies)) := by
  classical
  refine h.invariant (I := fun es (se : Session σ π φ ω) =>
    (served es).Perm (arrivals es ++ (losses es ++ se.replies))) (.refl _) ?_
  intro es se e se' _ ih hstep
  rw [List.perm_iff_count] at ih ⊢
  intro a
  have ha := ih a
  rw [served_snoc, arrivals_snoc, losses_snoc]
  cases hstep <;>
    simp only [Happening.served?, Happening.arrived?, Happening.lostReply?, Option.toList_some,
      Option.toList_none, List.count_append, List.count_cons, List.count_nil] at ha ⊢ <;>
    omega

/-- A reply that arrived was served. -/
theorem mem_served_of_arrived (h : Run (Step C serve) (opening s p fs) es se) {a : φ × ω}
    (ha : a ∈ arrivals es) : a ∈ served es :=
  (served_perm h).mem_iff.mpr (List.mem_append_left _ ha)

/-- A reply of the server answers a request served at some moment. -/
theorem exists_served_of_mem (h : Run (Step C serve) (opening s p fs) es se) {a : φ × ω}
    (ha : a ∈ served es) : ∃ pre s₁ s₂, pre <+: history C es ∧ Run (Served serve) s pre s₁ ∧
      serve s₁ (C.request a.1) = .ok (s₂, a.2) := by
  have hmem : (C.request a.1, a.2) ∈ history C es :=
    (history_perm C es).mem_iff.mpr (List.mem_append_left _ (List.mem_map_of_mem ha))
  obtain ⟨pre, s₁, s₂, hpre, hrun, hserve⟩ := (run_server h).step_of_mem hmem
  exact ⟨pre, s₁, s₂, (List.prefix_append _ _).trans hpre, hrun, hserve⟩

/-- What was sent for was asked for, or is sent for at the start or after a reply. -/
theorem mem_asked (Auto : φ → Prop) (hfs : ∀ f ∈ fs, Auto f)
    (hreply : ∀ p reply, ∀ f ∈ (C.onReply p reply).2, Auto f)
    (h : Run (Step C serve) (opening s p fs) es se) :
    (∀ f ∈ se.sent, Auto f ∨ .clicked f ∈ es) ∧
      ∀ a ∈ served es, Auto a.1 ∨ .clicked a.1 ∈ es := by
  refine h.invariant (I := fun es (se : Session σ π φ ω) =>
    (∀ f ∈ se.sent, Auto f ∨ .clicked f ∈ es) ∧ ∀ a ∈ served es, Auto a.1 ∨ .clicked a.1 ∈ es)
    ⟨fun f hf => .inl (hfs f hf), by simp [served]⟩ ?_
  intro es se e se' _ ih hstep
  have hlater : ∀ f, (Auto f ∨ .clicked f ∈ es) → Auto f ∨ .clicked f ∈ es ++ [e] :=
    fun f => .imp_right (List.mem_append_left _)
  rw [served_snoc]
  cases hstep with
  | clicked hoffers =>
    refine ⟨fun f hf => ?_, fun a ha => hlater _ (ih.2 a (by simpa using ha))⟩
    rcases List.mem_append.mp hf with hf | hf
    · exact hlater f (ih.1 f hf)
    · rw [List.mem_singleton.mp hf]
      exact .inr (List.mem_append_right _ List.mem_cons_self)
  | served hserve =>
    refine ⟨fun f hf => hlater f (ih.1 f ?_), fun a ha => ?_⟩
    · simp only [List.mem_append, List.mem_cons] at hf ⊢
      tauto
    · rcases List.mem_append.mp ha with ha | ha
      · exact hlater _ (ih.2 a ha)
      · obtain rfl := List.mem_singleton.mp ha
        exact hlater _ (ih.1 _ (List.mem_append_right _ List.mem_cons_self))
  | arrived =>
    refine ⟨fun f hf => ?_, fun a ha => hlater _ (ih.2 a (by simpa using ha))⟩
    rcases List.mem_append.mp hf with hf | hf
    · exact hlater f (ih.1 f hf)
    · exact .inl (hreply _ _ f hf)
  | requestLost =>
    refine ⟨fun f hf => hlater f (ih.1 f ?_), fun a ha => hlater _ (ih.2 a (by simpa using ha))⟩
    simp only [List.mem_append, List.mem_cons] at hf ⊢
    tauto
  | other hserve =>
    exact ⟨fun f hf => hlater f (ih.1 f hf), fun a ha => hlater _ (ih.2 a (by simpa using ha))⟩
  | replyLost =>
    exact ⟨fun f hf => hlater f (ih.1 f hf), fun a ha => hlater _ (ih.2 a (by simpa using ha))⟩

/-! ### Looking again -/

/-- The client can look at `view` of the server, and does so after each reply to a
request that may have changed it. -/
structure LooksAgain (C : Client π φ ι ω) (serve : σ → ι → Except ξ (σ × ω)) (view : σ → ν)
    (look : φ) (seen? : ω → Option ν) (Quiet : ω → Prop) : Prop where
  looks : ∀ {s s' : σ} {reply : ω}, serve s (C.request look) = .ok (s', reply) →
    seen? reply = some (view s)
  seen : ∀ {s s' : σ} {r : ι} {reply : ω} {v : ν}, serve s r = .ok (s', reply) →
    seen? reply = some v → v = view s'
  quiet : ∀ {s s' : σ} {r : ι} {reply : ω}, serve s r = .ok (s', reply) → Quiet reply →
    view s' = view s
  again : ∀ {s s' : σ} {r : ι} {reply : ω}, serve s r = .ok (s', reply) → ¬ Quiet reply →
    ∀ p, look ∈ (C.onReply p reply).2

/-- What the last look served has shown. -/
def lastSeen (seen? : ω → Option ν) (es : List (Happening φ ι ω)) : Option ν :=
  ((served es).filterMap fun a => seen? a.2).getLast?

theorem lastSeen_snoc (seen? : ω → Option ν) (es : List (Happening φ ι ω))
    (e : Happening φ ι ω) :
    lastSeen seen? (es ++ [e]) = (e.served?.bind fun a => seen? a.2).or (lastSeen seen? es) := by
  rw [lastSeen, served_snoc, List.filterMap_append, List.getLast?_append]
  cases e with
  | served f reply => cases hseen : seen? reply <;> simp [lastSeen, hseen]
  | _ => rfl

/-- A change is not yet told of, or the client is about to look, or what was last
looked at is what is there. -/
def Pending (C : Client π φ ι ω) (view : σ → ν) (look : φ) (seen? : ω → Option ν)
    (es : List (Happening φ ι ω)) (se : Session σ π φ ω) : Prop :=
  (∃ a ∈ se.replies, ∀ p, look ∈ (C.onReply p a.2).2) ∨ look ∈ se.sent ∨
    lastSeen seen? es = some (view se.server)

section settled
variable {view : σ → ν} {look : φ} {seen? : ω → Option ν} {Quiet : ω → Prop}
  {e : Happening φ ι ω} {se' : Session σ π φ ω}

theorem Pending.step (hC : LooksAgain C serve view look seen? Quiet)
    (h : Pending C view look seen? es se) (hstep : Step C serve se e se')
    (hloss : e.lost = false) (hothers : ∀ a ∈ e.other?, Quiet a.2) :
    Pending C view look seen? (es ++ [e]) se' := by
  rw [Pending, lastSeen_snoc]
  cases hstep with
  | clicked hoffers => exact h.imp_right (.imp_left (List.mem_append_left _))
  | @served s s' _ pre post replies f reply hserve =>
    cases hseen : seen? reply with
    | some v =>
      right; right
      simp [hseen, hC.seen hserve hseen]
    | none =>
      by_cases hquiet : Quiet reply
      · -- what was served is no look, and nothing has changed
        have hne : look ≠ f := by
          rintro rfl
          rw [hC.looks hserve] at hseen
          simp at hseen
        rcases h with ⟨a, ha, hlook⟩ | hl | hlast
        · exact .inl ⟨a, List.mem_append_left _ ha, hlook⟩
        · right; left
          simpa [hne] using hl
        · right; right
          simpa [hseen, hC.quiet hserve hquiet] using hlast
      · exact .inl ⟨(f, reply), by simp, hC.again hserve hquiet⟩
  | other hserve =>
    refine h.imp_right (.imp_right fun hlast => ?_)
    have hsame := hC.quiet hserve (hothers _ rfl)
    simpa [hsame] using hlast
  | @arrived _ p _ pre post f reply =>
    rcases h with ⟨a, ha, hlook⟩ | hl | hlast
    · rcases List.mem_append.mp ha with ha | ha
      · exact .inl ⟨a, List.mem_append_left _ ha, hlook⟩
      · rcases List.mem_cons.mp ha with rfl | ha
        · exact .inr (.inl (List.mem_append_right _ (hlook p)))
        · exact .inl ⟨a, List.mem_append_right _ ha, hlook⟩
    · exact .inr (.inl (List.mem_append_left _ hl))
    · exact .inr (.inr hlast)
  | requestLost => simp at hloss
  | replyLost => simp at hloss

/-- **Once all is answered**, what was last looked at is what is there, if nothing was
lost and the other clients changed nothing. -/
theorem settled (hC : LooksAgain C serve view look seen? Quiet) (hlook : look ∈ fs)
    (h : Run (Step C serve) (opening s p fs) es se) (hloss : NoLoss es)
    (hothers : ∀ a ∈ others es, Quiet a.2) (hsent : se.sent = []) (hreplies : se.replies = []) :
    lastSeen seen? es = some (view se.server) := by
  have hpending : NoLoss es → (∀ a ∈ others es, Quiet a.2) →
      Pending C view look seen? es se := by
    refine h.invariant (I := fun es se => NoLoss es → (∀ a ∈ others es, Quiet a.2) →
      Pending C view look seen? es se) (fun _ _ => .inr (.inl hlook)) ?_
    intro es se e se' _ ih hstep hloss hothers
    rw [others_snoc] at hothers
    rw [noLoss_snoc] at hloss
    exact (ih hloss.1 fun a ha => hothers a (List.mem_append_left _ ha)).step hC hstep hloss.2
      fun a ha => hothers a (List.mem_append_right _ (Option.mem_toList.mpr ha))
  rcases hpending hloss hothers with ⟨a, ha, _⟩ | hl | hlast
  · rw [hreplies] at ha
    simp at ha
  · rw [hsent] at hl
    simp at hl
  · exact hlast

end settled

end run

/-! ### How much is said -/

section traffic
variable [DecidableEq φ] {C : Client π φ ι ω} {serve : σ → ι → Except ξ (σ × ω)} {s : σ} {p : π}
  {fs : List φ} {es : List (Happening φ ι ω)} {se se' : Session σ π φ ω} {look : φ}

/-- A reply makes the client send for one look at most, and a look for nothing. -/
structure Terse (C : Client π φ ι ω) (serve : σ → ι → Except ξ (σ × ω)) (look : φ) : Prop where
  once : ∀ p reply, (C.onReply p reply).2 = [] ∨ (C.onReply p reply).2 = [look]
  ends : ∀ {s s' : σ} {reply : ω}, serve s (C.request look) = .ok (s', reply) →
    ∀ p, (C.onReply p reply).2 = []

/-- How many messages can still come of what is under way: a request, its reply, a look
and the reply to that. -/
def load (look : φ) (se : Session σ π φ ω) : ℕ :=
  (se.sent.map fun f => if f = look then 2 else 4).sum +
    (se.replies.map fun a => if a.1 = look then 1 else 3).sum

/-- The replies under way to looks send for nothing. -/
def LooksEnd (C : Client π φ ι ω) (look : φ) (se : Session σ π φ ω) : Prop :=
  ∀ a ∈ se.replies, a.1 = look → ∀ p, (C.onReply p a.2).2 = []

omit [DecidableEq φ] in
theorem looksEnd_of_run (hC : Terse C serve look)
    (h : Run (Step C serve) (opening s p fs) es se) : LooksEnd C look se := by
  intro a ha hlook
  have hserved : a ∈ served es :=
    (served_perm h).mem_iff.mpr (List.mem_append_right _ (List.mem_append_right _ ha))
  obtain ⟨_, _, _, _, _, hserve⟩ := exists_served_of_mem h hserved
  rw [hlook] at hserve
  exact hC.ends hserve

/-- **One happening.**  A message that moves on makes the load smaller, and a click makes
it larger by four at most. -/
theorem Step.load_le (hC : Terse C serve look) (hlooks : LooksEnd C look se)
    {e : Happening φ ι ω} (hstep : Step C serve se e se') :
    load look se' + (if e.moves then 1 else 0) ≤
      load look se + if e.isClick then 4 else 0 := by
  cases hstep with
  | clicked hoffers =>
    simp only [load, List.map_append, List.sum_append, List.map_singleton, List.sum_singleton,
      Happening.moves, Happening.isClick, Bool.false_eq_true, if_false, if_true]
    split <;> omega
  | served hserve =>
    simp only [load, List.map_append, List.sum_append, List.map_cons, List.sum_cons,
      List.map_nil, List.sum_nil, Happening.moves, Happening.isClick, Bool.false_eq_true,
      if_false, if_true]
    split <;> omega
  | other hserve => exact le_rfl
  | @arrived s p sent pre post f reply =>
    have hsum : (((C.onReply p reply).2.map fun f => if f = look then 2 else 4).sum) + 1 ≤
        if f = look then 1 else 3 := by
      by_cases hf : f = look
      · rw [hlooks (f, reply) (by simp) hf p]
        simp [hf]
      · rcases hC.once p reply with hnone | hone
        · simp [hnone, hf]
        · simp [hone, hf]
    simp only [load, List.map_append, List.sum_append, List.map_cons, List.sum_cons,
      Happening.moves, Happening.isClick, Bool.false_eq_true, if_false, if_true]
    omega
  | requestLost =>
    simp only [load, List.map_append, List.sum_append, List.map_cons, List.sum_cons,
      Happening.moves, Happening.isClick, Bool.false_eq_true, if_false, if_true]
    split <;> omega
  | replyLost =>
    simp only [load, List.map_append, List.sum_append, List.map_cons, List.sum_cons,
      Happening.moves, Happening.isClick, Bool.false_eq_true, if_false, if_true]
    split <;> omega

/-- **The clicks pay for what is said**, in every run. -/
theorem countP_moves_le (hC : Terse C serve look) (hfs : ∀ f ∈ fs, f = look)
    (h : Run (Step C serve) (opening s p fs) es se) :
    es.countP Happening.moves + load look se ≤
      2 * fs.length + 4 * es.countP Happening.isClick := by
  refine h.invariant (I := fun es se => es.countP Happening.moves + load look se ≤
    2 * fs.length + 4 * es.countP Happening.isClick) ?_ ?_
  · have hall : (fs.map fun f => if f = look then 2 else 4) = fs.map fun _ => 2 :=
      List.map_congr_left fun f hf => if_pos (hfs f hf)
    simp [load, opening, hall, mul_comm]
  · intro es se e se' hrun ih hstep
    have hload := hstep.load_le hC (looksEnd_of_run hC hrun)
    rw [List.countP_append, List.countP_append, List.countP_singleton, List.countP_singleton]
    cases e <;> simp only [Happening.moves, Happening.isClick, Bool.false_eq_true, if_false,
      if_true] at hload ⊢ <;> omega

/-- **Silence can be had**: where the server answers, what is under way can be answered to
the last reply. -/
theorem exists_quiet (hC : Terse C serve look)
    (hserve : ∀ pre s', Run (Served serve) s pre s' → ∀ f, ∃ q, serve s' (C.request f) = .ok q)
    (h : Run (Step C serve) (opening s p fs) es se) :
    ∃ es' se', Run (Step C serve) se es' se' ∧ (∀ e ∈ es', e.moves = true ∧ e.lost = false) ∧
      se'.sent = [] ∧ se'.replies = [] := by
  induction hn : load look se using Nat.strong_induction_on generalizing es se with
  | _ n ih =>
    -- one message more, and the rest is lighter
    have hmore : ∀ {e : Happening φ ι ω} {se₁ : Session σ π φ ω}, Step C serve se e se₁ →
        e.moves = true → e.isClick = false → e.lost = false →
        ∃ es' se', Run (Step C serve) se es' se' ∧
          (∀ e ∈ es', e.moves = true ∧ e.lost = false) ∧ se'.sent = [] ∧ se'.replies = [] := by
      intro e se₁ hstep hmoves hclick hlost
      have hload := hstep.load_le hC (looksEnd_of_run hC h)
      rw [hmoves, hclick, if_pos rfl, if_neg Bool.false_ne_true] at hload
      have hlt : load look se₁ < n := by omega
      obtain ⟨es', se', hrun, hes', hquiet⟩ := ih _ hlt (h.snoc hstep) rfl
      refine ⟨[e] ++ es', se', (Run.nil.snoc hstep).append hrun, ?_, hquiet⟩
      intro e' he'
      rcases List.mem_append.mp he' with he' | he'
      · rw [List.mem_singleton.mp he']
        exact ⟨hmoves, hlost⟩
      · exact hes' e' he'
    obtain ⟨s', p', sent, replies⟩ := se
    cases sent with
    | cons f sent =>
      obtain ⟨⟨s'', reply⟩, hq⟩ := hserve _ _ (run_server h) f
      have hstep : Step C serve ⟨s', p', [] ++ f :: sent, replies⟩ (.served f reply) _ :=
        .served hq
      exact hmore hstep rfl rfl rfl
    | nil =>
      cases replies with
      | cons a replies =>
        have hstep : Step C serve ⟨s', p', [], [] ++ (a.1, a.2) :: replies⟩ (.arrived a.1 a.2) _ :=
          .arrived
        exact hmore hstep rfl rfl rfl
      | nil => exact ⟨[], _, .nil, by simp, rfl, rfl⟩

end traffic

/-! ### Playing a session -/

section play
variable {C : Client π φ ι ω} [∀ p f, Decidable (C.offers p f)]
  {serve : σ → ι → Except ξ (σ × ω)}

/-- A click, or else the first request under way is served and answered. -/
def play (C : Client π φ ι ω) [∀ p f, Decidable (C.offers p f)]
    (serve : σ → ι → Except ξ (σ × ω)) (se : Session σ π φ ω) :
    Option φ → Option (List (Happening φ ι ω) × Session σ π φ ω)
  | some f =>
    if C.offers se.client f then some ([.clicked f], { se with sent := se.sent ++ [f] })
    else none
  | none =>
    match se.sent with
    | [] => none
    | f :: sent =>
      match serve se.server (C.request f) with
      | .error _ => none
      | .ok (s, reply) =>
        some ([.served f reply, .arrived f reply],
          { server := s, client := (C.onReply se.client reply).1
            sent := sent ++ (C.onReply se.client reply).2, replies := se.replies })

theorem run_of_play {se se' : Session σ π φ ω} {m : Option φ} {es : List (Happening φ ι ω)}
    (h : play C serve se m = some (es, se')) : Run (Step C serve) se es se' := by
  obtain ⟨s, p, sent, replies⟩ := se
  cases m with
  | some f =>
    rw [play] at h
    split at h
    · rename_i hoffers
      obtain ⟨rfl, rfl⟩ := Prod.mk.inj (Option.some.inj h)
      exact Run.nil.snoc (.clicked hoffers)
    · simp at h
  | none =>
    cases sent with
    | nil => simp [play] at h
    | cons f sent =>
      simp only [play] at h
      split at h
      · simp at h
      · rename_i s' reply hserve
        obtain ⟨rfl, rfl⟩ := Prod.mk.inj (Option.some.inj h)
        have hserved : Step C serve ⟨s, p, [] ++ f :: sent, replies⟩ (.served f reply)
            ⟨s', p, [] ++ sent, replies ++ [(f, reply)]⟩ := .served hserve
        exact (Run.nil.snoc hserved).snoc .arrived_last

/-- Play the moves, then test what came out; false if one cannot be made. -/
def playThen (C : Client π φ ι ω) [∀ p f, Decidable (C.offers p f)]
    (serve : σ → ι → Except ξ (σ × ω)) (q : List (Happening φ ι ω) → Session σ π φ ω → Bool) :
    List (Happening φ ι ω) → Session σ π φ ω → List (Option φ) → Bool
  | es, se, [] => q es se
  | es, se, m :: ms =>
    match play C serve se m with
    | none => false
    | some (fs, se') => playThen C serve q (es ++ fs) se' ms

theorem run_of_playThen {se₀ : Session σ π φ ω}
    {q : List (Happening φ ι ω) → Session σ π φ ω → Bool} {ms : List (Option φ)} :
    ∀ {es : List (Happening φ ι ω)} {se : Session σ π φ ω}, Run (Step C serve) se₀ es se →
      playThen C serve q es se ms = true →
      ∃ es' se', Run (Step C serve) se₀ es' se' ∧ q es' se' = true := by
  induction ms with
  | nil => exact fun h hq => ⟨_, _, h, hq⟩
  | cons m ms ih =>
    intro es se h hq
    rw [playThen] at hq
    split at hq
    · simp at hq
    · rename_i fs se' hplay
      exact ih (h.append (run_of_play hplay)) hq

end play

end Messages
