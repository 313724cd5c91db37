/-
A client of a server that has threads.

As in `Messages.lean`, but a request that comes to the server is a thread from then on, the
threads of all clients interleave, and a reply is sent when its thread has replied.

* `exists_session` — where the threads take effect at one step, whatever happens is, event
  by event, what can happen with a server that serves one request at a time;
* `exists_threaded` — and the other way round, where a thread that runs alone does what
  serving its request does.
-/
import SmartParking.Library.Linearization
import SmartParking.Library.Messages

open Runs Linearization Messages

namespace Threaded

variable {σ τ ι ω ξ π φ : Type}

/-- What the threads share, the client, what is under way between them, and the threads,
each with the request it serves: `.inl` those of the client, `.inr` those of others. -/
structure Busy (σ τ ι π φ ω : Type) where
  shared : σ
  client : π
  sent : List φ
  threads : List ((φ ⊕ ι) × τ)
  replies : List (φ × ω)

/-- No request has come to the server. -/
def idle (s : σ) (p : π) (fs : List φ) : Busy σ τ ι π φ ω := ⟨s, p, fs, [], []⟩

inductive Moment (τ ι φ ω : Type)
  | clicked (f : φ)
  | accepted (who : φ ⊕ ι)
  | moved (who : φ ⊕ ι) (t : τ)
  | answered (who : φ ⊕ ι) (reply : ω)
  | arrived (f : φ) (reply : ω)
  | requestLost (f : φ)
  | replyLost (f : φ) (reply : ω)
  deriving DecidableEq

/-- What happens next. -/
inductive Step (C : Client π φ ι ω) (next : σ → τ → Option (σ × τ)) (start : ι → τ)
    (reply? : τ → Option ω) :
    Busy σ τ ι π φ ω → Moment τ ι φ ω → Busy σ τ ι π φ ω → Prop
  | clicked {s : σ} {p : π} {sent : List φ} {ts : List ((φ ⊕ ι) × τ)} {replies : List (φ × ω)}
      {f : φ} : C.offers p f →
      Step C next start reply? ⟨s, p, sent, ts, replies⟩ (.clicked f)
        ⟨s, p, sent ++ [f], ts, replies⟩
  | accepted {s : σ} {p : π} {pre post : List φ} {ts : List ((φ ⊕ ι) × τ)}
      {replies : List (φ × ω)} {f : φ} :
      Step C next start reply? ⟨s, p, pre ++ f :: post, ts, replies⟩ (.accepted (.inl f))
        ⟨s, p, pre ++ post, ts ++ [(.inl f, start (C.request f))], replies⟩
  | otherAccepted {s : σ} {p : π} {sent : List φ} {ts : List ((φ ⊕ ι) × τ)}
      {replies : List (φ × ω)} {r : ι} :
      Step C next start reply? ⟨s, p, sent, ts, replies⟩ (.accepted (.inr r))
        ⟨s, p, sent, ts ++ [(.inr r, start r)], replies⟩
  | moved {s s' : σ} {p : π} {sent : List φ} {pre post : List ((φ ⊕ ι) × τ)}
      {replies : List (φ × ω)} {who : φ ⊕ ι} {t t' : τ} : next s t = some (s', t') →
      Step C next start reply? ⟨s, p, sent, pre ++ (who, t) :: post, replies⟩ (.moved who t)
        ⟨s', p, sent, pre ++ (who, t') :: post, replies⟩
  | answered {s : σ} {p : π} {sent : List φ} {pre post : List ((φ ⊕ ι) × τ)}
      {replies : List (φ × ω)} {f : φ} {t : τ} {reply : ω} : reply? t = some reply →
      Step C next start reply? ⟨s, p, sent, pre ++ (.inl f, t) :: post, replies⟩
        (.answered (.inl f) reply) ⟨s, p, sent, pre ++ post, replies ++ [(f, reply)]⟩
  | otherAnswered {s : σ} {p : π} {sent : List φ} {pre post : List ((φ ⊕ ι) × τ)}
      {replies : List (φ × ω)} {r : ι} {t : τ} {reply : ω} : reply? t = some reply →
      Step C next start reply? ⟨s, p, sent, pre ++ (.inr r, t) :: post, replies⟩
        (.answered (.inr r) reply) ⟨s, p, sent, pre ++ post, replies⟩
  | arrived {s : σ} {p : π} {sent : List φ} {ts : List ((φ ⊕ ι) × τ)}
      {pre post : List (φ × ω)} {f : φ} {reply : ω} :
      Step C next start reply? ⟨s, p, sent, ts, pre ++ (f, reply) :: post⟩ (.arrived f reply)
        ⟨s, (C.onReply p reply).1, sent ++ (C.onReply p reply).2, ts, pre ++ post⟩
  | requestLost {s : σ} {p : π} {pre post : List φ} {ts : List ((φ ⊕ ι) × τ)}
      {replies : List (φ × ω)} {f : φ} :
      Step C next start reply? ⟨s, p, pre ++ f :: post, ts, replies⟩ (.requestLost f)
        ⟨s, p, pre ++ post, ts, replies⟩
  | replyLost {s : σ} {p : π} {sent : List φ} {ts : List ((φ ⊕ ι) × τ)}
      {pre post : List (φ × ω)} {f : φ} {reply : ω} :
      Step C next start reply? ⟨s, p, sent, ts, pre ++ (f, reply) :: post⟩ (.replyLost f reply)
        ⟨s, p, sent, ts, pre ++ post⟩

/-- As what a moment counts where requests are served one at a time: a request is served
at some step of its thread. -/
inductive Shows : Moment τ ι φ ω → Option (Happening φ ι ω) → Prop
  | clicked {f : φ} : Shows (.clicked f) (some (.clicked f))
  | accepted {who : φ ⊕ ι} : Shows (.accepted who) none
  | moved {who : φ ⊕ ι} {t : τ} : Shows (.moved who t) none
  | served {f : φ} {t : τ} {reply : ω} : Shows (.moved (.inl f) t) (some (.served f reply))
  | other {r : ι} {t : τ} {reply : ω} : Shows (.moved (.inr r) t) (some (.other r reply))
  | answered {who : φ ⊕ ι} {reply : ω} : Shows (.answered who reply) none
  | arrived {f : φ} {reply : ω} : Shows (.arrived f reply) (some (.arrived f reply))
  | requestLost {f : φ} : Shows (.requestLost f) (some (.requestLost f))
  | replyLost {f : φ} {reply : ω} : Shows (.replyLost f reply) (some (.replyLost f reply))

/-- What a thread relies on when it moves. -/
def Moment.Meets (Q : σ → τ → Prop) (s : σ) : Moment τ ι φ ω → Prop
  | .moved _ t => Q s t
  | _ => True

/-- What happens next, where each step of a thread meets `Q`. -/
def StepMeets (C : Client π φ ι ω) (next : σ → τ → Option (σ × τ)) (start : ι → τ)
    (reply? : τ → Option ω) (Q : σ → τ → Prop) (c : Busy σ τ ι π φ ω) (m : Moment τ ι φ ω)
    (c' : Busy σ τ ι π φ ω) : Prop :=
  Step C next start reply? c m c' ∧ m.Meets Q c.shared

/-! ### In whatever order the threads move -/

/-- `I` is an invariant of what the threads share, and what `L` says of a thread stays so. -/
structure Kept (next : σ → τ → Option (σ × τ)) (I : σ → Prop) (L : σ → ι → τ → Prop) :
    Prop where
  own : ∀ {s : σ} {r : ι} {t : τ} {s' : σ} {t' : τ}, I s → L s r t →
    next s t = some (s', t') → I s' ∧ L s' r t'
  other : ∀ {s : σ} {r : ι} {t : τ} {s' : σ} {t' : τ} {r' : ι} {u : τ}, I s → L s r t →
    next s t = some (s', t') → L s r' u → L s' r' u

/-- The request that a thread serves. -/
def asked (C : Client π φ ι ω) : φ ⊕ ι → ι := Sum.elim C.request id

/-- What is known of the threads. -/
def Working (C : Client π φ ι ω) (I : σ → Prop) (L : σ → ι → τ → Prop)
    (c : Busy σ τ ι π φ ω) : Prop :=
  I c.shared ∧ ∀ x ∈ c.threads, L c.shared (asked C x.1) x.2

@[simp] def Moment.arrived? : Moment τ ι φ ω → Option (φ × ω)
  | .arrived f reply => some (f, reply)
  | _ => none

/-- The replies in the order in which they arrived. -/
def arrivedReplies (ms : List (Moment τ ι φ ω)) : List (φ × ω) := ms.filterMap Moment.arrived?

theorem arrivedReplies_snoc (ms : List (Moment τ ι φ ω)) (m : Moment τ ι φ ω) :
    arrivedReplies (ms ++ [m]) = arrivedReplies ms ++ m.arrived?.toList := by
  rw [arrivedReplies, List.filterMap_append]
  cases m <;> rfl

section run
variable {C : Client π φ ι ω} {next : σ → τ → Option (σ × τ)} {I : σ → Prop}
  {L : σ → ι → τ → Prop} {start : ι → τ} {reply? : τ → Option ω} {s : σ} {p : π} {fs : List φ}
  {c c' : Busy σ τ ι π φ ω} {m : Moment τ ι φ ω} {ms : List (Moment τ ι φ ω)}

theorem Working.step (hkept : Kept next I L) (hstart : ∀ s r, I s → L s r (start r))
    (h : Working C I L c) (hstep : Step C next start reply? c m c') : Working C I L c' := by
  obtain ⟨hI, hL⟩ := h
  cases hstep with
  | accepted =>
    refine ⟨hI, fun x hx => ?_⟩
    rcases List.mem_append.mp hx with hx | hx
    · exact hL x hx
    · rw [List.mem_singleton.mp hx]
      exact hstart _ _ hI
  | otherAccepted =>
    refine ⟨hI, fun x hx => ?_⟩
    rcases List.mem_append.mp hx with hx | hx
    · exact hL x hx
    · rw [List.mem_singleton.mp hx]
      exact hstart _ _ hI
  | @moved s s' _ _ pre post _ who t t' hnext =>
    have hLt : L s (asked C who) t := hL (who, t) (by simp)
    obtain ⟨hI', hL'⟩ := hkept.own hI hLt hnext
    have hothers : ∀ x ∈ pre ++ post, L s' (asked C x.1) x.2 := by
      intro x hx
      refine hkept.other hI hLt hnext (hL x ?_)
      simp only [List.mem_append, List.mem_cons] at hx ⊢
      tauto
    refine ⟨hI', fun x hx => ?_⟩
    rw [List.mem_append, List.mem_cons] at hx
    rcases hx with hx | rfl | hx
    · exact hothers x (List.mem_append_left _ hx)
    · exact hL'
    · exact hothers x (List.mem_append_right _ hx)
  | answered _ =>
    refine ⟨hI, fun x hx => hL x ?_⟩
    simp only [List.mem_append, List.mem_cons] at hx ⊢
    tauto
  | otherAnswered _ =>
    refine ⟨hI, fun x hx => hL x ?_⟩
    simp only [List.mem_append, List.mem_cons] at hx ⊢
    tauto
  | _ => exact ⟨hI, hL⟩

theorem run_of_stepMeets {Q : σ → τ → Prop} {c₀ : Busy σ τ ι π φ ω}
    (h : Run (StepMeets C next start reply? Q) c₀ ms c) :
    Run (Step C next start reply?) c₀ ms c :=
  h.invariant (I := fun ms c => Run (Step C next start reply?) c₀ ms c) .nil
    fun _ _ _ _ _ ih hstep => ih.snoc hstep.1

theorem client_of_moments (h : Run (Step C next start reply?) (idle s p fs) ms c) :
    c.client = (arrivedReplies ms).foldl (fun p a => (C.onReply p a.2).1) p := by
  refine h.invariant (I := fun ms (c : Busy σ τ ι π φ ω) =>
    c.client = (arrivedReplies ms).foldl (fun p a => (C.onReply p a.2).1) p) rfl ?_
  intro ms c m c' _ ih hstep
  rw [arrivedReplies_snoc, List.foldl_append, ← ih]
  cases hstep <;> rfl

/-- **Every reply is warranted** at any later time, if a thread that replies warrants it
and no step of a thread revokes what has been. -/
theorem warranted_of_run {K : σ → φ → ω → Prop} (hkept : Kept next I L)
    (hstart : ∀ s r, I s → L s r (start r))
    (hreply : ∀ {s f t reply}, I s → L s (C.request f) t → reply? t = some reply → K s f reply)
    (hstay : ∀ {s r t s' t' f reply}, I s → L s r t → next s t = some (s', t') →
      K s f reply → K s' f reply)
    (hI : I s) (h : Run (Step C next start reply?) (idle s p fs) ms c) :
    (∀ a ∈ c.replies, K c.shared a.1 a.2) ∧ ∀ a ∈ arrivedReplies ms, K c.shared a.1 a.2 := by
  have key : Working C I L c ∧ (∀ a ∈ c.replies, K c.shared a.1 a.2) ∧
      ∀ a ∈ arrivedReplies ms, K c.shared a.1 a.2 := by
    refine h.invariant (I := fun ms c => Working C I L c ∧
      (∀ a ∈ c.replies, K c.shared a.1 a.2) ∧ ∀ a ∈ arrivedReplies ms, K c.shared a.1 a.2)
      ⟨⟨hI, by simp [idle]⟩, by simp [idle], by simp [arrivedReplies]⟩ ?_
    rintro ms c m c' _ ⟨hw, hreplies, harrived⟩ hstep
    refine ⟨hw.step hkept hstart hstep, ?_⟩
    rw [arrivedReplies_snoc]
    cases hstep with
    | @moved s s' _ _ pre post _ who t t' hnext =>
      have hLt : L s (asked C who) t := hw.2 (who, t) (by simp)
      refine ⟨fun a ha => hstay hw.1 hLt hnext (hreplies a ha), fun a ha => ?_⟩
      exact hstay hw.1 hLt hnext (harrived a (by simpa using ha))
    | @answered _ _ _ pre post _ f t reply hanswer =>
      refine ⟨fun a ha => ?_, by simpa using harrived⟩
      rcases List.mem_append.mp ha with ha | ha
      · exact hreplies a ha
      · rw [List.mem_singleton.mp ha]
        exact hreply hw.1 (hw.2 (.inl f, t) (by simp)) hanswer
    | arrived =>
      refine ⟨fun a ha => hreplies a ?_, fun a ha => ?_⟩
      · simp only [List.mem_append, List.mem_cons] at ha ⊢
        tauto
      · rcases List.mem_append.mp ha with ha | ha
        · exact harrived a ha
        · obtain rfl := List.mem_singleton.mp ha
          exact hreplies _ (by simp)
    | replyLost =>
      refine ⟨fun a ha => hreplies a ?_, by simpa using harrived⟩
      simp only [List.mem_append, List.mem_cons] at ha ⊢
      tauto
    | _ => exact ⟨hreplies, by simpa using harrived⟩
  exact key.2

/-- What the client has sent for: what is under way, being served or answered. -/
def about (ms : List (Moment τ ι φ ω)) (c : Busy σ τ ι π φ ω) : List φ :=
  c.sent ++ (c.threads.filterMap (fun x => x.1.getLeft?) ++
    (c.replies.map Prod.fst ++ (arrivedReplies ms).map Prod.fst))

theorem mem_about_step (hstep : Step C next start reply? c m c') {f : φ}
    (hf : f ∈ about (ms ++ [m]) c') :
    f ∈ about ms c ∨ m = .clicked f ∨ ∃ p reply, f ∈ (C.onReply p reply).2 := by
  rw [about, arrivedReplies_snoc] at hf
  rw [about]
  cases hstep with
  | clicked hoffers =>
    simp only [Moment.arrived?, Option.toList_none, List.append_nil, List.mem_append,
      List.mem_singleton, Moment.clicked.injEq] at hf ⊢
    tauto
  | arrived =>
    simp only [Moment.arrived?, Option.toList_some, List.map_append, List.map_cons,
      List.map_nil, List.mem_append, List.mem_cons, List.not_mem_nil, or_false] at hf ⊢
    rcases hf with (hf | hf) | hf
    · exact .inl (.inl hf)
    · exact .inr (.inr ⟨_, _, hf⟩)
    · left
      tauto
  | _ =>
    simp only [Moment.arrived?, Option.toList_none, List.append_nil, List.map_append,
      List.map_cons, List.map_nil, List.filterMap_append, List.filterMap_cons,
      List.filterMap_nil, Sum.getLeft?_inl, Sum.getLeft?_inr, List.mem_append, List.mem_cons,
      List.not_mem_nil, or_false] at hf ⊢
    tauto

/-- What the client sends for its user has asked for, except for what it sends for by
itself. -/
theorem asked_of_run (Auto : φ → Prop) (hfs : ∀ f ∈ fs, Auto f)
    (hreply : ∀ p reply, ∀ f ∈ (C.onReply p reply).2, Auto f)
    (h : Run (Step C next start reply?) (idle s p fs) ms c) :
    ∀ f ∈ about ms c, Auto f ∨ .clicked f ∈ ms := by
  refine h.invariant (I := fun ms c => ∀ f ∈ about ms c, Auto f ∨ .clicked f ∈ ms) ?_ ?_
  · intro f hf
    exact .inl (hfs f (by simpa [about, idle, arrivedReplies] using hf))
  · intro ms c m c' _ ih hstep f hf
    rcases mem_about_step hstep hf with hf | rfl | ⟨p, reply, hf⟩
    · exact (ih f hf).imp_right (List.mem_append_left _)
    · exact .inr (List.mem_append_right _ (List.mem_singleton_self _))
    · exact .inl (hreply p reply f hf)

end run

/-! ### From threads to one request at a time -/

section session
variable {C : Client π φ ι ω} {next : σ → τ → Option (σ × τ)}
  {serve : σ → ι → Except ξ (σ × ω)} {I : σ → Prop} {L : σ → ι → τ → Prop}
  {answer : σ → τ → Option ω} {Q : σ → τ → Prop} {start : ι → τ} {reply? : τ → Option ω}
  {s : σ} {p : π} {fs : List φ} {c c' : Busy σ τ ι π φ ω} {m : Moment τ ι φ ω}

theorem kept_of_atomic (ha : Atomic next serve I L answer Q) : Kept next I L where
  own := ha.own
  other hI hL hnext hu := (ha.other hI hL hnext hu).1

/-- The request of the client that a thread has not answered. -/
def waiting? (answer : σ → τ → Option ω) (s : σ) : (φ ⊕ ι) × τ → Option φ
  | (.inl f, t) => if (answer s t).isNone then some f else none
  | (.inr _, _) => none

/-- The reply to the client that a thread is committed to. -/
def answering? (answer : σ → τ → Option ω) (s : σ) : (φ ⊕ ι) × τ → Option (φ × ω)
  | (.inl f, t) => (answer s t).map fun reply => (f, reply)
  | (.inr _, _) => none

/-- A session in which each thread is a request under way until it is committed, and a
reply under way from then on. -/
structure Shadows (answer : σ → τ → Option ω) (c : Busy σ τ ι π φ ω) (se : Session σ π φ ω) :
    Prop where
  server : se.server = c.shared
  client : se.client = c.client
  sent : se.sent.Perm (c.sent ++ c.threads.filterMap (waiting? answer c.shared))
  replies : se.replies.Perm (c.replies ++ c.threads.filterMap (answering? answer c.shared))

theorem Shadows.exists_eq {s : σ} {p : π} {sent : List φ} {ts : List ((φ ⊕ ι) × τ)}
    {replies : List (φ × ω)} {se : Session σ π φ ω}
    (h : Shadows answer ⟨s, p, sent, ts, replies⟩ se) :
    ∃ sent' replies', se = ⟨s, p, sent', replies'⟩ ∧
      sent'.Perm (sent ++ ts.filterMap (waiting? answer s)) ∧
      replies'.Perm (replies ++ ts.filterMap (answering? answer s)) := by
  obtain ⟨server, client, sent', replies'⟩ := se
  obtain ⟨hserver, hclient, hsent, hreplies⟩ := h
  obtain rfl : server = s := hserver
  obtain rfl : client = p := hclient
  exact ⟨sent', replies', rfl, hsent, hreplies⟩

/-! ### Lists in the middle of which something happens -/

theorem filterMap_middle {α β : Type} (g : α → Option β) (pre post : List α) (a : α) :
    (pre ++ a :: post).filterMap g = pre.filterMap g ++ ((g a).toList ++ post.filterMap g) := by
  rw [List.filterMap_append, List.filterMap_cons]
  cases g a <;> rfl

/-- What is taken away on one side is taken away on the other. -/
theorem perm_of_middle {α : Type} {a : α} {pre post pre' post' : List α}
    (h : (pre' ++ a :: post').Perm (pre ++ a :: post)) : (pre' ++ post').Perm (pre ++ post) :=
  (List.perm_middle.symm.trans (h.trans List.perm_middle)).cons_inv

/-- What is put at the end on one side is put in the middle on the other. -/
theorem perm_append_middle {α : Type} {l pre post : List α} (h : l.Perm (pre ++ post))
    (m : List α) : (l ++ m).Perm (pre ++ (m ++ post)) := by
  refine (h.append_right m).trans ?_
  rw [List.append_assoc]
  exact List.perm_append_comm.append_left pre

/-! ### One step of a thread -/

section moved
variable {s' : σ} {sent : List φ} {pre post : List ((φ ⊕ ι) × τ)} {replies : List (φ × ω)}
  {who : φ ⊕ ι} {t t' : τ} {se : Session σ π φ ω}

theorem waiting?_congr (h : answer s' t' = answer s t) :
    waiting? answer s' (who, t') = waiting? answer s (who, t) := by
  cases who with
  | inl f => rw [waiting?, waiting?, h]
  | inr r => rfl

theorem answering?_congr (h : answer s' t' = answer s t) :
    answering? answer s' (who, t') = answering? answer s (who, t) := by
  cases who with
  | inl f => rw [answering?, answering?, h]
  | inr r => rfl

/-- The other threads are as they were. -/
theorem waiting_moved (hothers : ∀ x ∈ pre ++ post, answer s' x.2 = answer s x.2) :
    (pre ++ (who, t') :: post).filterMap (waiting? answer s') =
      pre.filterMap (waiting? answer s) ++
        ((waiting? answer s' (who, t')).toList ++ post.filterMap (waiting? answer s)) := by
  rw [filterMap_middle,
    List.filterMap_congr fun x hx => waiting?_congr (hothers x (List.mem_append_left _ hx)),
    List.filterMap_congr fun x hx => waiting?_congr (hothers x (List.mem_append_right _ hx))]

theorem answering_moved (hothers : ∀ x ∈ pre ++ post, answer s' x.2 = answer s x.2) :
    (pre ++ (who, t') :: post).filterMap (answering? answer s') =
      pre.filterMap (answering? answer s) ++
        ((answering? answer s' (who, t')).toList ++ post.filterMap (answering? answer s)) := by
  rw [filterMap_middle,
    List.filterMap_congr fun x hx => answering?_congr (hothers x (List.mem_append_left _ hx)),
    List.filterMap_congr fun x hx => answering?_congr (hothers x (List.mem_append_right _ hx))]

/-- A step that commits no thread is not seen. -/
theorem Shadows.unseen (h : Shadows answer ⟨s, p, sent, pre ++ (who, t) :: post, replies⟩ se)
    (hothers : ∀ x ∈ pre ++ post, answer s' x.2 = answer s x.2) (hsame : s' = s)
    (hans : answer s' t' = answer s t) :
    Shadows answer ⟨s', p, sent, pre ++ (who, t') :: post, replies⟩ se := by
  obtain ⟨sent', replies', rfl, hsent, hreplies⟩ := h.exists_eq
  rw [filterMap_middle] at hsent hreplies
  refine ⟨hsame.symm, rfl, ?_, ?_⟩
  · rw [waiting_moved hothers, waiting?_congr hans]
    exact hsent
  · rw [answering_moved hothers, answering?_congr hans]
    exact hreplies

/-- Where the thread commits, its request is served. -/
theorem Shadows.commit (h : Shadows answer ⟨s, p, sent, pre ++ (who, t) :: post, replies⟩ se)
    (hothers : ∀ x ∈ pre ++ post, answer s' x.2 = answer s x.2) {reply : ω}
    (hserve : serve s (asked C who) = .ok (s', reply)) (hold : answer s t = none)
    (hnew : answer s' t' = some reply) :
    ∃ e se', Shows (.moved who t : Moment τ ι φ ω) (some e) ∧ Messages.Step C serve se e se' ∧
      Shadows answer ⟨s', p, sent, pre ++ (who, t') :: post, replies⟩ se' := by
  obtain ⟨sent', replies', rfl, hsent, hreplies⟩ := h.exists_eq
  rw [filterMap_middle] at hsent hreplies
  cases who with
  | inl f =>
    -- its request is under way, and its reply will be
    simp only [waiting?, hold, Option.isNone_none, if_true, Option.toList_some] at hsent
    simp only [answering?, hold, Option.map_none, Option.toList_none, List.nil_append] at hreplies
    have hmem : f ∈ sent' := hsent.mem_iff.mpr (by simp)
    obtain ⟨sent₁, sent₂, rfl⟩ := List.append_of_mem hmem
    refine ⟨.served f reply, _, .served, .served hserve, rfl, rfl, ?_, ?_⟩
    · rw [waiting_moved hothers, waiting?, hnew, ← List.append_assoc]
      rw [← List.append_assoc] at hsent
      exact perm_of_middle hsent
    · rw [answering_moved hothers, answering?, hnew, ← List.append_assoc]
      rw [← List.append_assoc] at hreplies
      exact perm_append_middle hreplies [(f, reply)]
  | inr r =>
    refine ⟨.other r reply, _, .other, .other hserve, rfl, rfl, ?_, ?_⟩
    · rw [waiting_moved hothers]
      exact hsent
    · rw [answering_moved hothers]
      exact hreplies

/-- **One step of a thread** serves its request, or is not seen. -/
theorem Shadows.moved (ha : Atomic next serve I L answer Q)
    (hw : Working C I L (⟨s, p, sent, pre ++ (who, t) :: post, replies⟩ : Busy σ τ ι π φ ω))
    (h : Shadows answer ⟨s, p, sent, pre ++ (who, t) :: post, replies⟩ se)
    (hnext : next s t = some (s', t')) (hQ : Q s t) :
    ∃ o se', Shows (.moved who t : Moment τ ι φ ω) o ∧
      Run (Messages.Step C serve) se o.toList se' ∧
      Shadows answer ⟨s', p, sent, pre ++ (who, t') :: post, replies⟩ se' := by
  obtain ⟨hI, hL⟩ := hw
  have hLt : L s (asked C who) t := hL (who, t) (by simp)
  have hothers : ∀ x ∈ pre ++ post, answer s' x.2 = answer s x.2 := by
    intro x hx
    refine (ha.other hI hLt hnext (hL x ?_)).2
    simp only [List.mem_append, List.mem_cons] at hx ⊢
    tauto
  cases hold : answer s t with
  | some reply =>
    obtain ⟨hsame, hans⟩ := ha.after hI hLt hnext hold
    exact ⟨none, se, .moved, .nil, h.unseen hothers hsame (hans.trans hold.symm)⟩
  | none =>
    cases hnew : answer s' t' with
    | none =>
      have hsame := ha.before hI hLt hnext hnew
      exact ⟨none, se, .moved, .nil, h.unseen hothers hsame (hnew.trans hold.symm)⟩
    | some reply =>
      have hserve := ha.commit hI hLt hnext hQ hold hnew
      obtain ⟨e, se', hshows, hstep, h'⟩ := h.commit hothers hserve hold hnew
      exact ⟨some e, se', hshows, Run.nil.snoc hstep, h'⟩

end moved

/-! ### Every other step -/

/-- **One moment** is seen as at most one event. -/
theorem Shadows.step (ha : Atomic next serve I L answer Q) (hends : Ends start reply? answer)
    (hw : Working C I L c) {se : Session σ π φ ω} (h : Shadows answer c se)
    (hstep : Step C next start reply? c m c') (hQ : m.Meets Q c.shared) :
    ∃ o se', Shows m o ∧ Run (Messages.Step C serve) se o.toList se' ∧
      Shadows answer c' se' := by
  cases hstep with
  | moved hnext => exact h.moved ha hw hnext hQ
  | @clicked s p sent ts replies f hoffers =>
    obtain ⟨sent', replies', rfl, hsent, hreplies⟩ := h.exists_eq
    refine ⟨_, _, .clicked, Run.nil.snoc (.clicked hoffers), rfl, rfl, ?_, hreplies⟩
    rw [List.append_assoc]
    exact perm_append_middle hsent [f]
  | @accepted s p pre post ts replies f =>
    -- the request is still under way
    obtain ⟨sent', replies', rfl, hsent, hreplies⟩ := h.exists_eq
    refine ⟨none, _, .accepted, .nil, rfl, rfl, ?_, ?_⟩
    · simp only [List.filterMap_append, List.filterMap_cons, List.filterMap_nil, waiting?,
        hends.begins, Option.isNone_none, if_true]
      rw [List.append_assoc] at hsent
      rw [← List.append_assoc, List.append_assoc pre]
      exact hsent.trans (perm_append_middle (.refl _) [f]).symm
    · simp only [List.filterMap_append, List.filterMap_cons, List.filterMap_nil, answering?,
        hends.begins, Option.map_none, List.append_nil]
      exact hreplies
  | otherAccepted =>
    obtain ⟨sent', replies', rfl, hsent, hreplies⟩ := h.exists_eq
    refine ⟨none, _, .accepted, .nil, rfl, rfl, ?_, ?_⟩
    · rw [List.filterMap_append, show [_].filterMap (waiting? answer _) = [] from rfl,
        List.append_nil]
      exact hsent
    · rw [List.filterMap_append, show [_].filterMap (answering? answer _) = [] from rfl,
        List.append_nil]
      exact hreplies
  | @answered s p sent pre post replies f t reply hreply =>
    -- the reply was under way
    obtain ⟨sent', replies', rfl, hsent, hreplies⟩ := h.exists_eq
    have hans : answer s t = some reply := hends.replies hreply
    rw [filterMap_middle] at hsent hreplies
    simp only [waiting?, hans, Option.isNone_some, Bool.false_eq_true, if_false,
      Option.toList_none, List.nil_append] at hsent
    simp only [answering?, hans, Option.map_some, Option.toList_some, List.singleton_append]
      at hreplies
    refine ⟨none, _, .answered, .nil, rfl, rfl, ?_, ?_⟩
    · rw [List.filterMap_append]
      exact hsent
    · rw [List.filterMap_append, List.append_assoc]
      exact hreplies.trans (List.perm_middle.append_left replies)
  | otherAnswered hreply =>
    obtain ⟨sent', replies', rfl, hsent, hreplies⟩ := h.exists_eq
    rw [filterMap_middle] at hsent hreplies
    refine ⟨none, _, .answered, .nil, rfl, rfl, ?_, ?_⟩
    · rw [List.filterMap_append]
      exact hsent
    · rw [List.filterMap_append]
      exact hreplies
  | @arrived s p sent ts pre post f reply =>
    obtain ⟨sent', replies', rfl, hsent, hreplies⟩ := h.exists_eq
    have hmem : (f, reply) ∈ replies' := hreplies.mem_iff.mpr (by simp)
    obtain ⟨pre', post', rfl⟩ := List.append_of_mem hmem
    refine ⟨_, _, .arrived, Run.nil.snoc .arrived, rfl, rfl, ?_, ?_⟩
    · rw [List.append_assoc]
      exact perm_append_middle hsent _
    · rw [List.append_assoc] at hreplies ⊢
      exact perm_of_middle hreplies
  | @requestLost s p pre post ts replies f =>
    obtain ⟨sent', replies', rfl, hsent, hreplies⟩ := h.exists_eq
    have hmem : f ∈ sent' := hsent.mem_iff.mpr (by simp)
    obtain ⟨pre', post', rfl⟩ := List.append_of_mem hmem
    refine ⟨_, _, .requestLost, Run.nil.snoc .requestLost, rfl, rfl, ?_, hreplies⟩
    rw [List.append_assoc] at hsent ⊢
    exact perm_of_middle hsent
  | @replyLost s p sent ts pre post f reply =>
    obtain ⟨sent', replies', rfl, hsent, hreplies⟩ := h.exists_eq
    have hmem : (f, reply) ∈ replies' := hreplies.mem_iff.mpr (by simp)
    obtain ⟨pre', post', rfl⟩ := List.append_of_mem hmem
    refine ⟨_, _, .replyLost, Run.nil.snoc .replyLost, rfl, rfl, hsent, ?_⟩
    rw [List.append_assoc] at hreplies ⊢
    exact perm_of_middle hreplies

/-! ### Whole sessions -/

/-- **From threads to one request at a time.**  A session with threads whose steps meet `Q`
is, event by event, one in which the server serves one request at a time. -/
theorem exists_session (ha : Atomic next serve I L answer Q) (hends : Ends start reply? answer)
    (hstart : ∀ s r, I s → L s r (start r)) (hI : I s) {ms : List (Moment τ ι φ ω)}
    (h : Run (StepMeets C next start reply? Q) (idle s p fs) ms c) :
    ∃ os se, List.Forall₂ Shows ms os ∧
      Run (Messages.Step C serve) (opening s p fs) os.reduceOption se ∧ Shadows answer c se := by
  have key : Working C I L c ∧ ∃ os se, List.Forall₂ Shows ms os ∧
      Run (Messages.Step C serve) (opening s p fs) os.reduceOption se ∧ Shadows answer c se := by
    refine h.invariant (I := fun ms c => Working C I L c ∧ ∃ os se, List.Forall₂ Shows ms os ∧
      Run (Messages.Step C serve) (opening s p fs) os.reduceOption se ∧
        Shadows answer c se) ?_ ?_
    · refine ⟨⟨hI, by simp [idle]⟩, [], _, .nil, .nil, rfl, rfl, ?_, ?_⟩
      · simp [idle, opening]
      · simp [idle, opening]
    · rintro ms c m c' _ ⟨hw, os, se, hshows, hrun, hc⟩ ⟨hstep, hmeets⟩
      obtain ⟨o, se', ho, hone, hc'⟩ := hc.step ha hends hw hstep hmeets
      refine ⟨hw.step (kept_of_atomic ha) hstart hstep, os ++ [o], se',
        List.rel_append hshows (.cons ho .nil), ?_, hc'⟩
      rw [List.reduceOption_append, List.reduceOption_singleton]
      exact hrun.append hone
  exact key.2

end session

/-! ### From one request at a time to threads -/

section threaded
variable {C : Client π φ ι ω} {next : σ → τ → Option (σ × τ)}
  {serve : σ → ι → Except ξ (σ × ω)} {Q : σ → τ → Prop} {start : ι → τ} {reply? : τ → Option ω}
  {s s' : σ} {p : π} {fs : List φ}

/-- A step of a thread that meets `Q` and that no other thread comes between. -/
def Lone (next : σ → τ → Option (σ × τ)) (Q : σ → τ → Prop) (x : σ × τ) (t : τ) (x' : σ × τ) :
    Prop :=
  x.2 = t ∧ Q x.1 t ∧ next x.1 t = some x'

/-- A thread that runs alone does what serving its request does. -/
def Alone (next : σ → τ → Option (σ × τ)) (serve : σ → ι → Except ξ (σ × ω)) (start : ι → τ)
    (reply? : τ → Option ω) (Q : σ → τ → Prop) : Prop :=
  ∀ s r s' reply, serve s r = .ok (s', reply) → ∃ ts t,
    Run (Lone next Q) (s, start r) ts (s', t) ∧ reply? t = some reply

/-- What a thread alone in a pool keeps by its own steps it can rely on. -/
theorem lone_of_run {J : σ → τ → Prop} {t₀ : τ} (h0 : J s t₀)
    (hstep : ∀ s t s' t', J s t → next s t = some (s', t') → J s' t')
    (hQ : ∀ s t, J s t → Q s t) {es : List (ℕ × τ)} {d : Pool.Config σ τ}
    (h : Run (Pool.Step next) ⟨s, [t₀]⟩ es d) :
    ∃ t, d.threads = [t] ∧ J d.shared t ∧
      Run (Lone next Q) (s, t₀) (es.map Prod.snd) (d.shared, t) := by
  refine h.invariant (I := fun es d => ∃ t, d.threads = [t] ∧ J d.shared t ∧
    Run (Lone next Q) (s, t₀) (es.map Prod.snd) (d.shared, t)) ⟨t₀, rfl, h0, .nil⟩ ?_
  rintro es d ⟨i, u⟩ d' _ ⟨t, hthreads, hJ, hrun⟩ ⟨hi, s', t', hnext, rfl⟩
  rw [hthreads, List.getElem?_singleton] at hi
  split at hi
  · rename_i hzero
    obtain rfl : i = 0 := hzero
    obtain rfl : t = u := Option.some_inj.mp hi
    refine ⟨t', ?_, hstep _ _ _ _ hJ hnext, ?_⟩
    · show d.threads.set 0 t' = [t']
      rw [hthreads, List.set_cons_zero]
    · rw [List.map_append, List.map_singleton]
      exact hrun.snoc ⟨rfl, hQ _ _ hJ, hnext⟩
  · simp at hi

theorem run_moved {who : φ ⊕ ι} {sent : List φ} {replies : List (φ × ω)} {t₀ t : τ} {ts : List τ}
    (h : Run (Lone next Q) (s, t₀) ts (s', t)) :
    Run (StepMeets C next start reply? Q) ⟨s, p, sent, [(who, t₀)], replies⟩
      (ts.map (.moved who)) ⟨s', p, sent, [(who, t)], replies⟩ := by
  refine h.invariant (I := fun ts x => Run (StepMeets C next start reply? Q)
    ⟨s, p, sent, [(who, t₀)], replies⟩ (ts.map (.moved who))
    ⟨x.1, p, sent, [(who, x.2)], replies⟩) .nil ?_
  rintro ts ⟨s₁, t₁⟩ t ⟨s₂, t₂⟩ _ ih ⟨rfl, hQ, hnext⟩
  have hmoved : Step C next start reply? ⟨s₁, p, sent, [] ++ (who, t₁) :: [], replies⟩
      (.moved who t₁) ⟨s₂, p, sent, [] ++ (who, t₂) :: [], replies⟩ := .moved hnext
  rw [List.map_append, List.map_singleton]
  exact ih.snoc ⟨hmoved, hQ⟩

/-- The last step of a thread that ran alone is the one at which it was served. -/
theorem exists_shows {who : φ ⊕ ι} {e : Happening φ ι ω} {ts : List τ} (hts : ts ≠ [])
    (he : ∀ t, Shows (.moved who t : Moment τ ι φ ω) (some e)) :
    ∃ os, List.Forall₂ Shows (ts.map (.moved who) : List (Moment τ ι φ ω)) os ∧
      os.reduceOption = [e] := by
  have hhidden : ∀ ts : List τ, List.Forall₂ Shows (ts.map (.moved who) : List (Moment τ ι φ ω))
      (List.replicate ts.length none) := by
    intro ts
    induction ts with
    | nil => exact .nil
    | cons t ts ih => exact .cons .moved ih
  refine ⟨List.replicate ts.dropLast.length none ++ [some e], ?_, ?_⟩
  · rw [← List.dropLast_append_getLast hts, List.map_append, List.dropLast_concat]
    exact List.rel_append (hhidden _) (.cons (he _) .nil)
  · rw [List.reduceOption_append, List.reduceOption_replicate_none]
    rfl

/-- No request is being served. -/
def atRest (se : Session σ π φ ω) : Busy σ τ ι π φ ω :=
  ⟨se.server, se.client, se.sent, [], se.replies⟩

/-- **One event** can happen with threads, of which none is left afterwards. -/
theorem exists_moments (halone : Alone next serve start reply? Q)
    (hbegins : ∀ r, reply? (start r) = none) {se se' : Session σ π φ ω} {e : Happening φ ι ω}
    (hstep : Messages.Step C serve se e se') :
    ∃ ms os, Run (StepMeets C next start reply? Q) (atRest se) ms (atRest se') ∧
      List.Forall₂ Shows ms os ∧ os.reduceOption = [e] := by
  -- a thread that has replied has made a step
  have hne : ∀ {s s' : σ} {r : ι} {ts : List τ} {t : τ} {reply : ω},
      Run (Lone next Q) (s, start r) ts (s', t) → reply? t = some reply → ts ≠ [] := by
    rintro s s' r ts t reply hrun hreply rfl
    obtain ⟨_, rfl⟩ := Prod.mk.inj (run_nil_iff.mp hrun)
    rw [hbegins] at hreply
    simp at hreply
  cases hstep with
  | clicked hoffers =>
    exact ⟨_, _, Run.nil.snoc ⟨.clicked hoffers, trivial⟩, .cons .clicked .nil, rfl⟩
  | @served s s' p pre post replies f reply hserve =>
    obtain ⟨ts, t, hrun, hreply⟩ := halone _ _ _ _ hserve
    obtain ⟨os, hshows, hos⟩ := exists_shows (e := .served f reply) (hne hrun hreply)
      fun t => .served
    have haccepted : Run (StepMeets C next start reply? Q)
        ⟨s, p, pre ++ f :: post, [], replies⟩ [.accepted (.inl f)]
        ⟨s, p, pre ++ post, [(.inl f, start (C.request f))], replies⟩ :=
      Run.nil.snoc ⟨.accepted, trivial⟩
    have hanswered : Step C next start reply?
        ⟨s', p, pre ++ post, [] ++ (.inl f, t) :: [], replies⟩ (.answered (.inl f) reply)
        ⟨s', p, pre ++ post, [] ++ [], replies ++ [(f, reply)]⟩ := .answered hreply
    refine ⟨_, [none] ++ os ++ [none],
      (haccepted.append (run_moved hrun)).snoc ⟨hanswered, trivial⟩, ?_, ?_⟩
    · exact List.rel_append (List.rel_append (.cons .accepted .nil) hshows) (.cons .answered .nil)
    · simp [List.reduceOption_append, hos]
  | @other s s' p sent replies r reply hserve =>
    obtain ⟨ts, t, hrun, hreply⟩ := halone _ _ _ _ hserve
    obtain ⟨os, hshows, hos⟩ := exists_shows (e := .other r reply) (hne hrun hreply)
      fun t => .other
    have haccepted : Run (StepMeets C next start reply? Q)
        ⟨s, p, sent, [], replies⟩ [.accepted (.inr r)]
        ⟨s, p, sent, [(.inr r, start r)], replies⟩ :=
      Run.nil.snoc ⟨.otherAccepted, trivial⟩
    have hanswered : Step C next start reply?
        ⟨s', p, sent, [] ++ (.inr r, t) :: [], replies⟩ (.answered (.inr r) reply)
        ⟨s', p, sent, [] ++ [], replies⟩ := .otherAnswered hreply
    refine ⟨_, [none] ++ os ++ [none],
      (haccepted.append (run_moved hrun)).snoc ⟨hanswered, trivial⟩, ?_, ?_⟩
    · exact List.rel_append (List.rel_append (.cons .accepted .nil) hshows) (.cons .answered .nil)
    · simp [List.reduceOption_append, hos]
  | arrived => exact ⟨_, _, Run.nil.snoc ⟨.arrived, trivial⟩, .cons .arrived .nil, rfl⟩
  | requestLost =>
    exact ⟨_, _, Run.nil.snoc ⟨.requestLost, trivial⟩, .cons .requestLost .nil, rfl⟩
  | replyLost => exact ⟨_, _, Run.nil.snoc ⟨.replyLost, trivial⟩, .cons .replyLost .nil, rfl⟩

/-- **From one request at a time to threads.** -/
theorem exists_threaded (halone : Alone next serve start reply? Q)
    (hbegins : ∀ r, reply? (start r) = none) {es : List (Happening φ ι ω)}
    {se : Session σ π φ ω} (h : Run (Messages.Step C serve) (opening s p fs) es se) :
    ∃ ms os, Run (StepMeets C next start reply? Q) (idle s p fs) ms (atRest se) ∧
      List.Forall₂ Shows ms os ∧ os.reduceOption = es := by
  refine h.invariant (I := fun es se => ∃ ms os,
    Run (StepMeets C next start reply? Q) (idle s p fs) ms (atRest se) ∧
      List.Forall₂ Shows ms os ∧ os.reduceOption = es) ⟨[], [], .nil, .nil, rfl⟩ ?_
  rintro es se e se' _ ⟨ms, os, hrun, hshows, rfl⟩ hstep
  obtain ⟨ms', os', hrun', hshows', hos'⟩ := exists_moments halone hbegins hstep
  refine ⟨ms ++ ms', os ++ os', hrun.append hrun', List.rel_append hshows hshows', ?_⟩
  rw [List.reduceOption_append, hos']

end threaded

/-! ### Side by side -/

section sum
variable {σ₁ σ₂ τ₁ τ₂ ι₁ ι₂ ω₁ ω₂ : Type} {next₁ : σ₁ → τ₁ → Option (σ₁ × τ₁)}
  {next₂ : σ₂ → τ₂ → Option (σ₂ × τ₂)} {serve₁ : σ₁ → ι₁ → Except ξ (σ₁ × ω₁)}
  {serve₂ : σ₂ → ι₂ → Except ξ (σ₂ × ω₂)} {start₁ : ι₁ → τ₁} {start₂ : ι₂ → τ₂}
  {reply₁ : τ₁ → Option ω₁} {reply₂ : τ₂ → Option ω₂} {Q₁ : σ₁ → τ₁ → Prop}
  {Q₂ : σ₂ → τ₂ → Prop}

theorem lone_inl {s : σ₁ × σ₂} {t₀ : τ₁} {ts : List τ₁} {x : σ₁ × τ₁}
    (h : Run (Lone next₁ Q₁) (s.1, t₀) ts x) :
    Run (Lone (nextSum next₁ next₂) fun s t => Sum.elim (Q₁ s.1) (Q₂ s.2) t) (s, .inl t₀)
      (ts.map .inl) ((x.1, s.2), .inl x.2) := by
  refine h.invariant (I := fun ts x =>
    Run (Lone (nextSum next₁ next₂) fun s t => Sum.elim (Q₁ s.1) (Q₂ s.2) t) (s, .inl t₀)
      (ts.map .inl) ((x.1, s.2), .inl x.2)) .nil ?_
  rintro ts ⟨s₁, t₁⟩ t ⟨s', t'⟩ _ ih ⟨rfl, hQ, hnext⟩
  rw [List.map_append, List.map_singleton]
  refine ih.snoc ⟨rfl, hQ, ?_⟩
  rw [nextSum, hnext, Option.map_some]

theorem lone_inr {s : σ₁ × σ₂} {t₀ : τ₂} {ts : List τ₂} {x : σ₂ × τ₂}
    (h : Run (Lone next₂ Q₂) (s.2, t₀) ts x) :
    Run (Lone (nextSum next₁ next₂) fun s t => Sum.elim (Q₁ s.1) (Q₂ s.2) t) (s, .inr t₀)
      (ts.map .inr) ((s.1, x.1), .inr x.2) := by
  refine h.invariant (I := fun ts x =>
    Run (Lone (nextSum next₁ next₂) fun s t => Sum.elim (Q₁ s.1) (Q₂ s.2) t) (s, .inr t₀)
      (ts.map .inr) ((s.1, x.1), .inr x.2)) .nil ?_
  rintro ts ⟨s₁, t₁⟩ t ⟨s', t'⟩ _ ih ⟨rfl, hQ, hnext⟩
  rw [List.map_append, List.map_singleton]
  refine ih.snoc ⟨rfl, hQ, ?_⟩
  rw [nextSum, hnext, Option.map_some]

theorem Alone.sum (h₁ : Alone next₁ serve₁ start₁ reply₁ Q₁)
    (h₂ : Alone next₂ serve₂ start₂ reply₂ Q₂) :
    Alone (nextSum next₁ next₂) (serveSum serve₁ serve₂) (Sum.map start₁ start₂)
      (replySum reply₁ reply₂) fun s t => Sum.elim (Q₁ s.1) (Q₂ s.2) t := by
  intro s r s' reply hserve
  have hserved : Served (serveSum serve₁ serve₂) s (r, reply) s' := hserve
  rcases served_serveSum hserved with
    ⟨r', reply', heq, hone, hsame⟩ | ⟨r', reply', heq, hone, hsame⟩
  · obtain ⟨rfl, rfl⟩ := Prod.mk.inj heq
    obtain ⟨ts, t, hrun, hreply⟩ := h₁ _ _ _ _ hone
    refine ⟨ts.map .inl, .inl t, ?_, by rw [replySum, hreply, Option.map_some]⟩
    rw [show s' = (s'.1, s.2) from Prod.ext rfl hsame]
    exact lone_inl hrun
  · obtain ⟨rfl, rfl⟩ := Prod.mk.inj heq
    obtain ⟨ts, t, hrun, hreply⟩ := h₂ _ _ _ _ hone
    refine ⟨ts.map .inr, .inr t, ?_, by rw [replySum, hreply, Option.map_some]⟩
    rw [show s' = (s.1, s'.2) from Prod.ext hsame rfl]
    exact lone_inr hrun

end sum

/-! ### Playing a session with threads -/

section play
variable {C : Client π φ ι ω} [∀ p f, Decidable (C.offers p f)]
  {next : σ → τ → Option (σ × τ)} {start : ι → τ} {reply? : τ → Option ω} {Q : σ → τ → Prop}
  [∀ s t, Decidable (Q s t)]

/-- A click, the first request under way or another client's comes to the server, the
thread of a number moves or its reply is sent, the first reply arrives. -/
inductive Turn (φ ι : Type)
  | click (f : φ)
  | accept
  | acceptOther (r : ι)
  | move (i : ℕ)
  | answer (i : ℕ)
  | arrive

def play (C : Client π φ ι ω) [∀ p f, Decidable (C.offers p f)] (next : σ → τ → Option (σ × τ))
    (start : ι → τ) (reply? : τ → Option ω) (Q : σ → τ → Prop) [∀ s t, Decidable (Q s t)] :
    Busy σ τ ι π φ ω → Turn φ ι → Option (Moment τ ι φ ω × Busy σ τ ι π φ ω)
  | ⟨s, p, sent, ts, replies⟩, .click f =>
    if C.offers p f then some (.clicked f, ⟨s, p, sent ++ [f], ts, replies⟩) else none
  | ⟨s, p, f :: sent, ts, replies⟩, .accept =>
    some (.accepted (.inl f), ⟨s, p, sent, ts ++ [(.inl f, start (C.request f))], replies⟩)
  | ⟨s, p, sent, ts, replies⟩, .acceptOther r =>
    some (.accepted (.inr r), ⟨s, p, sent, ts ++ [(.inr r, start r)], replies⟩)
  | ⟨s, p, sent, ts, replies⟩, .move i =>
    match ts.drop i with
    | [] => none
    | (who, t) :: post =>
      match next s t with
      | none => none
      | some (s', t') =>
        if Q s t then some (.moved who t, ⟨s', p, sent, ts.take i ++ (who, t') :: post, replies⟩)
        else none
  | ⟨s, p, sent, ts, replies⟩, .answer i =>
    match ts.drop i with
    | [] => none
    | (who, t) :: post =>
      match reply? t, who with
      | none, _ => none
      | some reply, .inl f =>
        some (.answered (.inl f) reply, ⟨s, p, sent, ts.take i ++ post, replies ++ [(f, reply)]⟩)
      | some reply, .inr r =>
        some (.answered (.inr r) reply, ⟨s, p, sent, ts.take i ++ post, replies⟩)
  | ⟨s, p, sent, ts, (f, reply) :: replies⟩, .arrive =>
    some (.arrived f reply,
      ⟨s, (C.onReply p reply).1, sent ++ (C.onReply p reply).2, ts, replies⟩)
  | _, _ => none

theorem stepMeets_of_play {c c' : Busy σ τ ι π φ ω} {turn : Turn φ ι} {m : Moment τ ι φ ω}
    (h : play C next start reply? Q c turn = some (m, c')) :
    StepMeets C next start reply? Q c m c' := by
  obtain ⟨s, p, sent, ts, replies⟩ := c
  -- the threads, where one of them has been picked
  have hpick : ∀ {i : ℕ} {who : φ ⊕ ι} {t : τ} {post : List ((φ ⊕ ι) × τ)},
      ts.drop i = (who, t) :: post → ts = ts.take i ++ (who, t) :: post := by
    intro i who t post hdrop
    rw [← hdrop, List.take_append_drop]
  cases turn with
  | click f =>
    rw [play] at h
    split at h
    · rename_i hoffers
      obtain ⟨rfl, rfl⟩ := Prod.mk.inj (Option.some.inj h)
      exact ⟨.clicked hoffers, trivial⟩
    · simp at h
  | accept =>
    cases sent with
    | nil => simp [play] at h
    | cons f sent =>
      obtain ⟨rfl, rfl⟩ := Prod.mk.inj (Option.some.inj h)
      have haccepted : Step C next start reply? ⟨s, p, [] ++ f :: sent, ts, replies⟩
          (.accepted (.inl f)) ⟨s, p, [] ++ sent, ts ++ [(.inl f, start (C.request f))], replies⟩ :=
        .accepted
      exact ⟨haccepted, trivial⟩
  | acceptOther r =>
    rw [play] at h
    obtain ⟨rfl, rfl⟩ := Prod.mk.inj (Option.some.inj h)
    exact ⟨.otherAccepted, trivial⟩
  | move i =>
    simp only [play] at h
    split at h
    · simp at h
    · rename_i who t post hdrop
      rw [hpick hdrop]
      split at h
      · simp at h
      · rename_i s' t' hnext
        split at h
        · rename_i hQ
          obtain ⟨rfl, rfl⟩ := Prod.mk.inj (Option.some.inj h)
          exact ⟨.moved hnext, hQ⟩
        · simp at h
  | answer i =>
    simp only [play] at h
    split at h
    · simp at h
    · rename_i who t post hdrop
      rw [hpick hdrop]
      split at h
      · simp at h
      · rename_i reply f hreply
        obtain ⟨rfl, rfl⟩ := Prod.mk.inj (Option.some.inj h)
        exact ⟨.answered hreply, trivial⟩
      · rename_i reply r hreply
        obtain ⟨rfl, rfl⟩ := Prod.mk.inj (Option.some.inj h)
        exact ⟨.otherAnswered hreply, trivial⟩
  | arrive =>
    cases replies with
    | nil => simp [play] at h
    | cons a replies =>
      obtain ⟨rfl, rfl⟩ := Prod.mk.inj (Option.some.inj h)
      have harrived : Step C next start reply? ⟨s, p, sent, ts, [] ++ (a.1, a.2) :: replies⟩
          (.arrived a.1 a.2)
          ⟨s, (C.onReply p a.2).1, sent ++ (C.onReply p a.2).2, ts, [] ++ replies⟩ := .arrived
      exact ⟨harrived, trivial⟩

/-- Play the turns, then test what came out; false if one cannot be made. -/
def playThen (C : Client π φ ι ω) [∀ p f, Decidable (C.offers p f)]
    (next : σ → τ → Option (σ × τ)) (start : ι → τ) (reply? : τ → Option ω) (Q : σ → τ → Prop)
    [∀ s t, Decidable (Q s t)] (q : List (Moment τ ι φ ω) → Busy σ τ ι π φ ω → Bool) :
    List (Moment τ ι φ ω) → Busy σ τ ι π φ ω → List (Turn φ ι) → Bool
  | ms, c, [] => q ms c
  | ms, c, turn :: turns =>
    match play C next start reply? Q c turn with
    | none => false
    | some (m, c') => playThen C next start reply? Q q (ms ++ [m]) c' turns

theorem run_of_playThen {c₀ : Busy σ τ ι π φ ω}
    {q : List (Moment τ ι φ ω) → Busy σ τ ι π φ ω → Bool} {turns : List (Turn φ ι)} :
    ∀ {ms : List (Moment τ ι φ ω)} {c : Busy σ τ ι π φ ω},
      Run (StepMeets C next start reply? Q) c₀ ms c →
      playThen C next start reply? Q q ms c turns = true →
      ∃ ms' c', Run (StepMeets C next start reply? Q) c₀ ms' c' ∧ q ms' c' = true := by
  induction turns with
  | nil => exact fun h hq => ⟨_, _, h, hq⟩
  | cons turn turns ih =>
    intro ms c h hq
    rw [playThen] at hq
    split at hq
    · simp at hq
    · rename_i m c' hplay
      exact ih (h.snoc (stepMeets_of_play hplay)) hq

end play

end Threaded
