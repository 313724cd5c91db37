/-
Linearization points.

Each thread of a pool serves one request.  It is atomic in effect when one of its
steps, its commit, does to the shared state what serving the request alone at that
moment does, while its steps before and after leave the shared state as it is.

* `Atomic` — what is asked of the steps; `Q` is what a commit may rely on;
* `Serializes` — a serial history with the same replies and the same shared state;
* `Linearizes` — one that also keeps the order of requests that did not overlap;
* `Atomic.linearizable` — a run whose commits meet `Q` has one;
* `Atomic.prod` — two pools over separate states, side by side, are atomic when each
  is.
-/
import SmartParking.Library.Pool

open Runs Pool

namespace Linearization

variable {σ τ ι ω ξ : Type}

/-- The requests have arrived and none has been looked at. -/
def arrived (start : ι → τ) (s : σ) (rs : List ι) : Config σ τ := ⟨s, rs.map start⟩

/-- Threads that take effect at one step.  `I` is an invariant of the shared state,
`L s r t` what is known of a thread `t` that serves `r`, and `answer s t` the reply
that the thread is committed to, if it is. -/
structure Atomic (next : σ → τ → Option (σ × τ)) (serve : σ → ι → Except ξ (σ × ω))
    (I : σ → Prop) (L : σ → ι → τ → Prop) (answer : σ → τ → Option ω) (Q : σ → τ → Prop) :
    Prop where
  own : ∀ {s : σ} {r : ι} {t : τ} {s' : σ} {t' : τ}, I s → L s r t →
    next s t = some (s', t') → I s' ∧ L s' r t'
  other : ∀ {s : σ} {r : ι} {t : τ} {s' : σ} {t' : τ} {r' : ι} {u : τ}, I s → L s r t →
    next s t = some (s', t') → L s r' u → L s' r' u ∧ answer s' u = answer s u
  before : ∀ {s : σ} {r : ι} {t : τ} {s' : σ} {t' : τ}, I s → L s r t →
    next s t = some (s', t') → answer s' t' = none → s' = s
  commit : ∀ {s : σ} {r : ι} {t : τ} {s' : σ} {t' : τ} {reply : ω}, I s → L s r t →
    next s t = some (s', t') → Q s t → answer s t = none → answer s' t' = some reply →
    serve s r = .ok (s', reply)
  after : ∀ {s : σ} {r : ι} {t : τ} {s' : σ} {t' : τ} {reply : ω}, I s → L s r t →
    next s t = some (s', t') → answer s t = some reply → s' = s ∧ answer s' t' = some reply

/-- How a thread begins and when it has replied. -/
structure Ends (start : ι → τ) (reply? : τ → Option ω) (answer : σ → τ → Option ω) : Prop where
  begins : ∀ s r, answer s (start r) = none
  replies : ∀ {s t reply}, reply? t = some reply → answer s t = some reply

/-- Thread `i` has replied. -/
def Replied (reply? : τ → Option ω) (c : Config σ τ) (i : ℕ) : Prop :=
  ∃ t reply, c.threads[i]? = some t ∧ reply? t = some reply

/-- Thread `i` has not made a step. -/
def Unbegun (start : ι → τ) (rs : List ι) (c : Config σ τ) (i : ℕ) : Prop :=
  ∃ r, rs[i]? = some r ∧ c.threads[i]? = some (start r)

/-- The requests of `hist`, each with the number of its thread and its reply, served
one at a time. -/
structure Serializes (serve : σ → ι → Except ξ (σ × ω)) (reply? : τ → Option ω) (s₀ : σ)
    (rs : List ι) (c : Config σ τ) (hist : List (ℕ × ι × ω)) : Prop where
  serial : Run (Served serve) s₀ (hist.map Prod.snd) c.shared
  once : (hist.map Prod.fst).Nodup
  requests : ∀ e ∈ hist, rs[e.1]? = some e.2.1
  replies : ∀ (i : ℕ) (t : τ) (reply : ω), c.threads[i]? = some t → reply? t = some reply →
    ∃ r, (i, r, reply) ∈ hist

/-- In the order of the run, where one request had been answered before the other was
looked at. -/
structure Linearizes (next : σ → τ → Option (σ × τ)) (serve : σ → ι → Except ξ (σ × ω))
    (start : ι → τ) (reply? : τ → Option ω) (s₀ : σ) (rs : List ι) (es : List (ℕ × τ))
    (c : Config σ τ) (hist : List (ℕ × ι × ω)) : Prop
    extends Serializes serve reply? s₀ rs c hist where
  order : ∀ (pre : List (ℕ × τ)) (c' : Config σ τ) (i j : ℕ), pre <+: es →
    Run (Step next) (arrived start s₀ rs) pre c' → Replied reply? c' j →
    Unbegun start rs c' i → i ∈ hist.map Prod.fst → [j, i].Sublist (hist.map Prod.fst)

section linearizable
variable {next : σ → τ → Option (σ × τ)} {serve : σ → ι → Except ξ (σ × ω)} {I : σ → Prop}
  {L : σ → ι → τ → Prop} {answer : σ → τ → Option ω} {Q : σ → τ → Prop} {start : ι → τ}
  {reply? : τ → Option ω} {s₀ : σ} {rs : List ι} {es : List (ℕ × τ)} {c c' : Config σ τ}
  {hist : List (ℕ × ι × ω)}

/-- Thread `i` serves request `i`. -/
def Serving (I : σ → Prop) (L : σ → ι → τ → Prop) (rs : List ι) (c : Config σ τ) : Prop :=
  I c.shared ∧ ∀ (i : ℕ) (t : τ), c.threads[i]? = some t → ∃ r, rs[i]? = some r ∧ L c.shared r t

theorem serving_arrived (hI : I s₀) (hL : ∀ r ∈ rs, L s₀ r (start r)) :
    Serving I L rs (arrived start s₀ rs) := by
  refine ⟨hI, fun i t hi => ?_⟩
  rw [arrived, List.getElem?_map, Option.map_eq_some_iff] at hi
  obtain ⟨r, hr, rfl⟩ := hi
  exact ⟨r, hr, hL r (List.mem_of_getElem? hr)⟩

theorem Atomic.serving_step (ha : Atomic next serve I L answer Q) (hs : Serving I L rs c)
    {e : ℕ × τ} (hstep : Step next c e c') : Serving I L rs c' := by
  obtain ⟨i, t⟩ := e
  obtain ⟨hi, s', t', hnext, rfl⟩ := hstep
  obtain ⟨r, hr, hL⟩ := hs.2 i t hi
  obtain ⟨hI', hL'⟩ := ha.own hs.1 hL hnext
  refine ⟨hI', fun j u hj => ?_⟩
  rw [getElem?_set_step hi] at hj
  by_cases hji : j = i
  · rw [if_pos hji, Option.some_inj] at hj
    subst hji hj
    exact ⟨r, hr, hL'⟩
  · rw [if_neg hji] at hj
    obtain ⟨r', hr', hLu⟩ := hs.2 j u hj
    exact ⟨r', hr', (ha.other hs.1 hL hnext hLu).1⟩

theorem Atomic.serving_of_run (ha : Atomic next serve I L answer Q) (hI : I s₀)
    (hL : ∀ r ∈ rs, L s₀ r (start r)) (h : Run (Step next) (arrived start s₀ rs) es c) :
    Serving I L rs c :=
  h.invariant (I := fun _ c => Serving I L rs c) (serving_arrived hI hL)
    fun _ _ _ _ _ hs hstep => ha.serving_step hs hstep

/-- The threads in `hist` are those committed, with the replies they are committed to. -/
def Answered (answer : σ → τ → Option ω) (rs : List ι) (c : Config σ τ)
    (hist : List (ℕ × ι × ω)) : Prop :=
  ∀ (i : ℕ) (r : ι) (t : τ), rs[i]? = some r → c.threads[i]? = some t →
    ∀ reply, answer c.shared t = some reply ↔ (i, r, reply) ∈ hist

/-- A thread that a step commits was in no history before. -/
theorem not_mem_of_unanswered (hreq : ∀ e ∈ hist, rs[e.1]? = some e.2.1)
    (hans : Answered answer rs c hist) {i : ℕ} {r : ι} {t : τ} (hr : rs[i]? = some r)
    (hi : c.threads[i]? = some t) (hnone : answer c.shared t = none) :
    i ∉ hist.map Prod.fst := by
  intro hmem
  obtain ⟨⟨j, r', reply⟩, he, rfl⟩ := List.mem_map.mp hmem
  have hr' := hreq _ he
  rw [hr, Option.some_inj] at hr'
  subst hr'
  have hsome := (hans _ _ t hr hi reply).mpr he
  rw [hnone] at hsome
  simp at hsome

/-- A step changes what its own thread is committed to and nothing else. -/
theorem Answered.set (hans : Answered answer rs c hist) {i : ℕ} {r : ι} {t t' : τ} {s' : σ}
    (hr : rs[i]? = some r) (hi : c.threads[i]? = some t)
    (hothers : ∀ (j : ℕ) (u : τ), c.threads[j]? = some u → answer s' u = answer c.shared u)
    {hist' : List (ℕ × ι × ω)}
    (hown : ∀ reply, answer s' t' = some reply ↔ (i, r, reply) ∈ hist')
    (hrest : ∀ (j : ℕ) (r' : ι) (reply : ω), j ≠ i →
      ((j, r', reply) ∈ hist' ↔ (j, r', reply) ∈ hist)) :
    Answered answer rs ⟨s', c.threads.set i t'⟩ hist' := by
  intro j r' u hr' hj reply
  rw [getElem?_set_step hi] at hj
  by_cases hji : j = i
  · rw [if_pos hji, Option.some_inj] at hj
    subst hji hj
    obtain rfl : r = r' := Option.some_inj.mp (hr.symm.trans hr')
    exact hown reply
  · rw [if_neg hji] at hj
    rw [hrest j r' reply hji, hothers j u hj]
    exact hans j r' u hr' hj reply

/-- **One step** adds to the history the thread that it commits, or nothing. -/
theorem Atomic.answered_step (ha : Atomic next serve I L answer Q) (hs : Serving I L rs c)
    (hreq : ∀ e ∈ hist, rs[e.1]? = some e.2.1) (hans : Answered answer rs c hist) {e : ℕ × τ}
    (hstep : Step next c e c') (hQ : Q c.shared e.2) :
    (c'.shared = c.shared ∧ Answered answer rs c' hist) ∨
      ∃ r reply, rs[e.1]? = some r ∧ answer c.shared e.2 = none ∧
        Served serve c.shared (r, reply) c'.shared ∧
        Answered answer rs c' (hist ++ [(e.1, r, reply)]) := by
  obtain ⟨i, t⟩ := e
  obtain ⟨hi, s', t', hnext, rfl⟩ := hstep
  obtain ⟨r, hr, hL⟩ := hs.2 i t hi
  have hothers : ∀ (j : ℕ) (u : τ), c.threads[j]? = some u →
      answer s' u = answer c.shared u := by
    intro j u hj
    obtain ⟨_, _, hLu⟩ := hs.2 j u hj
    exact (ha.other hs.1 hL hnext hLu).2
  have hkeep : answer s' t' = answer c.shared t →
      Answered answer rs ⟨s', c.threads.set i t'⟩ hist := by
    intro heq
    refine hans.set hr hi hothers (fun reply => ?_) fun _ _ _ _ => Iff.rfl
    rw [heq]
    exact hans i r t hr hi reply
  cases hold : answer c.shared t with
  | some reply =>
    obtain ⟨hsame, hans'⟩ := ha.after hs.1 hL hnext hold
    exact .inl ⟨hsame, hkeep (hans'.trans hold.symm)⟩
  | none =>
    cases hnew : answer s' t' with
    | none => exact .inl ⟨ha.before hs.1 hL hnext hnew, hkeep (hnew.trans hold.symm)⟩
    | some reply =>
      -- the thread takes effect
      refine .inr ⟨r, reply, hr, rfl, ha.commit hs.1 hL hnext hQ hold hnew, ?_⟩
      have hfresh := not_mem_of_unanswered hreq hans hr hi hold
      refine hans.set hr hi hothers (fun reply' => ?_) fun j r' reply' hji => ?_
      · rw [List.mem_append, List.mem_singleton, hnew]
        constructor
        · intro heq
          rw [Option.some_inj.mp heq]
          exact .inr rfl
        · rintro (hmem | heq)
          · exact absurd (List.mem_map_of_mem hmem) hfresh
          · obtain ⟨_, _, rfl⟩ := heq
            rfl
      · rw [List.mem_append, List.mem_singleton, or_iff_left]
        exact fun heq => hji (Prod.mk.inj heq).1

/-- A thread is committed for good. -/
theorem Atomic.answer_of_run (ha : Atomic next serve I L answer Q) (hs : Serving I L rs c)
    (h : Run (Step next) c es c') {j : ℕ} {t : τ} {reply : ω} (hj : c.threads[j]? = some t)
    (hans : answer c.shared t = some reply) :
    ∃ t', c'.threads[j]? = some t' ∧ answer c'.shared t' = some reply := by
  have key : Serving I L rs c' ∧ ∃ t', c'.threads[j]? = some t' ∧
      answer c'.shared t' = some reply := by
    refine h.invariant (I := fun _ c' => Serving I L rs c' ∧ ∃ t', c'.threads[j]? = some t' ∧
      answer c'.shared t' = some reply) ⟨hs, t, hj, hans⟩ ?_
    rintro _ d ⟨i, u⟩ d' _ ⟨hd, t', ht', hans'⟩ hstep
    refine ⟨ha.serving_step hd hstep, ?_⟩
    obtain ⟨hi, s', u', hnext, rfl⟩ := hstep
    obtain ⟨_, _, hLu⟩ := hd.2 i u hi
    rw [getElem?_set_step hi]
    by_cases hji : j = i
    · obtain rfl : u = t' := Option.some_inj.mp (hi.symm.trans (hji ▸ ht'))
      rw [if_pos hji]
      exact ⟨u', rfl, (ha.after hd.1 hLu hnext hans').2⟩
    · obtain ⟨_, _, hLt⟩ := hd.2 j t' ht'
      rw [if_neg hji]
      exact ⟨t', ht', (ha.other hd.1 hLu hnext hLt).2.trans hans'⟩
  exact key.2

/-- A thread that has replied at some point of a run is in the history. -/
theorem Atomic.mem_of_replied (ha : Atomic next serve I L answer Q)
    (hends : Ends start reply? answer) (hI : I s₀) (hL : ∀ r ∈ rs, L s₀ r (start r))
    (h : Run (Step next) (arrived start s₀ rs) es c) (hans : Answered answer rs c hist)
    {pre : List (ℕ × τ)} {d : Config σ τ} (hpre : pre <+: es)
    (hd : Run (Step next) (arrived start s₀ rs) pre d) {j : ℕ} (hj : Replied reply? d j) :
    j ∈ hist.map Prod.fst := by
  obtain ⟨mid, rfl⟩ := hpre
  obtain ⟨d', hd', hmid⟩ := h.exists_append
  obtain rfl := Run.unique step_deterministic hd hd'
  obtain ⟨t, reply, ht, hreply⟩ := hj
  obtain ⟨t', ht', hans'⟩ :=
    ha.answer_of_run (ha.serving_of_run hI hL hd) hmid ht (hends.replies hreply)
  obtain ⟨r, hr, _⟩ := (ha.serving_of_run hI hL h).2 j t' ht'
  exact List.mem_map_of_mem ((hans j r t' hr ht' reply).mp hans')

/-- A history of the committed threads, of which the order is known up to the last step,
is a serial history of the run. -/
theorem Atomic.linearizes_snoc (ha : Atomic next serve I L answer Q) (hI : I s₀)
    (hL : ∀ r ∈ rs, L s₀ r (start r)) (hends : Ends start reply? answer) {e : ℕ × τ}
    (h : Run (Step next) (arrived start s₀ rs) (es ++ [e]) c)
    (hans : Answered answer rs c hist) (hreq : ∀ x ∈ hist, rs[x.1]? = some x.2.1)
    (honce : (hist.map Prod.fst).Nodup)
    (hserial : Run (Served serve) s₀ (hist.map Prod.snd) c.shared)
    (horder : ∀ (pre : List (ℕ × τ)) (d : Config σ τ) (i j : ℕ), pre <+: es →
      Run (Step next) (arrived start s₀ rs) pre d → Replied reply? d j →
      Unbegun start rs d i → i ∈ hist.map Prod.fst → [j, i].Sublist (hist.map Prod.fst)) :
    Linearizes next serve start reply? s₀ rs (es ++ [e]) c hist where
  serial := hserial
  once := honce
  requests := hreq
  replies i t reply hi hreply := by
    obtain ⟨r, hr, _⟩ := (ha.serving_of_run hI hL h).2 i t hi
    exact ⟨r, (hans i r t hr hi reply).mp (hends.replies hreply)⟩
  order pre d i j hpre hd hj hi hmem := by
    rcases List.prefix_concat_iff.mp hpre with rfl | hpre
    · -- at the end of the run a thread that has not begun is not in the history
      obtain rfl := Run.unique step_deterministic hd h
      obtain ⟨r, hr, hit⟩ := hi
      exact absurd hmem (not_mem_of_unanswered hreq hans hr hit (hends.begins _ r))
    · exact horder pre d i j hpre hd hj hi hmem

/-- **Linearizability.**  A run whose commits meet `Q` has a serial history. -/
theorem Atomic.linearizable (ha : Atomic next serve I L answer Q) (hI : I s₀)
    (hL : ∀ r ∈ rs, L s₀ r (start r)) (hends : Ends start reply? answer)
    (h : Run (Step next) (arrived start s₀ rs) es c)
    (hQ : Steps (Step next) (arrived start s₀ rs) es fun _ c e => Q c.shared e.2) :
    ∃ hist, Linearizes next serve start reply? s₀ rs es c hist ∧ Answered answer rs c hist := by
  induction h with
  | nil =>
    refine ⟨[], ⟨⟨.nil, List.nodup_nil, by simp, ?_⟩, by simp⟩, ?_⟩
    · intro i t reply hi hreply
      obtain ⟨r, _, rfl⟩ := List.mem_map.mp (List.mem_of_getElem? hi)
      have hnone := hends.begins s₀ r
      rw [hends.replies hreply] at hnone
      simp at hnone
    · intro i r t hr hi reply
      rw [arrived, List.getElem?_map, hr, Option.map_some, Option.some_inj] at hi
      subst hi
      simp [arrived, hends.begins]
  | @snoc es c c' e hrun hstep ih =>
    obtain ⟨hist, hlin, hans⟩ := ih (hQ.of_prefix (List.prefix_append es [e]))
    have hs := ha.serving_of_run hI hL hrun
    rcases ha.answered_step hs hlin.requests hans hstep (hQ es e c List.prefix_rfl hrun) with
      ⟨hsame, hans'⟩ | ⟨r, reply, hr, hnone, hserved, hans'⟩
    · refine ⟨hist, ha.linearizes_snoc hI hL hends (hrun.snoc hstep) hans' hlin.requests hlin.once
        ?_ hlin.order, hans'⟩
      rw [hsame]
      exact hlin.serial
    · have hfresh := not_mem_of_unanswered hlin.requests hans hr hstep.1 hnone
      refine ⟨hist ++ [(e.1, r, reply)], ha.linearizes_snoc hI hL hends (hrun.snoc hstep) hans'
        (fun x hx => ?_) ?_ ?_ fun pre d i j hpre hd hj hi hmem => ?_, hans'⟩
      · rcases List.mem_append.mp hx with hx | hx
        · exact hlin.requests x hx
        · rw [List.mem_singleton.mp hx]
          exact hr
      · rw [List.map_append, List.map_singleton]
        exact List.nodup_append_comm.mp (List.nodup_cons.mpr ⟨hfresh, hlin.once⟩)
      · rw [List.map_append, List.map_singleton]
        exact hlin.serial.snoc hserved
      · rw [List.map_append, List.map_singleton] at hmem ⊢
        rcases List.mem_append.mp hmem with hmem | hmem
        · exact (hlin.order pre d i j hpre hd hj hi hmem).trans (List.sublist_append_left _ _)
        · -- what had replied before the thread that commits now began is in the history
          have hje : j ∈ hist.map Prod.fst :=
            ha.mem_of_replied hends hI hL hrun hans hpre hd hj
          rw [List.mem_singleton.mp hmem]
          exact (List.singleton_sublist.mpr hje).append (List.Sublist.refl [e.1])

end linearizable

/-! ### Side by side -/

section prod
variable {σ₁ σ₂ τ₁ τ₂ ι₁ ι₂ ω₁ ω₂ : Type}

/-- Each thread moves on its own part of the state. -/
def nextSum (next₁ : σ₁ → τ₁ → Option (σ₁ × τ₁)) (next₂ : σ₂ → τ₂ → Option (σ₂ × τ₂))
    (s : σ₁ × σ₂) : τ₁ ⊕ τ₂ → Option ((σ₁ × σ₂) × (τ₁ ⊕ τ₂))
  | .inl t => (next₁ s.1 t).map fun p => ((p.1, s.2), .inl p.2)
  | .inr t => (next₂ s.2 t).map fun p => ((s.1, p.1), .inr p.2)

def serveSum (serve₁ : σ₁ → ι₁ → Except ξ (σ₁ × ω₁)) (serve₂ : σ₂ → ι₂ → Except ξ (σ₂ × ω₂))
    (s : σ₁ × σ₂) : ι₁ ⊕ ι₂ → Except ξ ((σ₁ × σ₂) × (ω₁ ⊕ ω₂))
  | .inl r => (serve₁ s.1 r).map fun p => ((p.1, s.2), .inl p.2)
  | .inr r => (serve₂ s.2 r).map fun p => ((s.1, p.1), .inr p.2)

section served
variable {serve₁ : σ₁ → ι₁ → Except ξ (σ₁ × ω₁)} {serve₂ : σ₂ → ι₂ → Except ξ (σ₂ × ω₂)}
  {s s' : σ₁ × σ₂}

/-- A request is served on its own part of the state and leaves the other. -/
theorem served_serveSum {e : (ι₁ ⊕ ι₂) × (ω₁ ⊕ ω₂)}
    (h : Served (serveSum serve₁ serve₂) s e s') :
    (∃ r reply, e = (.inl r, .inl reply) ∧ Served serve₁ s.1 (r, reply) s'.1 ∧ s'.2 = s.2) ∨
      ∃ r reply, e = (.inr r, .inr reply) ∧ Served serve₂ s.2 (r, reply) s'.2 ∧ s'.1 = s.1 := by
  obtain ⟨r, reply⟩ := e
  rw [Served] at h
  cases r with
  | inl r =>
    cases hserve : serve₁ s.1 r with
    | error x => simp [serveSum, hserve, Except.map] at h
    | ok p =>
      simp only [serveSum, hserve, Except.map, Except.ok.injEq, Prod.mk.injEq] at h
      obtain ⟨rfl, rfl⟩ := h
      exact .inl ⟨r, p.2, rfl, hserve, rfl⟩
  | inr r =>
    cases hserve : serve₂ s.2 r with
    | error x => simp [serveSum, hserve, Except.map] at h
    | ok p =>
      simp only [serveSum, hserve, Except.map, Except.ok.injEq, Prod.mk.injEq] at h
      obtain ⟨rfl, rfl⟩ := h
      exact .inr ⟨r, p.2, rfl, hserve, rfl⟩

/-- A request of the first kind with its reply. -/
def left? : (ι₁ ⊕ ι₂) × (ω₁ ⊕ ω₂) → Option (ι₁ × ω₁)
  | (.inl r, .inl reply) => some (r, reply)
  | _ => none

/-- A request of the second kind with its reply. -/
def right? : (ι₁ ⊕ ι₂) × (ω₁ ⊕ ω₂) → Option (ι₂ × ω₂)
  | (.inr r, .inr reply) => some (r, reply)
  | _ => none

/-- A run is a run on each part. -/
theorem run_sum {es : List ((ι₁ ⊕ ι₂) × (ω₁ ⊕ ω₂))}
    (h : Run (Served (serveSum serve₁ serve₂)) s es s') :
    Run (Served serve₁) s.1 (es.filterMap left?) s'.1 ∧
      Run (Served serve₂) s.2 (es.filterMap right?) s'.2 := by
  refine h.invariant (I := fun es s' => Run (Served serve₁) s.1 (es.filterMap left?) s'.1 ∧
    Run (Served serve₂) s.2 (es.filterMap right?) s'.2) ⟨.nil, .nil⟩ ?_
  intro es s₁ e s₂ _ ih hstep
  rw [List.filterMap_append, List.filterMap_append]
  rcases served_serveSum hstep with
    ⟨r, reply, rfl, hserved, hsame⟩ | ⟨r, reply, rfl, hserved, hsame⟩
  · refine ⟨ih.1.snoc hserved, ?_⟩
    show Run _ _ (es.filterMap right? ++ []) _
    rw [List.append_nil, hsame]
    exact ih.2
  · refine ⟨?_, ih.2.snoc hserved⟩
    show Run _ _ (es.filterMap left? ++ []) _
    rw [List.append_nil, hsame]
    exact ih.1

end served

def knownSum (L₁ : σ₁ → ι₁ → τ₁ → Prop) (L₂ : σ₂ → ι₂ → τ₂ → Prop) (s : σ₁ × σ₂) :
    ι₁ ⊕ ι₂ → τ₁ ⊕ τ₂ → Prop
  | .inl r, .inl t => L₁ s.1 r t
  | .inr r, .inr t => L₂ s.2 r t
  | _, _ => False

def answerSum (answer₁ : σ₁ → τ₁ → Option ω₁) (answer₂ : σ₂ → τ₂ → Option ω₂) (s : σ₁ × σ₂) :
    τ₁ ⊕ τ₂ → Option (ω₁ ⊕ ω₂)
  | .inl t => (answer₁ s.1 t).map .inl
  | .inr t => (answer₂ s.2 t).map .inr

def replySum (reply₁ : τ₁ → Option ω₁) (reply₂ : τ₂ → Option ω₂) : τ₁ ⊕ τ₂ → Option (ω₁ ⊕ ω₂)
  | .inl t => (reply₁ t).map .inl
  | .inr t => (reply₂ t).map .inr

variable {next₁ : σ₁ → τ₁ → Option (σ₁ × τ₁)} {next₂ : σ₂ → τ₂ → Option (σ₂ × τ₂)}
  {serve₁ : σ₁ → ι₁ → Except ξ (σ₁ × ω₁)} {serve₂ : σ₂ → ι₂ → Except ξ (σ₂ × ω₂)}
  {I₁ : σ₁ → Prop} {I₂ : σ₂ → Prop} {L₁ : σ₁ → ι₁ → τ₁ → Prop} {L₂ : σ₂ → ι₂ → τ₂ → Prop}
  {answer₁ : σ₁ → τ₁ → Option ω₁} {answer₂ : σ₂ → τ₂ → Option ω₂} {Q₁ : σ₁ → τ₁ → Prop}
  {Q₂ : σ₂ → τ₂ → Prop} {start₁ : ι₁ → τ₁} {start₂ : ι₂ → τ₂} {reply₁ : τ₁ → Option ω₁}
  {reply₂ : τ₂ → Option ω₂}

section next
variable {s s' : σ₁ × σ₂} {t' : τ₁ ⊕ τ₂}

theorem nextSum_inl {t : τ₁} (h : nextSum next₁ next₂ s (.inl t) = some (s', t')) :
    ∃ u, t' = .inl u ∧ next₁ s.1 t = some (s'.1, u) ∧ s'.2 = s.2 := by
  obtain ⟨⟨s₁, u⟩, hnext, heq⟩ := Option.map_eq_some_iff.mp h
  obtain ⟨rfl, rfl⟩ := Prod.mk.inj heq
  exact ⟨u, rfl, hnext, rfl⟩

theorem nextSum_inr {t : τ₂} (h : nextSum next₁ next₂ s (.inr t) = some (s', t')) :
    ∃ u, t' = .inr u ∧ next₂ s.2 t = some (s'.2, u) ∧ s'.1 = s.1 := by
  obtain ⟨⟨s₂, u⟩, hnext, heq⟩ := Option.map_eq_some_iff.mp h
  obtain ⟨rfl, rfl⟩ := Prod.mk.inj heq
  exact ⟨u, rfl, hnext, rfl⟩

end next

/-- Two pools over separate states, side by side. -/
theorem Atomic.prod (h₁ : Atomic next₁ serve₁ I₁ L₁ answer₁ Q₁)
    (h₂ : Atomic next₂ serve₂ I₂ L₂ answer₂ Q₂) :
    Atomic (nextSum next₁ next₂) (serveSum serve₁ serve₂) (fun s => I₁ s.1 ∧ I₂ s.2)
      (knownSum L₁ L₂) (answerSum answer₁ answer₂)
      (fun s t => Sum.elim (Q₁ s.1) (Q₂ s.2) t) where
  own := by
    rintro s r t s' t' ⟨hI₁, hI₂⟩ hL hnext
    rcases t with t | t <;> rcases r with r | r <;> try exact hL.elim
    · obtain ⟨u, rfl, hnext, hsame⟩ := nextSum_inl hnext
      obtain ⟨hI, hL'⟩ := h₁.own hI₁ hL hnext
      exact ⟨⟨hI, hsame ▸ hI₂⟩, hL'⟩
    · obtain ⟨u, rfl, hnext, hsame⟩ := nextSum_inr hnext
      obtain ⟨hI, hL'⟩ := h₂.own hI₂ hL hnext
      exact ⟨⟨hsame ▸ hI₁, hI⟩, hL'⟩
  other := by
    rintro s r t s' t' r' u ⟨hI₁, hI₂⟩ hL hnext hu
    -- a thread of the other pool sees no change
    rcases t with t | t <;> rcases r with r | r <;> (try exact hL.elim) <;>
      rcases u with u | u <;> rcases r' with r' | r' <;> try exact hu.elim
    · obtain ⟨_, _, hnext, _⟩ := nextSum_inl hnext
      obtain ⟨hL', hans⟩ := h₁.other hI₁ hL hnext hu
      exact ⟨hL', congrArg (Option.map Sum.inl) hans⟩
    · obtain ⟨_, _, _, hsame⟩ := nextSum_inl hnext
      rw [knownSum, answerSum, answerSum, hsame]
      exact ⟨hu, rfl⟩
    · obtain ⟨_, _, _, hsame⟩ := nextSum_inr hnext
      rw [knownSum, answerSum, answerSum, hsame]
      exact ⟨hu, rfl⟩
    · obtain ⟨_, _, hnext, _⟩ := nextSum_inr hnext
      obtain ⟨hL', hans⟩ := h₂.other hI₂ hL hnext hu
      exact ⟨hL', congrArg (Option.map Sum.inr) hans⟩
  before := by
    rintro s r t s' t' ⟨hI₁, hI₂⟩ hL hnext hnone
    rcases t with t | t <;> rcases r with r | r <;> try exact hL.elim
    · obtain ⟨u, rfl, hnext, hsame⟩ := nextSum_inl hnext
      exact Prod.ext (h₁.before hI₁ hL hnext (Option.map_eq_none_iff.mp hnone)) hsame
    · obtain ⟨u, rfl, hnext, hsame⟩ := nextSum_inr hnext
      exact Prod.ext hsame (h₂.before hI₂ hL hnext (Option.map_eq_none_iff.mp hnone))
  commit := by
    rintro s r t s' t' reply ⟨hI₁, hI₂⟩ hL hnext hQ hnone hsome
    rcases t with t | t <;> rcases r with r | r <;> try exact hL.elim
    · obtain ⟨u, rfl, hnext, hsame⟩ := nextSum_inl hnext
      obtain ⟨reply', hreply, rfl⟩ := Option.map_eq_some_iff.mp hsome
      have hserve := h₁.commit hI₁ hL hnext hQ (Option.map_eq_none_iff.mp hnone) hreply
      rw [serveSum, hserve, ← hsame]
      rfl
    · obtain ⟨u, rfl, hnext, hsame⟩ := nextSum_inr hnext
      obtain ⟨reply', hreply, rfl⟩ := Option.map_eq_some_iff.mp hsome
      have hserve := h₂.commit hI₂ hL hnext hQ (Option.map_eq_none_iff.mp hnone) hreply
      rw [serveSum, hserve, ← hsame]
      rfl
  after := by
    rintro s r t s' t' reply ⟨hI₁, hI₂⟩ hL hnext hsome
    rcases t with t | t <;> rcases r with r | r <;> try exact hL.elim
    · obtain ⟨u, rfl, hnext, hsame⟩ := nextSum_inl hnext
      obtain ⟨reply', hreply, rfl⟩ := Option.map_eq_some_iff.mp hsome
      obtain ⟨hstill, hans⟩ := h₁.after hI₁ hL hnext hreply
      exact ⟨Prod.ext hstill hsame, by rw [answerSum, hans, Option.map_some]⟩
    · obtain ⟨u, rfl, hnext, hsame⟩ := nextSum_inr hnext
      obtain ⟨reply', hreply, rfl⟩ := Option.map_eq_some_iff.mp hsome
      obtain ⟨hstill, hans⟩ := h₂.after hI₂ hL hnext hreply
      exact ⟨Prod.ext hsame hstill, by rw [answerSum, hans, Option.map_some]⟩

theorem Ends.sum (h₁ : Ends start₁ reply₁ answer₁) (h₂ : Ends start₂ reply₂ answer₂) :
    Ends (Sum.map start₁ start₂) (replySum reply₁ reply₂) (answerSum answer₁ answer₂) where
  begins s r := by
    cases r with
    | inl r => rw [Sum.map_inl, answerSum, h₁.begins, Option.map_none]
    | inr r => rw [Sum.map_inr, answerSum, h₂.begins, Option.map_none]
  replies {s t reply} h := by
    cases t with
    | inl t =>
      obtain ⟨reply', hreply, rfl⟩ := Option.map_eq_some_iff.mp h
      rw [answerSum, h₁.replies hreply, Option.map_some]
    | inr t =>
      obtain ⟨reply', hreply, rfl⟩ := Option.map_eq_some_iff.mp h
      rw [answerSum, h₂.replies hreply, Option.map_some]

end prod

end Linearization
