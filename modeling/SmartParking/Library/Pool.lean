/-
Threads over a shared state, interleaved in any order.

A thread is a value that says where it stands; `next s t` is its next atomic
step from the shared state `s`, `none` when it has ended or cannot go on.  A
step of the pool is labelled with the index of the thread that moves and the
thread as it was, so the labels of a run tell which calls were made, by whom
and in which order.

* `pool_invariant` — an invariant of the shared state together with one of
  each thread that the steps of the others respect;
* `label_unique` — where every step of a thread raises its rank, a thread makes
  the step of a given rank at most once in a run;
* `countP_threads_le` — threads that have each made some step are no more than
  the steps made;
* `countP_labels_le`, `exists_ended` — it makes no more steps than there are ranks, and
  where every thread can go on until it has ended, all do end;
* `run_of_schedule` — running a given schedule; `scheduleThen` decides a test of
  where it leads, `scheduleAlong` one of each step.
-/
import SmartParking.Library.Runs

open Runs

namespace Pool

variable {σ τ : Type}

structure Config (σ τ : Type) where
  shared : σ
  threads : List τ

/-- Thread number `e.1`, which stands at `e.2`, makes its next step. -/
def Step (next : σ → τ → Option (σ × τ)) (c : Config σ τ) (e : ℕ × τ) (c' : Config σ τ) : Prop :=
  c.threads[e.1]? = some e.2 ∧
    ∃ s' t', next c.shared e.2 = some (s', t') ∧ c' = ⟨s', c.threads.set e.1 t'⟩

variable {next : σ → τ → Option (σ × τ)} {c₀ c c' : Config σ τ}

theorem step_deterministic : Deterministic (Step next) := by
  rintro c e c₁ c₂ ⟨_, s₁, t₁, h₁, rfl⟩ ⟨_, s₂, t₂, h₂, rfl⟩
  rw [h₁, Option.some_inj, Prod.mk.injEq] at h₂
  obtain ⟨rfl, rfl⟩ := h₂
  rfl

theorem getElem?_set_step {ts : List τ} {i : ℕ} {t : τ} (h : ts[i]? = some t) (t' : τ) (j : ℕ) :
    (ts.set i t')[j]? = if j = i then some t' else ts[j]? := by
  have hlt : i < ts.length := (List.getElem?_eq_some_iff.mp h).1
  by_cases hj : j = i
  · subst hj
    rw [List.getElem?_set_self hlt, if_pos rfl]
  · rw [List.getElem?_set_ne (fun hc => hj hc.symm), if_neg hj]

/-- **Invariants of a pool.**  A step keeps the invariant of the shared state and
of its own thread, and respects that of every other thread. -/
theorem pool_invariant {I : σ → Prop} {L : σ → τ → Prop}
    (own : ∀ s t s' t', I s → L s t → next s t = some (s', t') → I s' ∧ L s' t')
    (other : ∀ s t s' t' u, I s → L s t → next s t = some (s', t') → L s u → L s' u)
    (h0 : I c₀.shared) (hL : ∀ t ∈ c₀.threads, L c₀.shared t) {es : List (ℕ × τ)}
    (h : Run (Step next) c₀ es c) : I c.shared ∧ ∀ t ∈ c.threads, L c.shared t := by
  refine h.invariant (I := fun _ c => I c.shared ∧ ∀ t ∈ c.threads, L c.shared t) ⟨h0, hL⟩ ?_
  rintro es c ⟨i, t⟩ _ _ ⟨hI, hLc⟩ ⟨hi, s', t', hnext, rfl⟩
  have ht : L c.shared t := hLc t (List.mem_of_getElem? hi)
  obtain ⟨hI', ht'⟩ := own _ _ _ _ hI ht hnext
  refine ⟨hI', fun u hu => ?_⟩
  -- the other threads are as they were, seen from the new shared state
  rcases List.mem_or_eq_of_mem_set hu with hu | rfl
  · exact other _ _ _ _ _ hI ht hnext (hLc u hu)
  · exact ht'

/-! ### Threads that only move on -/

/-- A thread is still there after a run, and no further back than it was. -/
theorem rank_le_of_run {rank : τ → ℕ}
    (hrank : ∀ s t s' t', next s t = some (s', t') → rank t < rank t') {es : List (ℕ × τ)}
    (h : Run (Step next) c₀ es c) {i : ℕ} {t : τ} (ht : c₀.threads[i]? = some t) :
    ∃ t', c.threads[i]? = some t' ∧ rank t ≤ rank t' := by
  induction h with
  | nil => exact ⟨t, ht, le_rfl⟩
  | @snoc es c c' e _ hs ih =>
    obtain ⟨u, hu, hle⟩ := ih
    obtain ⟨hi, s', u', hnext, rfl⟩ := hs
    rw [getElem?_set_step hi]
    by_cases hie : i = e.1
    · rw [hie, hi, Option.some_inj] at hu
      subst hu
      exact ⟨u', by rw [if_pos hie], hle.trans (hrank _ _ _ _ hnext).le⟩
    · exact ⟨u, by rw [if_neg hie, hu], hle⟩

/-- A thread makes the step of a given rank once at most. -/
theorem label_unique {rank : τ → ℕ}
    (hrank : ∀ s t s' t', next s t = some (s', t') → rank t < rank t') {es : List (ℕ × τ)}
    (h : Run (Step next) c₀ es c) {i : ℕ} {t t' : τ} {pre pre' : List (ℕ × τ)}
    (hp : pre ++ [(i, t)] <+: es) (hp' : pre' ++ [(i, t')] <+: es) (heq : rank t = rank t') :
    pre = pre' ∧ t = t' := by
  -- of two different steps the thread is further on at the later one
  have hlater : ∀ {pre pre' : List (ℕ × τ)} {t t' : τ}, pre ++ [(i, t)] <+: pre' →
      pre' ++ [(i, t')] <+: es → rank t < rank t' := by
    rintro pre pre' t t' ⟨mid, rfl⟩ hp'
    obtain ⟨d', hd'⟩ := h.restrict hp'
    obtain ⟨d, hd, hstep⟩ := run_snoc_iff.mp hd'
    obtain ⟨a, ha, hmid⟩ := hd.exists_append
    obtain ⟨b, _, hi, s', u, hnext, rfl⟩ := run_snoc_iff.mp ha
    -- from the step at `pre` on the rank of thread `i` is above `rank t`
    obtain ⟨u', hu', hle⟩ := rank_le_of_run hrank hmid
      (show (b.threads.set i u)[i]? = some u by rw [getElem?_set_step hi, if_pos rfl])
    have hu : d.threads[i]? = some t' := hstep.1
    rw [hu, Option.some_inj] at hu'
    subst hu'
    exact (hrank _ _ _ _ hnext).trans_le hle
  have hcases : ∀ {pre pre' : List (ℕ × τ)} {t t' : τ}, pre ++ [(i, t)] <+: pre' ++ [(i, t')] →
      pre' ++ [(i, t')] <+: es → rank t = rank t' → pre = pre' ∧ t = t' := by
    intro pre pre' t t' hpre hp' heq
    rcases List.prefix_concat_iff.mp hpre with hsame | hlt
    · obtain ⟨h1, h2⟩ := List.append_inj' hsame rfl
      exact ⟨h1, by simpa using h2⟩
    · exact absurd heq (hlater hlt hp').ne
  rcases List.prefix_or_prefix_of_prefix hp hp' with hpre | hpre
  · exact hcases hpre hp' heq
  · obtain ⟨h1, h2⟩ := hcases hpre hp heq.symm
    exact ⟨h1.symm, h2.symm⟩

/-- So the steps of one rank are made by different threads. -/
theorem nodup_labels {rank : τ → ℕ}
    (hrank : ∀ s t s' t', next s t = some (s', t') → rank t < rank t') {es : List (ℕ × τ)}
    (h : Run (Step next) c₀ es c) (k : ℕ) :
    ((es.filter fun e => rank e.2 = k).map Prod.fst).Nodup := by
  induction h with
  | nil => exact List.nodup_nil
  | @snoc es c c' e hrun hstep ih =>
    rw [List.filter_append, List.map_append]
    by_cases hk : rank e.2 = k
    · have hnew : e.1 ∉ (es.filter fun e => rank e.2 = k).map Prod.fst := by
        intro hmem
        obtain ⟨⟨i, t⟩, ht, hi⟩ := List.mem_map.mp hmem
        obtain ⟨ht, hkt⟩ := List.mem_filter.mp ht
        obtain ⟨pre, post, rfl⟩ := List.append_of_mem ht
        have hpre : pre ++ [(e.1, t)] <+: (pre ++ (i, t) :: post) ++ [e] :=
          ⟨post ++ [e], by simp [← show i = e.1 from hi]⟩
        obtain ⟨heq, _⟩ := label_unique hrank (hrun.snoc hstep) hpre List.prefix_rfl
          ((of_decide_eq_true hkt).trans hk.symm)
        simpa using congrArg List.length heq
      rw [List.filter_singleton, decide_eq_true hk, cond_true, List.map_singleton]
      exact List.nodup_append_comm.mp (List.nodup_cons.mpr ⟨hnew, ih⟩)
    · rw [List.filter_singleton, decide_eq_false hk, cond_false, List.map_nil, List.append_nil]
      exact ih

/-- A thread makes no more steps than it has ranks to go through. -/
theorem countP_labels_le {rank : τ → ℕ} {bound : ℕ}
    (hrank : ∀ s t s' t', next s t = some (s', t') → rank t < rank t')
    (hbound : ∀ t, rank t ≤ bound) {es : List (ℕ × τ)} (h : Run (Step next) c₀ es c) (i : ℕ) :
    es.countP (fun e => e.1 = i) ≤ bound ∧
      ∀ t, c.threads[i]? = some t → es.countP (fun e => e.1 = i) ≤ rank t := by
  refine h.invariant (I := fun es c => es.countP (fun e => e.1 = i) ≤ bound ∧
    ∀ t, c.threads[i]? = some t → es.countP (fun e => e.1 = i) ≤ rank t) (by simp) ?_
  rintro es c e c' _ ⟨hle, hthread⟩ ⟨he, s', t', hnext, rfl⟩
  rw [List.countP_append, List.countP_singleton]
  by_cases hei : e.1 = i
  · have hcount := hthread e.2 (hei ▸ he)
    have hlt := hrank _ _ _ _ hnext
    rw [if_pos (by simpa using hei)]
    refine ⟨by have := hbound t'; omega, fun t ht => ?_⟩
    rw [getElem?_set_step he, if_pos hei.symm, Option.some_inj] at ht
    subst ht
    omega
  · rw [if_neg (by simpa using hei), add_zero]
    refine ⟨hle, fun t ht => ?_⟩
    rw [getElem?_set_step he, if_neg fun hc => hei hc.symm] at ht
    exact hthread t ht

/-- Where each thread that has not ended can make a step, the threads can all be run to
their ends. -/
theorem exists_ended {rank : τ → ℕ} {bound : ℕ} (ended : τ → Bool) {P : Config σ τ → Prop}
    (hrank : ∀ s t s' t', next s t = some (s', t') → rank t < rank t')
    (hbound : ∀ t, rank t ≤ bound)
    (hP : ∀ c e c', P c → Step next c e c' → P c')
    (hgo : ∀ c i t, P c → c.threads[i]? = some t → ended t = false →
      ∃ c', Step next c (i, t) c') (hc : P c) :
    ∃ es c', Run (Step next) c es c' ∧ ∀ t ∈ c'.threads, ended t = true := by
  induction hm : (c.threads.map fun t => bound - rank t).sum using Nat.strong_induction_on
    generalizing c with
  | _ m ih =>
    by_cases hall : ∀ t ∈ c.threads, ended t = true
    · exact ⟨[], c, .nil, hall⟩
    · push Not at hall
      obtain ⟨t, ht, hend⟩ := hall
      obtain ⟨i, hi⟩ := List.getElem?_of_mem ht
      obtain ⟨c', hstep⟩ := hgo c i t hc hi (Bool.not_eq_true _ ▸ hend)
      obtain ⟨_, s', t', hnext, rfl⟩ := id hstep
      -- the thread that moves has one rank less to go
      have hless : ((c.threads.set i t').map fun t => bound - rank t).sum < m := by
        have hlt : i < c.threads.length := (List.getElem?_eq_some_iff.mp hi).1
        obtain rfl : c.threads[i] = t := (List.getElem?_eq_some_iff.mp hi).2
        have hset := List.set_eq_take_append_cons_drop (l := c.threads) (a := t') (i := i)
        rw [if_pos hlt] at hset
        have hsplit : c.threads = c.threads.take i ++ c.threads[i] :: c.threads.drop (i + 1) := by
          rw [List.getElem_cons_drop, List.take_append_drop]
        have hrise : rank c.threads[i] < rank t' := hrank _ _ _ _ hnext
        have htop := hbound t'
        rw [← hm, hset]
        conv_rhs => rw [hsplit]
        simp only [List.map_append, List.map_cons, List.sum_append, List.sum_cons]
        omega
      obtain ⟨es, d, hrun, hd⟩ := ih _ hless (hP _ _ _ hc hstep) rfl
      exact ⟨_, d, (Run.nil.snoc hstep).append hrun, hd⟩

/-- If every thread counted has made a step counted, there are at least as many
steps as threads. -/
theorem countP_threads_le {γ : Type} {ts : List τ} {f : τ → Option γ} {p : γ → Bool}
    {es : List (ℕ × τ)} {q : ℕ × τ → Bool}
    (h : ∀ i g, ts[i]?.bind f = some g → p g = true → ∃ e ∈ es, e.1 = i ∧ q e = true) :
    (ts.filterMap f).countP p ≤ es.countP q := by
  -- the indices of the threads counted are among those of the steps counted
  set counted := (ts.zipIdx.filter fun x => ((f x.1).map p).getD false).map Prod.snd with hcounted
  have hlength : counted.length = (ts.filterMap f).countP p := by
    rw [List.countP_filterMap, hcounted, List.length_map, ← List.countP_eq_length_filter]
    conv_rhs => rw [← List.zipIdx_map_fst 0 ts, List.countP_map]
    rfl
  have hnodup : counted.Nodup :=
    (List.nodup_zipIdx_map_snd ts).sublist (List.filter_sublist.map Prod.snd)
  have hsub : counted ⊆ (es.filter q).map Prod.fst := by
    intro i hi
    obtain ⟨⟨t, j⟩, hx, rfl⟩ := List.mem_map.mp hi
    obtain ⟨hmem, hp⟩ := List.mem_filter.mp hx
    rw [List.mk_mem_zipIdx_iff_getElem?] at hmem
    cases hf : f t with
    | none => simp [hf] at hp
    | some g =>
      obtain ⟨e, he, hej, hq⟩ := h j g (by rw [hmem, Option.bind_some, hf]) (by simpa [hf] using hp)
      exact List.mem_map.mpr ⟨e, List.mem_filter.mpr ⟨he, hq⟩, hej⟩
  have hle := (hnodup.subperm hsub).length_le
  rwa [hlength, List.length_map, ← List.countP_eq_length_filter] at hle

/-! ### Schedules -/

/-- Let the threads of the given numbers move, one step each. -/
def schedule (next : σ → τ → Option (σ × τ)) :
    Config σ τ → List ℕ → Option (List (ℕ × τ) × Config σ τ)
  | c, [] => some ([], c)
  | c, i :: is => do
    let t ← c.threads[i]?
    let (s', t') ← next c.shared t
    let (es, c') ← schedule next ⟨s', c.threads.set i t'⟩ is
    some ((i, t) :: es, c')

theorem run_of_schedule {is : List ℕ} : ∀ {c c' : Config σ τ} {es : List (ℕ × τ)},
    schedule next c is = some (es, c') → Run (Step next) c es c' := by
  induction is with
  | nil =>
    intro c c' es h
    simp only [schedule, Option.some.injEq, Prod.mk.injEq] at h
    obtain ⟨rfl, rfl⟩ := h
    exact .nil
  | cons i is ih =>
    intro c c' es h
    simp only [schedule, Option.bind_eq_bind, Option.bind_eq_some_iff, Option.some.injEq,
      Prod.mk.injEq, Prod.exists] at h
    obtain ⟨t, hi, s', t', hnext, es', d, hrest, rfl, rfl⟩ := h
    have hone : Run (Step next) c ([] ++ [(i, t)]) ⟨s', c.threads.set i t'⟩ :=
      .snoc .nil ⟨hi, s', t', hnext, rfl⟩
    exact hone.append (ih hrest)

/-- Run a schedule, then test what came out; false if a thread cannot move. -/
def scheduleThen (next : σ → τ → Option (σ × τ)) (c : Config σ τ) (is : List ℕ)
    (p : List (ℕ × τ) → Config σ τ → Bool) : Bool :=
  match schedule next c is with
  | none => false
  | some (es, c') => p es c'

theorem run_of_scheduleThen (next : σ → τ → Option (σ × τ)) (c : Config σ τ) (is : List ℕ)
    (p : List (ℕ × τ) → Config σ τ → Bool) (h : scheduleThen next c is p = true) :
    ∃ es c', Run (Step next) c es c' ∧ p es c' = true := by
  rw [scheduleThen] at h
  split at h
  · exact absurd h (by simp)
  · rename_i es c' hs
    exact ⟨es, c', run_of_schedule hs, h⟩

/-- Test every step of a schedule; false if a thread cannot move. -/
def scheduleAlong (next : σ → τ → Option (σ × τ)) (q : Config σ τ → ℕ × τ → Bool) :
    Config σ τ → List ℕ → Bool
  | _, [] => true
  | c, i :: is =>
    match c.threads[i]? with
    | none => false
    | some t =>
      match next c.shared t with
      | none => false
      | some (s', t') => q c (i, t) && scheduleAlong next q ⟨s', c.threads.set i t'⟩ is

theorem steps_of_scheduleAlong {q : Config σ τ → ℕ × τ → Bool} {is : List ℕ} :
    ∀ {c c' : Config σ τ} {es : List (ℕ × τ)}, schedule next c is = some (es, c') →
      scheduleAlong next q c is = true → Steps (Step next) c es fun _ d e => q d e = true := by
  induction is with
  | nil =>
    intro c c' es h _ pre e s hpre _
    simp only [schedule, Option.some.injEq, Prod.mk.injEq] at h
    rw [← h.1, List.prefix_nil] at hpre
    simp at hpre
  | cons i is ih =>
    intro c c' es h htest
    simp only [schedule, Option.bind_eq_bind, Option.bind_eq_some_iff, Option.some.injEq,
      Prod.mk.injEq, Prod.exists] at h
    obtain ⟨t, hi, s', t', hnext, es', d, hrest, rfl, rfl⟩ := h
    simp only [scheduleAlong, hi, hnext, Bool.and_eq_true] at htest
    rintro pre e s hpre hs
    cases pre with
    | nil =>
      obtain ⟨rest, hrest'⟩ := hpre
      obtain rfl : e = (i, t) := (List.cons.inj hrest').1
      rw [run_nil_iff.mp hs]
      exact htest.1
    | cons e₀ pre =>
      -- after the first step of the schedule comes the rest
      obtain ⟨hhead, htail⟩ := List.cons_prefix_cons.mp hpre
      subst hhead
      obtain ⟨d', hd', hpre'⟩ :=
        (show Run (Step next) c ([(i, t)] ++ pre) s from hs).exists_append
      have hone : Run (Step next) c ([] ++ [(i, t)]) ⟨s', c.threads.set i t'⟩ :=
        .snoc .nil ⟨hi, s', t', hnext, rfl⟩
      obtain rfl := Run.unique step_deterministic hone hd'
      exact ih hrest htest.2 pre e s htail hpre'

/-- Run a schedule with a test of each step, then test what came out. -/
theorem run_of_scheduleAlong (next : σ → τ → Option (σ × τ)) (c : Config σ τ) (is : List ℕ)
    (q : Config σ τ → ℕ × τ → Bool) (p : List (ℕ × τ) → Config σ τ → Bool)
    (h : scheduleThen next c is p = true) (hq : scheduleAlong next q c is = true) :
    ∃ es c', Run (Step next) c es c' ∧ p es c' = true ∧
      Steps (Step next) c es fun _ d e => q d e = true := by
  rw [scheduleThen] at h
  split at h
  · exact absurd h (by simp)
  · rename_i es c' hs
    exact ⟨es, c', run_of_schedule hs, h, steps_of_scheduleAlong hs hq⟩

end Pool
