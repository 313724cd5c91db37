/-
Finite runs of a labelled transition system.

`Run step s₀ es s` says that the labels `es`, taken in order from `s₀`, lead to
`s`.  Labels are appended on the right, so that a history variable computed
from `es` grows the way the system does.

* `Run.invariant` — what holds at the start and is kept by each step holds
  after every run (the invariant may read the history);
* `Run.exists_append`, `Run.restrict` — a run passes through a state at
  each of its prefixes;
* `Run.unique` — a deterministic system reaches one state;
* `along_iff_steps` — if one step keeps `P` exactly when it meets `Q`, then `P`
  holds all along a run exactly when every step of the run meets `Q`;
* `exec`, `run_of_exec` — running a request/reply function on a list;
  `execThen` decides a test of the outcome.
-/
import Mathlib

namespace Runs

variable {σ ε : Type}

/-- The runs of `step` from `s₀`. -/
inductive Run (step : σ → ε → σ → Prop) (s₀ : σ) : List ε → σ → Prop
  | nil : Run step s₀ [] s₀
  | snoc {es : List ε} {s s' : σ} {e : ε} :
      Run step s₀ es s → step s e s' → Run step s₀ (es ++ [e]) s'

/-- At most one state follows a given state and label. -/
def Deterministic (step : σ → ε → σ → Prop) : Prop :=
  ∀ s e s₁ s₂, step s e s₁ → step s e s₂ → s₁ = s₂

variable {step : σ → ε → σ → Prop} {s₀ : σ}

theorem Run.invariant {I : List ε → σ → Prop} (h0 : I [] s₀)
    (hstep : ∀ es s e s', Run step s₀ es s → I es s → step s e s' → I (es ++ [e]) s')
    {es : List ε} {s : σ} (h : Run step s₀ es s) : I es s := by
  induction h with
  | nil => exact h0
  | snoc hr hs ih => exact hstep _ _ _ _ hr ih hs

theorem run_nil_iff {s : σ} : Run step s₀ [] s ↔ s = s₀ := by
  constructor
  · intro h
    generalize hes : ([] : List ε) = es at h
    cases h with
    | nil => rfl
    | snoc hr hs => simp at hes
  · rintro rfl
    exact .nil

theorem run_snoc_iff {es : List ε} {e : ε} {s' : σ} :
    Run step s₀ (es ++ [e]) s' ↔ ∃ s, Run step s₀ es s ∧ step s e s' := by
  constructor
  · intro h
    generalize hes : es ++ [e] = fs at h
    cases h with
    | nil => simp at hes
    | snoc hr hs =>
      obtain ⟨rfl, he⟩ := List.append_inj' hes rfl
      obtain rfl : e = _ := by simpa using he
      exact ⟨_, hr, hs⟩
  · rintro ⟨s, hr, hs⟩
    exact .snoc hr hs

theorem Run.append {es fs : List ε} {s t : σ} (h : Run step s₀ es s) (h' : Run step s fs t) :
    Run step s₀ (es ++ fs) t := by
  induction h' with
  | nil => simpa using h
  | snoc _ hs ih =>
    rw [← List.append_assoc]
    exact .snoc ih hs

theorem Run.exists_append {es fs : List ε} {t : σ} (h : Run step s₀ (es ++ fs) t) :
    ∃ s, Run step s₀ es s ∧ Run step s fs t := by
  induction fs using List.reverseRecOn generalizing t with
  | nil => exact ⟨t, by simpa using h, .nil⟩
  | append_singleton fs f ih =>
    rw [← List.append_assoc, run_snoc_iff] at h
    obtain ⟨t', ht', hs⟩ := h
    obtain ⟨s, h1, h2⟩ := ih ht'
    exact ⟨s, h1, .snoc h2 hs⟩

theorem Run.restrict {es fs : List ε} {t : σ} (h : Run step s₀ fs t) (hp : es <+: fs) :
    ∃ s, Run step s₀ es s := by
  obtain ⟨gs, rfl⟩ := hp
  obtain ⟨s, hs, _⟩ := h.exists_append
  exact ⟨s, hs⟩

/-- Each label of a run is that of one of its steps. -/
theorem Run.step_of_mem {es : List ε} {e : ε} {t : σ} (h : Run step s₀ es t) (he : e ∈ es) :
    ∃ pre s s', pre ++ [e] <+: es ∧ Run step s₀ pre s ∧ step s e s' := by
  obtain ⟨pre, post, rfl⟩ := List.append_of_mem he
  have hsplit : pre ++ e :: post = (pre ++ [e]) ++ post := by simp
  rw [hsplit] at h ⊢
  obtain ⟨s', hpre, _⟩ := h.exists_append
  obtain ⟨s, hs, hstep⟩ := run_snoc_iff.mp hpre
  exact ⟨pre, s, s', List.prefix_append _ _, hs, hstep⟩

theorem Run.unique (hdet : Deterministic step) {es : List ε} {s t : σ}
    (h : Run step s₀ es s) (h' : Run step s₀ es t) : s = t := by
  induction h generalizing t with
  | nil => exact (run_nil_iff.mp h').symm
  | snoc _ hs ih =>
    obtain ⟨u, hu, hst⟩ := run_snoc_iff.mp h'
    have hu' := ih hu
    subst hu'
    exact hdet _ _ _ _ hs hst

/-- The step that follows a prefix of a run. -/
theorem Run.next_step (hdet : Deterministic step) {pre es : List ε} {e : ε} {s t : σ}
    (h : Run step s₀ es t) (hpre : pre ++ [e] <+: es) (hs : Run step s₀ pre s) :
    ∃ s', step s e s' ∧ Run step s₀ (pre ++ [e]) s' := by
  obtain ⟨s', hs'⟩ := h.restrict hpre
  obtain ⟨s₁, hs₁, hstep⟩ := run_snoc_iff.mp hs'
  obtain rfl := Run.unique hdet hs hs₁
  exact ⟨s', hstep, hs'⟩

/-! ### Properties along a run -/

/-- `P` holds of every state a run passes through, with the labels so far. -/
def Along (step : σ → ε → σ → Prop) (s₀ : σ) (es : List ε) (P : List ε → σ → Prop) : Prop :=
  ∀ pre s, pre <+: es → Run step s₀ pre s → P pre s

/-- `Q` holds of every step of a run: the labels so far, the state before the
step, and its label. -/
def Steps (step : σ → ε → σ → Prop) (s₀ : σ) (es : List ε) (Q : List ε → σ → ε → Prop) : Prop :=
  ∀ pre e s, pre ++ [e] <+: es → Run step s₀ pre s → Q pre s e

theorem Steps.of_prefix {Q : List ε → σ → ε → Prop} {es fs : List ε} (h : Steps step s₀ fs Q)
    (hp : es <+: fs) : Steps step s₀ es Q :=
  fun pre e s hpre => h pre e s (hpre.trans hp)

theorem along_of_steps {P : List ε → σ → Prop} {Q : List ε → σ → ε → Prop} (h0 : P [] s₀)
    (hstep : ∀ pre s e s', P pre s → step s e s' → Q pre s e → P (pre ++ [e]) s')
    {es : List ε} (hQ : Steps step s₀ es Q) : Along step s₀ es P := by
  intro pre s hpre hrun
  induction hrun with
  | nil => exact h0
  | snoc hr hs ih =>
    have hp := ih ((List.prefix_append _ _).trans hpre)
    exact hstep _ _ _ _ hp hs (hQ _ _ _ hpre hr)

/-- If a step from a state with `P` keeps `P` exactly when it meets `Q`, then
along a run `P` holds throughout exactly when every step meets `Q`. -/
theorem along_iff_steps (hdet : Deterministic step) {P : List ε → σ → Prop}
    {Q : List ε → σ → ε → Prop} (h0 : P [] s₀) {es : List ε} {t : σ}
    (hrun : Run step s₀ es t)
    (hstep : ∀ pre s e s', Run step s₀ pre s → P pre s → step s e s' →
      (P (pre ++ [e]) s' ↔ Q pre s e)) :
    Along step s₀ es P ↔ Steps step s₀ es Q := by
  constructor
  · intro hP pre e s hpre hs
    obtain ⟨s', hst, hs'⟩ := hrun.next_step hdet hpre hs
    exact (hstep _ _ _ _ hs (hP _ _ ((List.prefix_append _ _).trans hpre) hs) hst).mp
      (hP _ _ hpre hs')
  · -- along the prefix, which is itself a run
    intro hQ pre s hpre hr
    induction hr with
    | nil => exact h0
    | snoc hr hs ih =>
      have hp := ih ((List.prefix_append _ _).trans hpre)
      exact (hstep _ _ _ _ hr hp hs).mpr (hQ _ _ _ hpre hr)

/-! ### Executing a list of requests -/

section exec
variable {ι ω ξ : Type}

/-- Serve the requests one after another, collecting each with its reply. -/
def exec (serve : σ → ι → Except ξ (σ × ω)) : σ → List ι → Except ξ (List (ι × ω) × σ)
  | s, [] => .ok ([], s)
  | s, r :: rs =>
    match serve s r with
    | .error x => .error x
    | .ok (s', reply) =>
      match exec serve s' rs with
      | .error x => .error x
      | .ok (es, t) => .ok ((r, reply) :: es, t)

/-- One request served: the label is the request with its reply. -/
def Served (serve : σ → ι → Except ξ (σ × ω)) (s : σ) (e : ι × ω) (s' : σ) : Prop :=
  serve s e.1 = .ok (s', e.2)

theorem served_deterministic (serve : σ → ι → Except ξ (σ × ω)) :
    Deterministic (Served serve) := by
  intro s e s₁ s₂ h₁ h₂
  have h := h₁.symm.trans h₂
  simp only [Except.ok.injEq, Prod.mk.injEq] at h
  exact h.1

theorem run_of_exec {serve : σ → ι → Except ξ (σ × ω)} {rs : List ι} :
    ∀ {s t : σ} {es : List (ι × ω)}, exec serve s rs = .ok (es, t) →
      Run (Served serve) s es t := by
  induction rs with
  | nil =>
    intro s t es h
    simp only [exec, Except.ok.injEq, Prod.mk.injEq] at h
    obtain ⟨rfl, rfl⟩ := h
    exact .nil
  | cons r rs ih =>
    intro s t es h
    rw [exec] at h
    split at h
    · exact absurd h (by simp)
    · rename_i s' reply hserve
      split at h
      · exact absurd h (by simp)
      · rename_i es' t' hexec
        simp only [Except.ok.injEq, Prod.mk.injEq] at h
        obtain ⟨rfl, rfl⟩ := h
        -- the first request is a run of one step, and the others follow it
        have hone : Run (Served serve) s ([] ++ [(r, reply)]) s' := .snoc .nil hserve
        exact hone.append (ih hexec)

/-- Serve the requests, then test what came out; false if a request fails. -/
def execThen (serve : σ → ι → Except ξ (σ × ω)) (s : σ) (rs : List ι)
    (p : List (ι × ω) → σ → Bool) : Bool :=
  match exec serve s rs with
  | .error _ => false
  | .ok (es, t) => p es t

theorem run_of_execThen (serve : σ → ι → Except ξ (σ × ω)) (s : σ) (rs : List ι)
    (p : List (ι × ω) → σ → Bool) (h : execThen serve s rs p = true) :
    ∃ es t, Run (Served serve) s es t ∧ p es t = true := by
  rw [execThen] at h
  split at h
  · exact absurd h (by simp)
  · rename_i es t hexec
    exact ⟨es, t, run_of_exec hexec, h⟩

end exec

end Runs
