/-
A stock given out one by one.

Each of some kinds is in stock so many times; what is asked for is given of the first
kind that has any left.  `supply` lists what is given, in order.

* `head?_supply`, `supply_of_taken` — the next one, and what remains after it;
* `length_supply` — how many there are in all;
* `supply_of_run` — in a run whose steps each give out the next one, the replies are
  the supply at the start, and then nothing.
-/
import SmartParking.Library.Runs

open Runs

namespace Supply

variable {α : Type}

/-- The kinds in the order in which they are given out, each as often as it is there. -/
def supply (stock : α → ℕ) (kinds : List α) : List α :=
  kinds.flatMap fun a => List.replicate (stock a) a

theorem length_supply (stock : α → ℕ) (kinds : List α) :
    (supply stock kinds).length = (kinds.map stock).sum := by
  simp [supply, List.length_flatMap]

theorem supply_congr {stock stock' : α → ℕ} {kinds : List α}
    (h : ∀ a ∈ kinds, stock' a = stock a) : supply stock' kinds = supply stock kinds :=
  List.flatMap_congr fun a ha => by rw [h a ha]

/-- The next one is of the first kind that has any left. -/
theorem head?_supply (stock : α → ℕ) (kinds : List α) :
    (supply stock kinds).head? = kinds.find? fun a => 0 < stock a := by
  induction kinds with
  | nil => rfl
  | cons a kinds ih =>
    rw [supply, List.flatMap_cons]
    cases hs : stock a with
    | zero =>
      rw [List.replicate_zero, List.nil_append, List.find?_cons_of_neg (by simp [hs])]
      exact ih
    | succ k => rw [List.find?_cons_of_pos (by simp [hs]), List.replicate_succ]; rfl

/-- Taking one of that kind leaves the rest. -/
theorem supply_of_taken [DecidableEq α] {stock stock' : α → ℕ} {a : α} :
    ∀ {kinds : List α}, kinds.Nodup → (supply stock kinds).head? = some a →
      (∀ b ∈ kinds, stock' b = if b = a then stock b - 1 else stock b) →
      supply stock' kinds = (supply stock kinds).tail := by
  intro kinds
  induction kinds with
  | nil => exact fun _ h => absurd h (by simp [supply])
  | cons b kinds ih =>
    intro hnd hhead htaken
    obtain ⟨hb, hnd'⟩ := List.nodup_cons.mp hnd
    have hrest := fun c hc => htaken c (List.mem_cons_of_mem b hc)
    rw [supply, List.flatMap_cons] at hhead
    rw [supply, supply, List.flatMap_cons, List.flatMap_cons, htaken b List.mem_cons_self]
    cases hs : stock b with
    | zero =>
      rw [hs, List.replicate_zero, List.nil_append] at hhead
      have hempty : (if b = a then 0 - 1 else 0) = 0 := by split <;> rfl
      rw [hempty, List.replicate_zero, List.nil_append]
      exact ih hnd' hhead hrest
    | succ k =>
      rw [hs, List.replicate_succ, List.cons_append, List.head?_cons, Option.some_inj] at hhead
      rw [if_pos hhead, List.replicate_succ, List.cons_append, List.tail_cons, Nat.add_sub_cancel]
      -- the kind does not come again
      refine congrArg _ (supply_congr fun c hc => ?_)
      rw [hrest c hc, if_neg]
      rintro rfl
      exact hb (hhead ▸ hc)

/-- **A run of steps that each give out the next one.** -/
theorem supply_of_run {σ ε β : Type} {step : σ → ε → σ → Prop} (left : σ → List β)
    (given : ε → Option β) {s₀ s : σ} {es : List ε} (h : Run step s₀ es s)
    (hstep : ∀ pre e t t', pre ++ [e] <+: es → Run step s₀ pre t → step t e t' →
      given e = (left t).head? ∧ left t' = (left t).tail) :
    left s = (left s₀).drop es.length ∧ es.filterMap given = (left s₀).take es.length ∧
      ∀ (k : ℕ) (e : ε), es[k]? = some e → given e = (left s₀)[k]? := by
  induction h with
  | nil => exact ⟨rfl, rfl, by simp⟩
  | @snoc es t t' e hr hs ih =>
    obtain ⟨hleft, htaken, hgiven⟩ := ih fun pre e t t' hpre =>
      hstep pre e t t' (hpre.trans (List.prefix_append _ _))
    obtain ⟨hhead, htail⟩ := hstep es e t t' List.prefix_rfl hr hs
    rw [hleft, List.head?_drop] at hhead
    refine ⟨?_, ?_, fun k e' hk => ?_⟩
    · rw [htail, hleft, List.tail_drop, List.length_append, List.length_singleton]
    · rw [List.filterMap_append, htaken, List.length_append, List.length_singleton,
        List.take_add_one, ← hhead]
      cases hg : given e <;> simp [hg]
    · rcases Nat.lt_or_ge k es.length with hlt | hge
      · rw [List.getElem?_append_left hlt] at hk
        exact hgiven k e' hk
      · rw [List.getElem?_append_right hge, List.getElem?_singleton] at hk
        split at hk
        · rename_i hzero
          obtain rfl := Option.some_inj.mp hk
          rw [hhead, show k = es.length by omega]
        · exact absurd hk (by simp)

end Supply
