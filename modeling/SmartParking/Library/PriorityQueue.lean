/-
`std::priority_queue` with `greater<>`: a queue that yields its least element.

The queue carries its elements in increasing order, so that the invariant of
the container is part of the type; `push` inserts, `pop?` takes the least.
Duplicates are kept.
-/
import Mathlib

structure PriorityQueue (α : Type) [LinearOrder α] where
  entries : List α
  sorted : entries.Pairwise (· ≤ ·)

namespace PriorityQueue

variable {α : Type} [LinearOrder α]

def empty : PriorityQueue α := ⟨[], List.Pairwise.nil⟩

def push (q : PriorityQueue α) (a : α) : PriorityQueue α :=
  ⟨q.entries.orderedInsert (· ≤ ·) a, q.sorted.orderedInsert a q.entries⟩

/-- `top()` and the queue after `pop()`; `none` when the queue is empty. -/
def pop? : PriorityQueue α → Option (α × PriorityQueue α)
  | ⟨[], _⟩ => none
  | ⟨a :: as, h⟩ => some (a, ⟨as, (List.pairwise_cons.mp h).2⟩)

instance : Membership α (PriorityQueue α) := ⟨fun q a => a ∈ q.entries⟩

theorem mem_def {q : PriorityQueue α} {a : α} : a ∈ q ↔ a ∈ q.entries := Iff.rfl

@[simp] theorem not_mem_empty (a : α) : a ∉ (empty : PriorityQueue α) := List.not_mem_nil

def size (q : PriorityQueue α) : ℕ := q.entries.length

theorem mem_push {q : PriorityQueue α} {a b : α} : b ∈ q.push a ↔ b = a ∨ b ∈ q := by
  rw [mem_def, mem_def, push, List.mem_orderedInsert]

theorem size_push (q : PriorityQueue α) (a : α) : (q.push a).size = q.size + 1 := by
  rw [size, size, push, List.orderedInsert_length]

theorem nodup_push {q : PriorityQueue α} {a : α} (hq : q.entries.Nodup) (ha : a ∉ q) :
    (q.push a).entries.Nodup := by
  rw [push, (List.perm_orderedInsert (· ≤ ·) a q.entries).nodup_iff, List.nodup_cons]
  exact ⟨ha, hq⟩

theorem pop?_eq_none {q : PriorityQueue α} (h : q.pop? = none) (a : α) : a ∉ q := by
  obtain ⟨as, hs⟩ := q
  cases as with
  | nil => simp [mem_def]
  | cons b bs => exact absurd h (by simp [pop?])

/-- The element popped is in the queue, is least, and is removed once. -/
theorem pop?_eq_some {q q' : PriorityQueue α} {a : α} (h : q.pop? = some (a, q')) :
    q.entries = a :: q'.entries ∧ ∀ b ∈ q, a ≤ b := by
  obtain ⟨as, hs⟩ := q
  cases as with
  | nil => exact absurd h (by simp [pop?])
  | cons b bs =>
    simp only [pop?, Option.some.injEq, Prod.mk.injEq] at h
    obtain ⟨rfl, rfl⟩ := h
    refine ⟨rfl, fun c hc => ?_⟩
    rcases List.mem_cons.mp hc with rfl | hc
    · exact le_rfl
    · exact (List.pairwise_cons.mp hs).1 c hc

theorem mem_iff_of_pop? {q q' : PriorityQueue α} {a : α} (h : q.pop? = some (a, q')) (b : α) :
    b ∈ q ↔ b = a ∨ b ∈ q' := by
  rw [mem_def, (pop?_eq_some h).1, List.mem_cons]
  rfl

theorem mem_of_pop? {q q' : PriorityQueue α} {a : α} (h : q.pop? = some (a, q')) : a ∈ q :=
  (mem_iff_of_pop? h a).mpr (.inl rfl)

/-- In a queue without duplicates nothing equal to the element popped is left. -/
theorem nodup_of_pop? {q q' : PriorityQueue α} {a : α} (hq : q.entries.Nodup)
    (h : q.pop? = some (a, q')) : a ∉ q' ∧ q'.entries.Nodup := by
  rw [(pop?_eq_some h).1, List.nodup_cons] at hq
  exact hq

end PriorityQueue
