/-
Extraction does not look ahead.

An extraction ends at a character that it leaves in the stream, or at the end of the
text.  One that leaves something has therefore made up its mind, whatever follows
(`Local`): the way a text that has been cut short differs from the whole one shows in
its last field only.

* `local_extractWord`, `local_extractInt`, `Decimal.local_extract` — the extractions
  of `std::istream`;
* `Local.eq_of_some` — a field read from a text cut short, compared with the same
  field of the whole one.
-/
import SmartParking.Library.Decimal

namespace TextStream

variable {α : Type} {read : Text → Option (α × Text)}

/-- What has been read and left, if anything is left, does not depend on what is added
to the text. -/
def Local (read : Text → Option (α × Text)) : Prop :=
  ∀ s a t, read s = some (a, t) → t ≠ [] → ∀ r, read (s ++ r) = some (a, t ++ r)

/-- From a text and from a longer one the same is read, if it leaves something. -/
theorem Local.eq_of_some (hl : Local read) {s t q u v : Text} {a b : α}
    (h : read s = some (a, t)) (ht : t ≠ []) (hs : s ++ q = u) (hu : read u = some (b, v)) :
    b = a ∧ t ++ q = v := by
  have hread := hl s a t h ht q
  rw [hs, hu] at hread
  simp only [Option.some.injEq, Prod.mk.injEq] at hread
  exact ⟨hread.1, hread.2.symm⟩

/-- Nothing can be read from an empty text. -/
theorem Consumes.read_nil (hc : Consumes read) : read [] = none := by
  cases h : read [] with
  | none => rfl
  | some p => exact absurd (hc [] p.1 p.2 h) (by simp)

/-- What is left of a successful extraction is not empty if another one succeeds. -/
theorem Consumes.ne_nil (hc : Consumes read) {s t : Text} {a : α} (h : read s = some (a, t)) :
    s ≠ [] := by
  rintro rfl
  simp [hc.read_nil] at h

/-! ### Words and numbers -/

/-- A scan that stops before the end stops there whatever follows. -/
theorem scan_append {p : Char → Bool} {s : Text} (h : s.dropWhile p ≠ []) (r : Text) :
    (s ++ r).takeWhile p = s.takeWhile p ∧ (s ++ r).dropWhile p = s.dropWhile p ++ r := by
  have hlen : (s.takeWhile p).length ≠ s.length := by
    intro hc
    have hsum := congrArg List.length (List.takeWhile_append_dropWhile (p := p) (l := s))
    rw [List.length_append, hc] at hsum
    exact h (List.eq_nil_of_length_eq_zero (by omega))
  constructor
  · rw [List.takeWhile_append, if_neg hlen]
  · rw [List.dropWhile_append, if_neg (by simpa using h)]

theorem skipWs_append {s : Text} (h : skipWs s ≠ []) (r : Text) :
    skipWs (s ++ r) = skipWs s ++ r :=
  (scan_append h r).2

theorem scanSign_append {s : Text} (h : s ≠ []) (r : Text) :
    scanSign (s ++ r) = ((scanSign s).1, (scanSign s).2 ++ r) := by
  obtain ⟨c, cs, rfl⟩ := List.exists_cons_of_ne_nil h
  rw [List.cons_append, scanSign, scanSign]
  split
  · rfl
  · split <;> rfl

theorem local_extractWord : Local extractWord := by
  intro s w t h ht r
  rw [extractWord] at h
  cases hs : skipWs s with
  | nil => simp [hs] at h
  | cons c cs =>
    rw [hs] at h
    simp only [Option.some.injEq, Prod.mk.injEq] at h
    obtain ⟨rfl, rfl⟩ := h
    obtain ⟨htake, hdrop⟩ := scan_append ht r
    rw [extractWord, skipWs_append (by rw [hs]; simp), hs, List.cons_append]
    dsimp only
    rw [← List.cons_append, htake, hdrop]

theorem local_scanInt : Local scanInt := by
  intro s n t h ht r
  have hne : skipWs s ≠ [] := by
    intro hc
    simp [scanInt, hc, scanSign] at h
  have hsign := scanSign_append hne r
  rw [← skipWs_append hne] at hsign
  rw [scanInt] at h ⊢
  rw [hsign]
  generalize scanSign (skipWs s) = sg at h
  obtain ⟨neg, u⟩ := sg
  dsimp only at h ⊢
  split at h
  · exact absurd h (by simp)
  · rename_i hdigits
    simp only [Option.some.injEq, Prod.mk.injEq] at h
    obtain ⟨rfl, rfl⟩ := h
    obtain ⟨htake, hdrop⟩ := scan_append ht r
    rw [htake, hdrop, if_neg hdigits]

theorem local_extractInt : Local extractInt := by
  intro s n t h ht r
  obtain ⟨hscan, hint⟩ := extractInt_eq_some h
  rw [extractInt, local_scanInt s n t hscan ht r]
  simp [hint]

end TextStream

namespace Decimal

open TextStream

theorem scanPoint_append {s : Text} (h : (scanPoint s).2 ≠ []) (r : Text) :
    scanPoint (s ++ r) = ((scanPoint s).1, (scanPoint s).2 ++ r) := by
  cases s with
  | nil => exact absurd rfl h
  | cons c cs =>
    rw [scanPoint] at h
    rw [List.cons_append, scanPoint, scanPoint]
    split at h
    · rename_i hc
      obtain ⟨htake, hdrop⟩ := scan_append h r
      rw [if_pos hc, if_pos hc, htake, hdrop]
    · rename_i hc
      rw [if_neg hc, if_neg hc]
      rfl

theorem local_scanExponent : Local scanExponent := by
  intro s e t h ht r
  cases s with
  | nil =>
    simp only [scanExponent, Option.some.injEq, Prod.mk.injEq] at h
    exact absurd h.2.symm ht
  | cons c cs =>
    rw [scanExponent] at h
    rw [List.cons_append, scanExponent]
    split at h
    · rename_i hc
      rw [if_pos hc]
      have hne : cs ≠ [] := by
        rintro rfl
        simp [scanSign] at h
      rw [scanSign_append hne]
      generalize scanSign cs = sg at h
      obtain ⟨neg, u⟩ := sg
      dsimp only at h ⊢
      split at h
      · exact absurd h (by simp)
      · rename_i hdigits
        simp only [Option.some.injEq, Prod.mk.injEq] at h
        obtain ⟨rfl, rfl⟩ := h
        obtain ⟨htake, hdrop⟩ := scan_append ht r
        rw [htake, hdrop, if_neg hdigits]
    · rename_i hc
      simp only [Option.some.injEq, Prod.mk.injEq] at h
      obtain ⟨rfl, rfl⟩ := h
      rw [if_neg hc]
      rfl

theorem scanExponent_nil {e : ℤ} {t : Text} (h : scanExponent [] = some (e, t)) : t = [] := by
  simp only [scanExponent, Option.some.injEq, Prod.mk.injEq] at h
  exact h.2.symm

theorem local_extract : Local extract := by
  intro s d t h ht r
  have hne : skipWs s ≠ [] := by
    intro hc
    simp [extract, hc, scanSign, scanPoint] at h
  have hsign := scanSign_append hne r
  rw [← skipWs_append hne] at hsign
  rw [extract] at h ⊢
  rw [hsign]
  generalize scanSign (skipWs s) = sg at h
  obtain ⟨neg, u⟩ := sg
  dsimp only at h ⊢
  split at h
  · exact absurd h (by simp)
  · rename_i hdigits
    cases hexp : scanExponent (scanPoint (u.dropWhile Char.isDigit)).2 with
    | none => simp [hexp] at h
    | some p =>
      obtain ⟨e, t'⟩ := p
      simp only [hexp, Option.some.injEq, Prod.mk.injEq] at h
      obtain ⟨rfl, rfl⟩ := h
      -- something is left in the end, hence after the point and after the digits
      have hpoint : (scanPoint (u.dropWhile Char.isDigit)).2 ≠ [] := fun hc =>
        ht (scanExponent_nil (hc ▸ hexp))
      have hdrop : u.dropWhile Char.isDigit ≠ [] := fun hc => hpoint (by rw [hc]; rfl)
      obtain ⟨htake, hdrop'⟩ := scan_append hdrop r
      rw [htake, hdrop', scanPoint_append hpoint, local_scanExponent _ _ _ hexp ht, if_neg hdigits]

end Decimal
