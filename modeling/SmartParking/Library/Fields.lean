/-
What formatted extraction accepts, said of the text.

An extraction gets through some texts only, and ends where the text says so: an `int`
before the first character that is no digit, a word before the next blank.  Line ends
are blanks like any other.

* `IntField`, `WordField` — the text goes on with such a field;
* `extractInt_iff`, `extractWord_iff` — these are what the extractions read;
* `Series` — fields of one kind, one after another;
* `readAll_iff_series` — the loop `while(read) …` has read the first values exactly
  when the text begins with the series of them;
* `getLast?_filter_readAll` — the last value of some kind that the loop reads;
* `ReadsWords` — a word that is a value as a whole is read as this wherever it stands,
  which holds of `int`s and of decimal numbers.
-/
import SmartParking.Library.Lookahead

namespace TextStream

/-- Nothing but whitespace. -/
def Blank (s : Text) : Prop := ∀ c ∈ s, isSpace c = true

/-- The text is blanks, an optional sign, digits that come to the `int` and no more of
them, and then `t`. -/
def IntField (s : Text) (n : ℤ) (t : Text) : Prop :=
  ∃ blanks sign digits, s = blanks ++ (sign ++ (digits ++ t)) ∧ Blank blanks ∧
    (sign = [] ∨ sign = ['+'] ∨ sign = ['-']) ∧
    digits ≠ [] ∧ (∀ c ∈ digits, c.isDigit = true) ∧ (∀ c ∈ t.head?, c.isDigit = false) ∧
    n = (if sign = ['-'] then -1 else 1) * (Nat.ofDigitChars 10 digits 0 : ℤ) ∧ IsInt n

/-- The text is blanks, a word up to the next blank, and then `t`. -/
def WordField (s w t : Text) : Prop :=
  ∃ blanks, s = blanks ++ (w ++ t) ∧ Blank blanks ∧ IsWord w ∧ AtBreak t

/-! ### The extractions -/

theorem extractWord_iff {s w t : Text} : extractWord s = some (w, t) ↔ WordField s w t := by
  constructor
  · intro h
    obtain ⟨blanks, hs, hblank, hw, ht⟩ := extractWord_eq_some h
    exact ⟨blanks, hs, hblank, hw, ht⟩
  · rintro ⟨blanks, rfl, hblank, hw, ht⟩
    rw [extractWord_spaces hblank]
    exact extractWord_word hw ht

theorem skipWs_blank {blanks s : Text} (h : Blank blanks) : skipWs (blanks ++ s) = skipWs s := by
  induction blanks with
  | nil => rfl
  | cons c blanks ih =>
    rw [List.cons_append, skipWs_space (h c List.mem_cons_self)]
    exact ih fun d hd => h d (List.mem_cons_of_mem _ hd)

/-- The sign taken off is one of the three. -/
theorem scanSign_eq (s : Text) :
    ∃ sign, s = sign ++ (scanSign s).2 ∧ (sign = [] ∨ sign = ['+'] ∨ sign = ['-']) ∧
      ((scanSign s).1 = true ↔ sign = ['-']) := by
  cases s with
  | nil => exact ⟨[], rfl, .inl rfl, by simp [scanSign]⟩
  | cons c cs =>
    rw [scanSign]
    split
    · rename_i hc
      exact ⟨['-'], by rw [hc]; rfl, .inr (.inr rfl), by simp⟩
    · split
      · rename_i hc
        exact ⟨['+'], by rw [hc]; rfl, .inr (.inl rfl), by simp⟩
      · exact ⟨[], rfl, .inl rfl, by simp⟩

/-- What a scan has gone over is a field of blanks, sign and digits. -/
theorem scanInt_eq_some {s t : Text} {n : ℤ} (h : scanInt s = some (n, t)) :
    ∃ blanks sign digits, s = blanks ++ (sign ++ (digits ++ t)) ∧ Blank blanks ∧
      (sign = [] ∨ sign = ['+'] ∨ sign = ['-']) ∧
      digits ≠ [] ∧ (∀ c ∈ digits, c.isDigit = true) ∧ (∀ c ∈ t.head?, c.isDigit = false) ∧
      n = (if sign = ['-'] then -1 else 1) * (Nat.ofDigitChars 10 digits 0 : ℤ) := by
  obtain ⟨blanks, hs, hblank, _⟩ := skipWs_eq s
  obtain ⟨sign, hskip, hsign, hminus⟩ := scanSign_eq (skipWs s)
  rw [scanInt] at h
  generalize scanSign (skipWs s) = sg at h hskip hminus
  obtain ⟨neg, u⟩ := sg
  dsimp only at h hskip hminus
  split at h
  · exact absurd h (by simp)
  · rename_i hne
    simp only [Option.some.injEq, Prod.mk.injEq] at h
    obtain ⟨hn, rfl⟩ := h
    refine ⟨blanks, sign, u.takeWhile Char.isDigit, ?_, hblank, hsign, hne,
      fun c hc => List.mem_takeWhile_imp hc, fun c hc => ?_, ?_⟩
    · rw [List.takeWhile_append_dropWhile, ← hskip]
      exact hs
    · -- what is left begins with the character that ended the digits
      have hhead := List.head?_dropWhile_not Char.isDigit u
      rw [Option.mem_def.mp hc] at hhead
      simpa using hhead
    · rw [← hn]
      by_cases hneg : neg = true
      · rw [if_pos hneg, if_pos (hminus.mp hneg), neg_one_mul]
      · rw [if_neg hneg, if_neg fun hc => hneg (hminus.mpr hc), one_mul]

theorem extractInt_iff {s t : Text} {n : ℤ} : extractInt s = some (n, t) ↔ IntField s n t := by
  constructor
  · intro h
    obtain ⟨hscan, hint⟩ := extractInt_eq_some h
    obtain ⟨blanks, sign, digits, hs, hblank, hsign, hne, hdigits, ht, hn⟩ := scanInt_eq_some hscan
    exact ⟨blanks, sign, digits, hs, hblank, hsign, hne, hdigits, ht, hn, hint⟩
  · rintro ⟨blanks, sign, digits, rfl, hblank, hsign, hne, hdigits, ht, rfl, hint⟩
    have hscan := scanInt_signed hsign hne hdigits ht
    rw [List.append_assoc, scanInt] at hscan
    rw [extractInt, scanInt, skipWs_blank hblank, hscan]
    exact if_pos hint

/-! ### One field after another -/

variable {α : Type}

/-- The text begins with a series of fields, of these values, and goes on with the last
text. -/
inductive Series (field : Text → α → Text → Prop) : Text → List α → Text → Prop
  | nil (s : Text) : Series field s [] s
  | cons {s t u : Text} {a : α} {as : List α} (head : field s a t) (tail : Series field t as u) :
      Series field s (a :: as) u

variable {read : Text → Option (α × Text)} {field : Text → α → Text → Prop}

/-- **The reading loop** has read some values, and has the others to come, exactly when
the text begins with the series of the first. -/
theorem readAll_iff_series (hc : Consumes read)
    (hfield : ∀ s a t, read s = some (a, t) ↔ field s a t) {s : Text} {as bs : List α} :
    readAll read s = as ++ bs ↔ ∃ t, Series field s as t ∧ readAll read t = bs := by
  induction as generalizing s with
  | nil =>
    constructor
    · exact fun h => ⟨s, .nil s, h⟩
    · rintro ⟨t, hseries, h⟩
      cases hseries
      exact h
  | cons a as ih =>
    constructor
    · intro h
      cases hs : read s with
      | none =>
        rw [readAll_of_none hc hs] at h
        exact absurd h (by simp)
      | some p =>
        obtain ⟨b, t⟩ := p
        rw [readAll_of_some hc hs, List.cons_append, List.cons_eq_cons] at h
        obtain ⟨rfl, h⟩ := h
        obtain ⟨u, hseries, hrest⟩ := ih.mp h
        exact ⟨u, .cons ((hfield s b t).mp hs) hseries, hrest⟩
    · rintro ⟨u, hseries, h⟩
      cases hseries with
      | cons head tail =>
        rw [readAll_of_some hc ((hfield _ _ _).mpr head), List.cons_append, ih.mpr ⟨u, tail, h⟩]

/-- What the loop reads from a text is on a series that the text begins with. -/
theorem mem_readAll_iff_series (hc : Consumes read)
    (hfield : ∀ s a t, read s = some (a, t) ↔ field s a t) {s : Text} {a : α} :
    a ∈ readAll read s ↔ ∃ as t, Series field s as t ∧ a ∈ as := by
  constructor
  · intro ha
    obtain ⟨t, hseries, _⟩ := (readAll_iff_series hc hfield).mp (List.append_nil _).symm
    exact ⟨_, t, hseries, ha⟩
  · rintro ⟨as, t, hseries, ha⟩
    rw [(readAll_iff_series hc hfield).mpr ⟨t, hseries, rfl⟩]
    exact List.mem_append_left _ ha

/-- **The last value of some kind** that the loop reads stands behind a series of fields,
and behind it no field of that kind is reached. -/
theorem getLast?_filter_readAll (hc : Consumes read)
    (hfield : ∀ s a t, read s = some (a, t) ↔ field s a t) {p : α → Bool} {s : Text} {a : α} :
    ((readAll read s).filter p).getLast? = some a ↔
      ∃ as t u, Series field s as t ∧ field t a u ∧ p a = true ∧
        ∀ bs v, Series field u bs v → ∀ b ∈ bs, p b = false := by
  have hsplit : ((readAll read s).filter p).getLast? = some a ↔ p a = true ∧
      ∃ as bs, readAll read s = as ++ a :: bs ∧ ∀ b ∈ bs, p b = false := by
    rw [List.getLast?_filter, List.find?_eq_some_iff_append]
    refine and_congr_right fun _ => ⟨?_, ?_⟩
    · rintro ⟨bs, as, heq, hbs⟩
      refine ⟨as.reverse, bs.reverse, ?_, fun b hb => ?_⟩
      · have := congrArg List.reverse heq
        simpa using this
      · simpa using hbs b (List.mem_reverse.mp hb)
    · rintro ⟨as, bs, heq, hbs⟩
      refine ⟨bs.reverse, as.reverse, by simp [heq], fun b hb => ?_⟩
      simpa using hbs b (List.mem_reverse.mp hb)
  rw [hsplit]
  constructor
  · rintro ⟨ha, as, bs, heq, hbs⟩
    obtain ⟨t, hseries, hrest⟩ := (readAll_iff_series hc hfield).mp heq
    cases ht : read t with
    | none =>
      rw [readAll_of_none hc ht] at hrest
      exact absurd hrest (by simp)
    | some q =>
      obtain ⟨a', u⟩ := q
      rw [readAll_of_some hc ht, List.cons_eq_cons] at hrest
      obtain ⟨rfl, rfl⟩ := hrest
      refine ⟨as, t, u, hseries, (hfield t a' u).mp ht, ha, fun bs v hlater b hb => ?_⟩
      exact hbs b ((mem_readAll_iff_series hc hfield).mpr ⟨bs, v, hlater, hb⟩)
  · rintro ⟨as, t, u, hseries, hread, ha, hlater⟩
    refine ⟨ha, as, readAll read u, ?_, fun b hb => ?_⟩
    · rw [readAll_iff_series hc hfield]
      exact ⟨t, hseries, readAll_of_some hc ((hfield t a u).mpr hread)⟩
    · obtain ⟨bs, v, hseries', hb'⟩ := (mem_readAll_iff_series hc hfield).mp hb
      exact hlater bs v hseries' b hb'

/-! ### Fields that are words -/

/-- The words of a text, one at a time. -/
theorem words_eq_cons {s w : Text} {ws : List Text} (h : words s = w :: ws) :
    ∃ t, WordField s w t ∧ words t = ws := by
  cases hs : extractWord s with
  | none =>
    rw [words_of_none hs] at h
    exact absurd h (by simp)
  | some p =>
    obtain ⟨v, t⟩ := p
    rw [words_of_some hs, List.cons_eq_cons] at h
    obtain ⟨rfl, h⟩ := h
    exact ⟨t, extractWord_iff.mp hs, h⟩

theorem blank_of_words {s : Text} (h : words s = []) : Blank s := by
  cases hs : extractWord s with
  | none => exact extractWord_none_iff.mp hs
  | some p =>
    rw [words_of_some hs] at h
    exact absurd h (by simp)

theorem AtBreak.append {s t : Text} (hs : AtBreak s) (ht : AtBreak t) : AtBreak (s ++ t) := by
  cases s with
  | nil => exact ht
  | cons c s => exact atBreak_cons (hs c rfl)

theorem WordField.append {s w t r : Text} (h : WordField s w t) (hr : AtBreak r) :
    WordField (s ++ r) w (t ++ r) := by
  obtain ⟨blanks, rfl, hblank, hw, ht⟩ := h
  exact ⟨blanks, by simp, hblank, hw, ht.append hr⟩

/-- Blanks are skipped, and a word that is a value as a whole is read as this, whatever
stands behind the blank. -/
structure ReadsWords (read : Text → Option (α × Text)) : Prop where
  blank : ∀ c s, isSpace c = true → read (c :: s) = read s
  word : ∀ w a t, IsWord w → whole read w = some a → AtBreak t → read (w ++ t) = some (a, t)

theorem ReadsWords.read_blank (h : ReadsWords read) {blanks : Text} (hblank : Blank blanks)
    (s : Text) : read (blanks ++ s) = read s := by
  induction blanks with
  | nil => rfl
  | cons c blanks ih =>
    rw [List.cons_append, h.blank c _ (hblank c List.mem_cons_self)]
    exact ih fun d hd => hblank d (List.mem_cons_of_mem _ hd)

theorem ReadsWords.read_eq (h : ReadsWords read) {s w t : Text} {a : α}
    (hfield : WordField s w t) (hw : whole read w = some a) : read s = some (a, t) := by
  obtain ⟨blanks, rfl, hblank, hword, ht⟩ := hfield
  rw [h.read_blank hblank]
  exact h.word w a t hword hw ht

theorem readsWords_extractInt : ReadsWords extractInt where
  blank _ _ hc := extractInt_space hc
  word w n t _ hw ht := by
    obtain ⟨blanks, sign, digits, rfl, hblank, hsign, hne, hdigits, _, hn, hint⟩ :=
      extractInt_iff.mp (whole_eq_some.mp hw)
    exact extractInt_iff.mpr
      ⟨blanks, sign, digits, by simp, hblank, hsign, hne, hdigits, ht.not_digit, hn, hint⟩

/-- A scan stops before a character that it does not take. -/
theorem scan_append_break {p : Char → Bool} {t : Text} (hp : ∀ c ∈ t.head?, p c = false)
    (s : Text) :
    (s ++ t).takeWhile p = s.takeWhile p ∧ (s ++ t).dropWhile p = s.dropWhile p ++ t := by
  by_cases hs : s.dropWhile p = []
  · have hall := List.dropWhile_eq_nil_iff.mp hs
    rw [List.takeWhile_append_of_pos hall, List.dropWhile_append_of_pos hall, hs,
      List.takeWhile_eq_self_iff.mpr hall]
    cases t with
    | nil => simp
    | cons c t =>
      have hc := hp c rfl
      simp [hc]
  · exact scan_append hs t

end TextStream

namespace Decimal

open TextStream

theorem scanPoint_append_break {t : Text} (ht : AtBreak t) (s : Text) :
    scanPoint (s ++ t) = ((scanPoint s).1, (scanPoint s).2 ++ t) := by
  cases s with
  | nil =>
    cases t with
    | nil => rfl
    | cons c t =>
      have hc : c ≠ '.' := by
        rintro rfl
        exact absurd (ht '.' rfl) (by decide)
      simp [scanPoint, hc]
  | cons c s =>
    obtain ⟨htake, hdrop⟩ := scan_append_break ht.not_digit s
    rw [List.cons_append, scanPoint, scanPoint, htake, hdrop]
    split <;> rfl

theorem scanExponent_append_break {s t u : Text} {e : ℤ} (ht : AtBreak t)
    (h : scanExponent s = some (e, u)) : scanExponent (s ++ t) = some (e, u ++ t) := by
  cases s with
  | nil =>
    obtain ⟨rfl, rfl⟩ : (0 : ℤ) = e ∧ [] = u := by simpa [scanExponent] using h
    cases t with
    | nil => rfl
    | cons c t =>
      have hc : ¬ (c = 'e' ∨ c = 'E') := by
        rintro (rfl | rfl)
        · exact absurd (ht 'e' rfl) (by decide)
        · exact absurd (ht 'E' rfl) (by decide)
      simp [scanExponent, hc]
  | cons c s =>
    rw [scanExponent] at h
    rw [List.cons_append, scanExponent]
    split at h
    · rename_i hc
      have hne : s ≠ [] := by
        rintro rfl
        simp [scanSign] at h
      rw [if_pos hc, scanSign_append hne]
      generalize scanSign s = sg at h
      obtain ⟨neg, v⟩ := sg
      obtain ⟨htake, hdrop⟩ := scan_append_break ht.not_digit v
      dsimp only at h ⊢
      split at h
      · exact absurd h (by simp)
      · rename_i hdigits
        simp only [Option.some.injEq, Prod.mk.injEq] at h
        obtain ⟨rfl, rfl⟩ := h
        rw [htake, hdrop, if_neg hdigits]
    · rename_i hc
      simp only [Option.some.injEq, Prod.mk.injEq] at h
      obtain ⟨rfl, rfl⟩ := h
      rw [if_neg hc]
      rfl

theorem readsWords_extract : ReadsWords extract where
  blank _ _ hc := extract_space hc
  word w d t hw hread ht := by
    have h := whole_eq_some.mp hread
    have hskip := skipWs_word (r := []) hw
    rw [List.append_nil] at hskip
    rw [extract, hskip] at h
    rw [extract, skipWs_word hw, scanSign_append hw.1]
    generalize scanSign w = sg at h
    obtain ⟨neg, u⟩ := sg
    obtain ⟨htake, hdrop⟩ := scan_append_break ht.not_digit u
    dsimp only at h ⊢
    rw [htake, hdrop, scanPoint_append_break ht]
    split at h
    · exact absurd h (by simp)
    · rename_i hdigits
      rw [if_neg hdigits]
      cases hexp : scanExponent (scanPoint (u.dropWhile Char.isDigit)).2 with
      | none => simp [hexp] at h
      | some p =>
        obtain ⟨e, v⟩ := p
        simp only [hexp, Option.some.injEq, Prod.mk.injEq] at h
        obtain ⟨rfl, rfl⟩ := h
        rw [scanExponent_append_break ht hexp]
        rfl

end Decimal
