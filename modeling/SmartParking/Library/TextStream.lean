/-
Formatted text input and output, as `std::istream` and `std::ostream` do it.

A stream is the list of characters still to be read.  An extraction returns the
value and the characters left, or `none` when it sets `failbit`; in the "C"
locale:

* `extractWord` — `in >> str`: skip whitespace, then read up to whitespace;
* `extractInt` — `in >> i`: an optional sign and decimal digits, failing on no
  digit and on a value outside the `int` range;
* `stoi` — the same scan, with the two failures told apart;
* `printInt` — `out << i`.

`readAll read` is the loop `while(read) …`.  Main results: `extractInt_printInt`
(an `int` printed is read back), `words_append` (tokenising is compositional at
whitespace) and `readAll_readTriple` (a loop of three words at a time groups
the words of the text by threes).
-/
import Mathlib

namespace TextStream

abbrev Text : Type := List Char

/-- `isspace` in the "C" locale. -/
def isSpace (c : Char) : Bool :=
  c = ' ' || c = '\t' || c = '\n' || c = '\x0b' || c = '\x0c' || c = '\r'

def skipWs (s : Text) : Text := s.dropWhile isSpace

/-- `in >> str`. -/
def extractWord (s : Text) : Option (Text × Text) :=
  match skipWs s with
  | [] => none
  | c :: cs =>
    some ((c :: cs).takeWhile (fun c => !isSpace c), (c :: cs).dropWhile (fun c => !isSpace c))

/-! ### Integers -/

def intMin : ℤ := -2147483648
def intMax : ℤ := 2147483647

/-- The values of the type `int`. -/
def IsInt (n : ℤ) : Prop := intMin ≤ n ∧ n ≤ intMax

instance (n : ℤ) : Decidable (IsInt n) := inferInstanceAs (Decidable (intMin ≤ n ∧ n ≤ intMax))

/-- An optional sign; `true` for a minus. -/
def scanSign (s : Text) : Bool × Text :=
  match s with
  | [] => (false, [])
  | c :: cs => if c = '-' then (true, cs) else if c = '+' then (false, cs) else (false, c :: cs)

/-- Skip whitespace, then a sign and at least one decimal digit. -/
def scanInt (s : Text) : Option (ℤ × Text) :=
  let (neg, r) := scanSign (skipWs s)
  let ds := r.takeWhile Char.isDigit
  let n : ℤ := Nat.ofDigitChars 10 ds 0
  if ds = [] then none
  else some (if neg then -n else n, r.dropWhile Char.isDigit)

/-- `in >> i` for an `int`. -/
def extractInt (s : Text) : Option (ℤ × Text) :=
  match scanInt s with
  | none => none
  | some (n, r) => if IsInt n then some (n, r) else none

inductive StoiError
  | invalidArgument
  | outOfRange
  deriving DecidableEq, Repr

/-- `std::stoi`, which ignores what follows the digits. -/
def stoi (s : Text) : Except StoiError ℤ :=
  match scanInt s with
  | none => .error .invalidArgument
  | some (n, _) => if IsInt n then .ok n else .error .outOfRange

/-- `out << i` for an `int`. -/
def printInt (n : ℤ) : Text :=
  if n < 0 then '-' :: Nat.toDigits 10 n.natAbs else Nat.toDigits 10 n.natAbs

/-! ### The reading loop -/

section readAll
variable {α : Type}

def readAllFuel (read : Text → Option (α × Text)) : ℕ → Text → List α
  | 0, _ => []
  | k + 1, s =>
    match read s with
    | none => []
    | some (a, r) => a :: readAllFuel read k r

/-- `while(read) …`: the values read before the first failure.  A successful
extraction takes at least one character, so `s.length` rounds are enough. -/
def readAll (read : Text → Option (α × Text)) (s : Text) : List α :=
  readAllFuel read s.length s

/-- A successful extraction takes at least one character. -/
def Consumes (read : Text → Option (α × Text)) : Prop :=
  ∀ s a r, read s = some (a, r) → r.length < s.length

variable {read : Text → Option (α × Text)}

theorem readAllFuel_eq (hread : Consumes read) :
    ∀ {k : ℕ} {s : Text}, s.length ≤ k → readAllFuel read k s = readAll read s := by
  -- two bounds that both reach the end of the text read the same
  have key : ∀ (k k' : ℕ) (s : Text), s.length ≤ k → s.length ≤ k' →
      readAllFuel read k s = readAllFuel read k' s := by
    intro k
    induction k with
    | zero =>
      intro k' s hk _
      have hs : read s = none := by
        cases h : read s with
        | none => rfl
        | some p =>
          have := hread s p.1 p.2 h
          omega
      cases k' with
      | zero => rfl
      | succ k' => simp [readAllFuel, hs]
    | succ k ih =>
      intro k' s hk hk'
      cases h : read s with
      | none => cases k' <;> simp [readAllFuel, h]
      | some p =>
        obtain ⟨a, r⟩ := p
        have hlt := hread s a r h
        obtain ⟨k'', rfl⟩ : ∃ k'', k' = k'' + 1 := ⟨k' - 1, by omega⟩
        simp only [readAllFuel, h]
        rw [ih k'' r (by omega) (by omega)]
  intro k s hk
  exact key k s.length s hk le_rfl

theorem readAll_of_none (hread : Consumes read) {s : Text} (h : read s = none) :
    readAll read s = [] := by
  rw [← readAllFuel_eq hread (Nat.le_succ s.length), readAllFuel, h]

theorem readAll_of_some (hread : Consumes read) {s r : Text} {a : α} (h : read s = some (a, r)) :
    readAll read s = a :: readAll read r := by
  have hlt := hread s a r h
  rw [← readAllFuel_eq hread (Nat.le_succ s.length), readAllFuel, h]
  simp only
  rw [readAllFuel_eq hread (by omega)]

/-- Two texts from which the same is read first yield the same. -/
theorem readAll_congr (hread : Consumes read) {s t : Text} (h : read s = read t) :
    readAll read s = readAll read t := by
  cases ht : read t with
  | none => rw [readAll_of_none hread (h.trans ht), readAll_of_none hread ht]
  | some p => rw [readAll_of_some hread (h.trans ht), readAll_of_some hread ht]

/-- Each value has been read from what was left of the text. -/
theorem exists_read_of_mem_readAll (hread : Consumes read) {s : Text} {a : α}
    (h : a ∈ readAll read s) : ∃ t r, read t = some (a, r) := by
  induction hn : s.length using Nat.strong_induction_on generalizing s with
  | _ n ih =>
    cases hs : read s with
    | none => rw [readAll_of_none hread hs] at h; simp at h
    | some p =>
      obtain ⟨b, r⟩ := p
      rw [readAll_of_some hread hs, List.mem_cons] at h
      rcases h with rfl | h
      · exact ⟨s, r, hs⟩
      · exact ih r.length (hn ▸ hread s b r hs) h rfl

/-- The value of a field, when the extraction takes all of it. -/
def whole (read : Text → Option (α × Text)) (field : Text) : Option α :=
  (read field).bind fun p => if p.2 = [] then some p.1 else none

theorem whole_eq_some {field : Text} {a : α} :
    whole read field = some a ↔ read field = some (a, []) := by
  cases h : read field with
  | none => simp [whole, h]
  | some p =>
    obtain ⟨b, r⟩ := p
    simp [whole, h, and_comm]

end readAll

/-! ### Words -/

/-- The text is at its end or at a whitespace character. -/
def AtBreak (r : Text) : Prop := ∀ c ∈ r.head?, isSpace c = true

/-- A word: what `in >> str` can read. -/
def IsWord (w : Text) : Prop := w ≠ [] ∧ ∀ c ∈ w, isSpace c = false

instance (w : Text) : Decidable (IsWord w) :=
  decidable_of_iff (w ≠ [] ∧ w.all (fun c => !isSpace c) = true) (by simp [IsWord])

theorem atBreak_nil : AtBreak [] := by simp [AtBreak]

theorem atBreak_cons {c : Char} {r : Text} (h : isSpace c = true) : AtBreak (c :: r) := by
  simpa [AtBreak] using h

theorem skipWs_space {c : Char} {s : Text} (h : isSpace c = true) : skipWs (c :: s) = skipWs s := by
  simp [skipWs, h]

theorem skipWs_word {w r : Text} (h : IsWord w) : skipWs (w ++ r) = w ++ r := by
  obtain ⟨hne, hw⟩ := h
  obtain ⟨c, cs, rfl⟩ := List.exists_cons_of_ne_nil hne
  have hc : isSpace c = false := hw c (by simp)
  simp [skipWs, hc]

/-- Skipping stops at the end or at the first character of a word. -/
theorem skipWs_eq (s : Text) :
    ∃ ws, s = ws ++ skipWs s ∧ (∀ c ∈ ws, isSpace c = true) ∧
      ∀ c ∈ (skipWs s).head?, isSpace c = false := by
  refine ⟨s.takeWhile isSpace, (List.takeWhile_append_dropWhile).symm, ?_, ?_⟩
  · intro c hc
    exact List.mem_takeWhile_imp hc
  · intro c hc
    have h := List.head?_dropWhile_not isSpace s
    rw [show s.dropWhile isSpace = skipWs s from rfl] at h
    cases hs : (skipWs s).head? with
    | none => rw [hs] at hc; simp at hc
    | some d =>
      rw [hs] at h hc
      simp only [Option.mem_def, Option.some.injEq] at hc
      subst hc
      simpa using h

theorem extractWord_space {c : Char} {s : Text} (h : isSpace c = true) :
    extractWord (c :: s) = extractWord s := by
  rw [extractWord, extractWord, skipWs_space h]

theorem extractWord_word {w r : Text} (hw : IsWord w) (hr : AtBreak r) :
    extractWord (w ++ r) = some (w, r) := by
  obtain ⟨c, cs, rfl⟩ := List.exists_cons_of_ne_nil hw.1
  have hs := skipWs_word (r := r) hw
  have hall : ∀ d ∈ c :: cs, (!isSpace d) = true := fun d hd => by simp [hw.2 d hd]
  have htake : r.takeWhile (fun c => !isSpace c) = [] := by
    cases r with
    | nil => rfl
    | cons d ds =>
      have hd : isSpace d = true := hr d (by simp)
      simp [hd]
  have hdrop : r.dropWhile (fun c => !isSpace c) = r := by
    cases r with
    | nil => rfl
    | cons d ds =>
      have hd : isSpace d = true := hr d (by simp)
      simp [hd]
  rw [extractWord, hs, List.cons_append]
  simp only [Option.some.injEq, Prod.mk.injEq]
  rw [← List.cons_append]
  constructor
  · rw [List.takeWhile_append_of_pos hall, htake, List.append_nil]
  · rw [List.dropWhile_append_of_pos hall, hdrop]

theorem extractWord_eq_none {s : Text} (h : ∀ c ∈ s, isSpace c = true) : extractWord s = none := by
  have hs : skipWs s = [] := List.dropWhile_eq_nil_iff.mpr h
  rw [extractWord, hs]

/-- What a successful `in >> str` has read and left. -/
theorem extractWord_eq_some {s w r : Text} (h : extractWord s = some (w, r)) :
    ∃ ws, s = ws ++ (w ++ r) ∧ (∀ c ∈ ws, isSpace c = true) ∧ IsWord w ∧ AtBreak r := by
  obtain ⟨ws, hs, hws, hhd⟩ := skipWs_eq s
  rw [extractWord] at h
  cases hsk : skipWs s with
  | nil => rw [hsk] at h; exact absurd h (by simp)
  | cons c cs =>
    rw [hsk] at h hs hhd
    simp only [Option.some.injEq, Prod.mk.injEq] at h
    obtain ⟨rfl, rfl⟩ := h
    have hc : isSpace c = false := hhd c (by simp)
    refine ⟨ws, ?_, hws, ⟨?_, ?_⟩, ?_⟩
    · rw [List.takeWhile_append_dropWhile]
      exact hs
    · simp [hc]
    · intro d hd
      simpa using List.mem_takeWhile_imp hd
    · intro d hd
      -- what is left begins with the character that ended the word
      have h := List.head?_dropWhile_not (fun c => !isSpace c) (c :: cs)
      rw [Option.mem_def.mp hd] at h
      simpa using h

theorem extractWord_none_iff {s : Text} :
    extractWord s = none ↔ ∀ c ∈ s, isSpace c = true := by
  constructor
  · intro h
    by_contra hc
    push Not at hc
    rw [extractWord] at h
    cases hsk : skipWs s with
    | nil =>
      obtain ⟨c, hc, hcs⟩ := hc
      exact hcs (List.dropWhile_eq_nil_iff.mp hsk c hc)
    | cons c cs => rw [hsk] at h; exact absurd h (by simp)
  · exact extractWord_eq_none

theorem extractWord_consumes : Consumes extractWord := by
  intro s w r h
  obtain ⟨ws, rfl, _, hw, _⟩ := extractWord_eq_some h
  have := List.length_pos_of_ne_nil hw.1
  simp only [List.length_append]
  omega

/-- The words of a text: what the loop `while(in >> str)` reads. -/
def words (s : Text) : List Text := readAll extractWord s

theorem extractWord_spaces {ws s : Text} (h : ∀ c ∈ ws, isSpace c = true) :
    extractWord (ws ++ s) = extractWord s := by
  induction ws with
  | nil => rfl
  | cons c ws ih =>
    rw [List.cons_append, extractWord_space (h c (by simp))]
    exact ih fun d hd => h d (by simp [hd])

theorem words_of_none {s : Text} (h : extractWord s = none) : words s = [] :=
  readAll_of_none extractWord_consumes h

theorem words_of_some {s w r : Text} (h : extractWord s = some (w, r)) :
    words s = w :: words r :=
  readAll_of_some extractWord_consumes h

@[simp] theorem words_nil : words [] = [] := rfl

theorem words_congr {s t : Text} (h : extractWord s = extractWord t) : words s = words t :=
  readAll_congr extractWord_consumes h

theorem words_space {c : Char} {s : Text} (h : isSpace c = true) : words (c :: s) = words s :=
  words_congr (extractWord_space h)

/-- A whitespace character separates: the words before it, then the words after. -/
theorem words_append_cons {c : Char} (hc : isSpace c = true) (a b : Text) :
    words (a ++ c :: b) = words a ++ words b := by
  -- one word at a time, on the length of what stands before the separator
  induction hn : a.length using Nat.strong_induction_on generalizing a with
  | _ n ih =>
    cases ha : extractWord a with
    | none =>
      have hsp := extractWord_none_iff.mp ha
      rw [words_of_none ha, List.nil_append,
        words_congr (extractWord_spaces (s := c :: b) hsp), words_space hc]
    | some p =>
      obtain ⟨w, r⟩ := p
      obtain ⟨ws, rfl, hws, hw, hr⟩ := extractWord_eq_some ha
      have hbreak : AtBreak (r ++ c :: b) := by
        cases r with
        | nil => exact atBreak_cons hc
        | cons d ds => exact atBreak_cons (hr d (by simp))
      have hread : extractWord (ws ++ (w ++ r) ++ c :: b) = some (w, r ++ c :: b) := by
        rw [List.append_assoc, extractWord_spaces hws, List.append_assoc]
        exact extractWord_word hw hbreak
      have hlt := extractWord_consumes _ _ _ ha
      rw [words_of_some ha, words_of_some hread, ih r.length (by omega) r rfl, List.cons_append]

/-- The text is empty or ends in whitespace. -/
def EndsInSpace (s : Text) : Prop := ∀ c ∈ s.getLast?, isSpace c = true

/-- Tokenising is compositional at whitespace. -/
theorem words_append {a b : Text} (ha : EndsInSpace a) : words (a ++ b) = words a ++ words b := by
  rcases List.eq_nil_or_concat a with rfl | ⟨a', c, rfl⟩
  · rfl
  · rw [List.concat_eq_append] at ha ⊢
    have hc : isSpace c = true := ha c (by simp)
    rw [List.append_assoc, List.singleton_append, words_append_cons hc, words_append_cons hc]
    simp

theorem words_word {w : Text} (h : IsWord w) : words w = [w] := by
  have hread := extractWord_word h atBreak_nil
  rw [List.append_nil] at hread
  rw [words_of_some hread, words_nil]

theorem isWord_of_mem_words {s w : Text} (h : w ∈ words s) : IsWord w := by
  induction hn : s.length using Nat.strong_induction_on generalizing s with
  | _ n ih =>
    cases hs : extractWord s with
    | none => rw [words_of_none hs] at h; simp at h
    | some p =>
      obtain ⟨v, r⟩ := p
      obtain ⟨_, _, _, hv, _⟩ := extractWord_eq_some hs
      rw [words_of_some hs, List.mem_cons] at h
      rcases h with rfl | h
      · exact hv
      · exact ih r.length (hn ▸ extractWord_consumes _ _ _ hs) h rfl

/-! ### Lines -/

def textLines (s : Text) : List Text := s.splitOn '\n'

/-- The lines of a text written line by line: after the last newline comes an empty one. -/
theorem textLines_flatMap {ls : List Text} (hls : ∀ l ∈ ls, '\n' ∉ l) :
    textLines (ls.flatMap fun l => l ++ ['\n']) = ls ++ [[]] := by
  induction ls with
  | nil => rfl
  | cons l ls ih =>
    have hcons : (l :: ls).flatMap (fun l => l ++ ['\n']) =
        l ++ '\n' :: ls.flatMap fun l => l ++ ['\n'] := by
      rw [List.flatMap_cons, List.append_assoc, List.singleton_append]
    rw [hcons, textLines, List.splitOn_append_cons_self_of_not_mem (hls l (by simp)),
      List.cons_append]
    exact congrArg (l :: ·) (ih fun l' hl' => hls l' (List.mem_cons_of_mem _ hl'))

/-! ### Three words at a time -/

/-- Three words at a time. -/
def readTriple (s : Text) : Option ((Text × Text × Text) × Text) := do
  let (a, s) ← extractWord s
  let (b, s) ← extractWord s
  let (c, s) ← extractWord s
  some ((a, b, c), s)

/-- Group a list by threes, dropping what is left over. -/
def triples {α : Type} : List α → List (α × α × α)
  | a :: b :: c :: l => (a, b, c) :: triples l
  | _ => []

theorem readTriple_consumes : Consumes readTriple := by
  intro s a r h
  simp only [readTriple, Option.bind_eq_bind, Option.bind_eq_some_iff, Option.some.injEq,
    Prod.mk.injEq, Prod.exists] at h
  obtain ⟨_, s₁, h1, _, s₂, h2, _, s₃, h3, _, rfl⟩ := h
  have := extractWord_consumes _ _ _ h1
  have := extractWord_consumes _ _ _ h2
  have := extractWord_consumes _ _ _ h3
  omega

/-- Reading three words at a time groups the words of the text by threes; one
or two words at the end are dropped. -/
theorem readAll_readTriple (s : Text) : readAll readTriple s = triples (words s) := by
  -- the loop stops where one of its three extractions fails
  induction hn : s.length using Nat.strong_induction_on generalizing s with
  | _ n ih =>
    cases h1 : extractWord s with
    | none =>
      rw [words_of_none h1, readAll_of_none readTriple_consumes (by simp [readTriple, h1])]
      rfl
    | some p₁ =>
      obtain ⟨a, s₁⟩ := p₁
      cases h2 : extractWord s₁ with
      | none =>
        rw [words_of_some h1, words_of_none h2,
          readAll_of_none readTriple_consumes (by simp [readTriple, h1, h2])]
        rfl
      | some p₂ =>
        obtain ⟨b, s₂⟩ := p₂
        cases h3 : extractWord s₂ with
        | none =>
          rw [words_of_some h1, words_of_some h2, words_of_none h3,
            readAll_of_none readTriple_consumes (by simp [readTriple, h1, h2, h3])]
          rfl
        | some p₃ =>
          obtain ⟨c, s₃⟩ := p₃
          have hread : readTriple s = some ((a, b, c), s₃) := by simp [readTriple, h1, h2, h3]
          have hlt := readTriple_consumes _ _ _ hread
          rw [words_of_some h1, words_of_some h2, words_of_some h3, triples,
            readAll_of_some readTriple_consumes hread, ih s₃.length (by omega) s₃ rfl]

/-! ### Printing and reading back an `int` -/

theorem scanSign_length_le (s : Text) : (scanSign s).2.length ≤ s.length := by
  cases s with
  | nil => exact le_rfl
  | cons c cs =>
    rw [scanSign]
    split
    · simp
    · split <;> simp

theorem scanInt_consumes : Consumes scanInt := by
  intro s n r h
  have hskip : (skipWs s).length ≤ s.length := (List.dropWhile_sublist _).length_le
  have hsign := scanSign_length_le (skipWs s)
  generalize hsg : scanSign (skipWs s) = sg at hsign
  obtain ⟨neg, t⟩ := sg
  simp only [scanInt, hsg] at h
  split at h
  · exact absurd h (by simp)
  · rename_i hds
    simp only [Option.some.injEq, Prod.mk.injEq] at h
    obtain ⟨_, rfl⟩ := h
    -- there is at least one digit, and it has been taken off
    have hlen := congrArg List.length (List.takeWhile_append_dropWhile (p := Char.isDigit) (l := t))
    have hpos := List.length_pos_of_ne_nil hds
    simp only [List.length_append] at hlen hsign
    omega

theorem extractInt_eq_some {s r : Text} {n : ℤ} (h : extractInt s = some (n, r)) :
    scanInt s = some (n, r) ∧ IsInt n := by
  rw [extractInt] at h
  split at h
  · exact absurd h (by simp)
  · rename_i m t hscan
    split at h
    · rename_i hint
      simp only [Option.some.injEq, Prod.mk.injEq] at h
      obtain ⟨rfl, rfl⟩ := h
      exact ⟨hscan, hint⟩
    · exact absurd h (by simp)

theorem extractInt_consumes : Consumes extractInt := fun s n r h =>
  scanInt_consumes s n r (extractInt_eq_some h).1

theorem isInt_of_stoi {s : Text} {n : ℤ} (h : stoi s = .ok n) : IsInt n := by
  rw [stoi] at h
  split at h
  · exact absurd h (by simp)
  · split at h
    · rename_i hint
      simp only [Except.ok.injEq] at h
      exact h ▸ hint
    · exact absurd h (by simp)

theorem isSpace_of_isDigit {c : Char} (h : c.isDigit = true) : isSpace c = false := by
  by_contra hc
  rw [Bool.not_eq_false] at hc
  simp only [isSpace, Bool.or_eq_true, decide_eq_true_eq] at hc
  rcases hc with ((((rfl | rfl) | rfl) | rfl) | rfl) | rfl <;> exact absurd h (by decide)

/-- No digit follows where a word ends. -/
theorem AtBreak.not_digit {r : Text} (h : AtBreak r) : ∀ c ∈ r.head?, c.isDigit = false := by
  intro c hc
  by_contra hdigit
  have hspace := h c hc
  rw [isSpace_of_isDigit (by simpa using hdigit)] at hspace
  simp at hspace

theorem isDigit_of_mem_printNat {n : ℕ} {c : Char} (h : c ∈ Nat.toDigits 10 n) :
    c.isDigit = true :=
  Nat.isDigit_of_mem_toDigits (by decide) (by decide) h

/-- Digits are scanned up to the next non-digit. -/
theorem scanDigits_append {ds r : Text} (hds : ∀ c ∈ ds, c.isDigit = true)
    (hr : ∀ c ∈ r.head?, c.isDigit = false) :
    (ds ++ r).takeWhile Char.isDigit = ds ∧ (ds ++ r).dropWhile Char.isDigit = r := by
  rw [List.takeWhile_append_of_pos hds, List.dropWhile_append_of_pos hds]
  cases r with
  | nil => simp
  | cons c cs =>
    have hc : c.isDigit = false := hr c (by simp)
    simp [hc]

/-- A sign before digits is taken off. -/
theorem scanSign_signed {sign digits r : Text} (hsign : sign = [] ∨ sign = ['+'] ∨ sign = ['-'])
    (hne : digits ≠ []) (hdigits : ∀ c ∈ digits, c.isDigit = true) :
    scanSign (sign ++ digits ++ r) = (decide (sign = ['-']), digits ++ r) := by
  rcases hsign with rfl | rfl | rfl
  · -- the first character is a digit, hence no sign
    obtain ⟨d, ds, rfl⟩ := List.exists_cons_of_ne_nil hne
    have hd := hdigits d List.mem_cons_self
    have hminus : d ≠ '-' := by
      rintro rfl
      exact absurd hd (by decide)
    have hplus : d ≠ '+' := by
      rintro rfl
      exact absurd hd (by decide)
    simp [scanSign, hminus, hplus]
  · rfl
  · rfl

theorem isWord_signed {sign digits : Text} (hsign : sign = [] ∨ sign = ['+'] ∨ sign = ['-'])
    (hne : digits ≠ []) (hdigits : ∀ c ∈ digits, c.isDigit = true) : IsWord (sign ++ digits) := by
  have hspace : ∀ c ∈ sign, isSpace c = false := by
    rcases hsign with rfl | rfl | rfl <;> simp [isSpace]
  refine ⟨by simp [hne], fun c hc => ?_⟩
  rcases List.mem_append.mp hc with hc | hc
  · exact hspace c hc
  · exact isSpace_of_isDigit (hdigits c hc)

/-- A sign and digits are scanned as a number, up to the next non-digit. -/
theorem scanInt_signed {sign digits r : Text} (hsign : sign = [] ∨ sign = ['+'] ∨ sign = ['-'])
    (hne : digits ≠ []) (hdigits : ∀ c ∈ digits, c.isDigit = true)
    (hr : ∀ c ∈ r.head?, c.isDigit = false) :
    scanInt (sign ++ digits ++ r) =
      some ((if sign = ['-'] then -1 else 1) * (Nat.ofDigitChars 10 digits 0 : ℤ), r) := by
  obtain ⟨htake, hdrop⟩ := scanDigits_append hdigits hr
  rw [scanInt, skipWs_word (isWord_signed hsign hne hdigits), scanSign_signed hsign hne hdigits]
  dsimp only
  rw [htake, hdrop, if_neg hne]
  by_cases hminus : sign = ['-'] <;> simp [hminus]

/-- A number is printed as its digits, after a minus if it has one. -/
theorem exists_sign_printInt (n : ℤ) :
    ∃ sign, printInt n = sign ++ Nat.toDigits 10 n.natAbs ∧
      (sign = [] ∨ sign = ['+'] ∨ sign = ['-']) ∧
      (if sign = ['-'] then -1 else 1) * (n.natAbs : ℤ) = n := by
  by_cases hn : n < 0
  · exact ⟨['-'], by simp [printInt, hn], .inr (.inr rfl), by rw [if_pos rfl]; omega⟩
  · exact ⟨[], by simp [printInt, hn], .inl rfl, by rw [if_neg (by simp)]; omega⟩

theorem isWord_printInt (n : ℤ) : IsWord (printInt n) := by
  obtain ⟨sign, hprint, hsign, _⟩ := exists_sign_printInt n
  rw [hprint]
  exact isWord_signed hsign Nat.toDigits_ne_nil fun _ => isDigit_of_mem_printNat

theorem scanInt_printInt (n : ℤ) {r : Text} (hr : ∀ c ∈ r.head?, c.isDigit = false) :
    scanInt (printInt n ++ r) = some (n, r) := by
  obtain ⟨sign, hprint, hsign, hval⟩ := exists_sign_printInt n
  rw [hprint, scanInt_signed hsign Nat.toDigits_ne_nil (fun _ => isDigit_of_mem_printNat) hr,
    Nat.ofDigitChars_ten_toDigits, hval]

/-- An `int` printed is read back, up to the next character that is no digit. -/
theorem extractInt_printInt {n : ℤ} (hn : IsInt n) {r : Text}
    (hr : ∀ c ∈ r.head?, c.isDigit = false) :
    extractInt (printInt n ++ r) = some (n, r) := by
  rw [extractInt, scanInt_printInt n hr]
  simp [hn]

theorem extractInt_printInt_self {n : ℤ} (hn : IsInt n) :
    extractInt (printInt n) = some (n, []) := by
  have h := extractInt_printInt hn (r := []) (by simp)
  rwa [List.append_nil] at h

theorem stoi_printInt {n : ℤ} (hn : IsInt n) : stoi (printInt n) = .ok n := by
  have hscan := scanInt_printInt n (r := []) (by simp)
  rw [List.append_nil] at hscan
  simp only [stoi, hscan, if_pos hn]

theorem extractInt_space {c : Char} {s : Text} (h : isSpace c = true) :
    extractInt (c :: s) = extractInt s := by
  rw [extractInt, extractInt, scanInt, scanInt, skipWs_space h]

example : stoi ['4', '2', 'x'] = .ok 42 := by decide

end TextStream
