/-
Decimal numbers, as a stream of `double`s reads and prints them, were a `double`
able to hold any decimal.

A number other than 0 is kept as a coefficient without trailing zeros and an
exponent, and 0 has no sign, so that numbers are equal exactly when their values
are (`val_injective`).  In the "C" locale:

* `extract` — `in >> x`: an optional sign, digits with an optional point, and an
  optional exponent; a text without digits, or an exponent without digits, sets
  `failbit`;
* `print` — `out << x` at a given precision: the number is rounded to so many
  significant digits, ties to even, and written without trailing zeros, in fixed
  format unless the exponent of its first digit is below -4 or not below the
  precision.

`extract_print`: what has been printed is read as the rounded number, which is the
number itself exactly when it has no more significant digits than the precision
(`round_eq_self_iff`).
-/
import SmartParking.Library.TextStream

open TextStream

/-- `coeff * 10 ^ exp`. -/
structure Decimal where
  coeff : ℤ
  exp : ℤ
  normal : ¬ 10 ∣ coeff ∨ (coeff = 0 ∧ exp = 0)
  deriving DecidableEq

namespace Decimal

instance : Zero Decimal := ⟨⟨0, 0, .inr ⟨rfl, rfl⟩⟩⟩

def val (d : Decimal) : ℚ := d.coeff * 10 ^ d.exp

/-! ### Normal form -/

theorem eq_of_coeff_eq {d d' : Decimal} {k : ℕ} (hcoeff : d.coeff = d'.coeff * 10 ^ k)
    (hexp : d'.exp = d.exp + k) : d = d' := by
  obtain ⟨c, e, hd⟩ := d
  obtain ⟨c', e', hd'⟩ := d'
  simp only at hcoeff hexp
  cases k with
  | zero =>
    simp only [pow_zero, mul_one, Nat.cast_zero, add_zero] at hcoeff hexp
    subst hcoeff hexp
    rfl
  | succ k =>
    -- a factor ten is left in the first coefficient
    have hten : 10 ∣ c := hcoeff ▸ Dvd.intro_left (c' * 10 ^ k) (by ring)
    obtain ⟨rfl, rfl⟩ := hd.resolve_left (fun hc => hc hten)
    have hzero : c' = 0 := by
      rcases mul_eq_zero.mp hcoeff.symm with hc | hc
      · exact hc
      · exact absurd hc (by positivity)
    obtain ⟨rfl, rfl⟩ := hd'.resolve_left (fun hc => hc (hzero ▸ dvd_zero 10))
    rfl

/-- Numbers are equal when their values are. -/
theorem val_injective : Function.Injective val := by
  have key : ∀ d d' : Decimal, d.val = d'.val → d.exp ≤ d'.exp → d = d' := by
    intro d d' h hle
    obtain ⟨k, hk⟩ := Int.le.dest hle
    refine eq_of_coeff_eq (k := k) ?_ hk.symm
    rw [val, val, ← hk, zpow_add₀ (by norm_num), mul_comm ((10 : ℚ) ^ d.exp), ← mul_assoc] at h
    have hcoeff := mul_right_cancel₀ (zpow_ne_zero d.exp (by norm_num)) h
    exact_mod_cast hcoeff
  intro d d' h
  rcases le_total d.exp d'.exp with hle | hle
  · exact key d d' h hle
  · exact (key d' d h.symm hle).symm

/-- Take factors of ten out of `n`, at most so many. -/
def strip : ℕ → ℤ → ℤ → ℤ × ℤ
  | 0, n, e => (n, e)
  | fuel + 1, n, e => if n % 10 = 0 then strip fuel (n / 10) (e + 1) else (n, e)

theorem strip_val (fuel : ℕ) (n e : ℤ) :
    ((strip fuel n e).1 : ℚ) * 10 ^ (strip fuel n e).2 = n * 10 ^ e := by
  induction fuel generalizing n e with
  | zero => rfl
  | succ fuel ih =>
    rw [strip]
    split
    · rename_i hten
      rw [ih, zpow_add₀ (by norm_num), zpow_one]
      have hn : (n : ℚ) = (n / 10 : ℤ) * 10 := by exact_mod_cast (by omega : n = n / 10 * 10)
      rw [hn]
      ring
    · rfl

theorem strip_normal {fuel : ℕ} {n e : ℤ} (hn : n ≠ 0) (hfuel : n.natAbs ≤ fuel) :
    ¬ 10 ∣ (strip fuel n e).1 := by
  induction fuel generalizing n e with
  | zero => omega
  | succ fuel ih =>
    rw [strip]
    split
    · exact ih (by omega) (by omega)
    · rename_i hten
      exact fun hc => hten (Int.emod_eq_zero_of_dvd hc)

theorem natAbs_strip_le (fuel : ℕ) (n e : ℤ) : (strip fuel n e).1.natAbs ≤ n.natAbs := by
  induction fuel generalizing n e with
  | zero => exact le_rfl
  | succ fuel ih =>
    rw [strip]
    split
    · exact (ih _ _).trans (by omega)
    · exact le_rfl

/-- The number of value `n * 10 ^ e`. -/
def ofScaled (n e : ℤ) : Decimal :=
  if hn : n = 0 then 0
  else ⟨(strip n.natAbs n e).1, (strip n.natAbs n e).2, .inl (strip_normal hn le_rfl)⟩

theorem val_ofScaled (n e : ℤ) : (ofScaled n e).val = n * 10 ^ e := by
  rw [ofScaled]
  split
  · rename_i hn
    rw [hn, val]
    show ((0 : ℤ) : ℚ) * 10 ^ (0 : ℤ) = _
    simp
  · exact strip_val _ _ _

theorem natAbs_coeff_ofScaled_le (n e : ℤ) : (ofScaled n e).coeff.natAbs ≤ n.natAbs := by
  rw [ofScaled]
  split
  · exact Nat.zero_le _
  · exact natAbs_strip_le _ _ _

/-- Zeros at the end of the coefficient do not matter. -/
theorem ofScaled_mul_pow (d : Decimal) (j : ℕ) :
    ofScaled (d.coeff * 10 ^ j) (d.exp - j) = d := by
  refine val_injective ?_
  rw [val_ofScaled, val, zpow_sub₀ (by norm_num), zpow_natCast]
  push_cast
  field_simp

/-! ### Significant digits -/

/-- A number with at most `p` significant digits. -/
def HasDigits (p : ℕ) (d : Decimal) : Prop := ∃ m e : ℤ, |m| < 10 ^ p ∧ d.val = m * 10 ^ e

theorem hasDigits_iff {p : ℕ} {d : Decimal} : d.HasDigits p ↔ d.coeff.natAbs < 10 ^ p := by
  have habs : ∀ m : ℤ, |m| < 10 ^ p ↔ m.natAbs < 10 ^ p := by
    intro m
    rw [Int.abs_eq_natAbs]
    exact_mod_cast Iff.rfl
  constructor
  · rintro ⟨m, e, hm, hval⟩
    -- no other coefficient of the same value is smaller
    obtain rfl : ofScaled m e = d := val_injective (by rw [val_ofScaled, hval])
    exact (natAbs_coeff_ofScaled_le m e).trans_lt ((habs m).mp hm)
  · exact fun h => ⟨d.coeff, d.exp, (habs _).mpr h, rfl⟩

instance (p : ℕ) (d : Decimal) : Decidable (d.HasDigits p) :=
  decidable_of_iff (d.coeff.natAbs < 10 ^ p) hasDigits_iff.symm

/-- The digits of the coefficient. -/
def digits (d : Decimal) : Text := Nat.toDigits 10 d.coeff.natAbs

theorem length_digits_le_iff {p : ℕ} (hp : 0 < p) {d : Decimal} :
    d.digits.length ≤ p ↔ d.HasDigits p := by
  rw [digits, Nat.length_toDigits_le_iff (by omega) hp, hasDigits_iff]

/-- `n / m` to the nearest, ties to even. -/
def halfEven (n m : ℕ) : ℕ :=
  if 2 * (n % m) < m ∨ (2 * (n % m) = m ∧ n / m % 2 = 0) then n / m else n / m + 1

theorem halfEven_le {n m k : ℕ} (h : n < m * k) : halfEven n m ≤ k := by
  have hdiv : n / m < k := Nat.div_lt_of_lt_mul h
  rw [halfEven]
  split <;> omega

/-- Round to `p` significant digits. -/
def round (p : ℕ) (d : Decimal) : Decimal :=
  let excess := d.digits.length - p
  if excess = 0 then d
  else ofScaled (d.coeff.sign * halfEven d.coeff.natAbs (10 ^ excess)) (d.exp + excess)

theorem natAbs_sign_le (n : ℤ) : n.sign.natAbs ≤ 1 := by
  rcases lt_trichotomy n 0 with hn | rfl | hn
  · simp [Int.sign_eq_neg_one_of_neg hn]
  · simp
  · simp [Int.sign_eq_one_of_pos hn]

theorem hasDigits_ofScaled {p : ℕ} (hp : 0 < p) {m : ℤ} (hm : m.natAbs ≤ 10 ^ p) (e : ℤ) :
    (ofScaled m e).HasDigits p := by
  have hpow : 1 < 10 ^ p := Nat.one_lt_pow hp.ne' (by decide)
  rcases hm.lt_or_eq with hlt | heq
  · exact ⟨m, e, by rw [Int.abs_eq_natAbs]; exact_mod_cast hlt, val_ofScaled m e⟩
  · -- all digits 9 have been rounded up
    refine ⟨m.sign, e + p, ?_, ?_⟩
    · rw [Int.abs_eq_natAbs]
      exact_mod_cast (natAbs_sign_le m).trans_lt hpow
    · rw [val_ofScaled, zpow_add₀ (by norm_num), zpow_natCast]
      have hsign : (m : ℚ) = m.sign * 10 ^ p := by
        have := Int.sign_mul_natAbs m
        rw [heq] at this
        exact_mod_cast this.symm
      rw [hsign]
      ring

theorem hasDigits_round {p : ℕ} (hp : 0 < p) (d : Decimal) : (d.round p).HasDigits p := by
  rw [round]
  split
  · rename_i hexcess
    exact (length_digits_le_iff hp).mp (by omega)
  · rename_i hexcess
    refine hasDigits_ofScaled hp ?_ _
    have hlt : d.coeff.natAbs < 10 ^ d.digits.length :=
      (Nat.length_toDigits_le_iff (by omega) (by omega)).mp le_rfl
    have hpow : 10 ^ d.digits.length = 10 ^ (d.digits.length - p) * 10 ^ p := by
      rw [← pow_add]
      congr 1
      omega
    rw [Int.natAbs_mul, Int.natAbs_natCast]
    refine (Nat.mul_le_mul_right _ (natAbs_sign_le _)).trans ?_
    rw [one_mul]
    exact halfEven_le (hpow ▸ hlt)

/-- Rounding alters a number exactly when it has more digits. -/
theorem round_eq_self_iff {p : ℕ} (hp : 0 < p) {d : Decimal} : d.round p = d ↔ d.HasDigits p := by
  constructor
  · intro h
    rw [← h]
    exact hasDigits_round hp d
  · intro h
    have hle := (length_digits_le_iff hp).mpr h
    rw [round, if_pos (by omega)]

/-! ### Reading -/

/-- A decimal point and the digits after it, if there is one. -/
def scanPoint (s : Text) : Text × Text :=
  match s with
  | [] => ([], [])
  | c :: cs =>
    if c = '.' then (cs.takeWhile Char.isDigit, cs.dropWhile Char.isDigit) else ([], c :: cs)

/-- An exponent, 0 if there is none. -/
def scanExponent (s : Text) : Option (ℤ × Text) :=
  match s with
  | [] => some (0, [])
  | c :: cs =>
    if c = 'e' ∨ c = 'E' then
      let (neg, r) := scanSign cs
      let ds := r.takeWhile Char.isDigit
      let n : ℤ := Nat.ofDigitChars 10 ds 0
      if ds = [] then none else some (if neg then -n else n, r.dropWhile Char.isDigit)
    else some (0, c :: cs)

/-- `in >> x` for a `double`, without a bound on the exponent. -/
def extract (s : Text) : Option (Decimal × Text) :=
  let (neg, r) := scanSign (skipWs s)
  let int := r.takeWhile Char.isDigit
  let (frac, r) := scanPoint (r.dropWhile Char.isDigit)
  let n : ℤ := Nat.ofDigitChars 10 (int ++ frac) 0
  if int ++ frac = [] then none
  else
    match scanExponent r with
    | none => none
    | some (e, r) => some (ofScaled (if neg then -n else n) (e - frac.length), r)

theorem extract_space {c : Char} {s : Text} (h : isSpace c = true) :
    extract (c :: s) = extract s := by
  rw [extract, extract, skipWs_space h]

theorem scanPoint_length (s : Text) :
    (scanPoint s).1.length + (scanPoint s).2.length ≤ s.length := by
  cases s with
  | nil => exact le_rfl
  | cons c cs =>
    have hlen := congrArg List.length
      (List.takeWhile_append_dropWhile (p := Char.isDigit) (l := cs))
    rw [List.length_append] at hlen
    rw [scanPoint]
    split
    · simp only [List.length_cons]
      omega
    · simp

theorem scanExponent_length {s r : Text} {e : ℤ} (h : scanExponent s = some (e, r)) :
    r.length ≤ s.length := by
  cases s with
  | nil =>
    simp only [scanExponent, Option.some.injEq, Prod.mk.injEq] at h
    rw [← h.2]
  | cons c cs =>
    rw [scanExponent] at h
    split at h
    · have hsign := scanSign_length_le cs
      generalize scanSign cs = sg at h hsign
      obtain ⟨neg, t⟩ := sg
      dsimp only at h hsign
      split at h
      · exact absurd h (by simp)
      · simp only [Option.some.injEq, Prod.mk.injEq] at h
        obtain ⟨_, rfl⟩ := h
        have hdrop := (List.dropWhile_sublist Char.isDigit (l := t)).length_le
        simp only [List.length_cons]
        omega
    · simp only [Option.some.injEq, Prod.mk.injEq] at h
      rw [← h.2]

theorem extract_consumes : Consumes extract := by
  intro s d r h
  have hskip : (skipWs s).length ≤ s.length := (List.dropWhile_sublist _).length_le
  have hsign := scanSign_length_le (skipWs s)
  rw [extract] at h
  generalize scanSign (skipWs s) = sg at h hsign
  obtain ⟨neg, t⟩ := sg
  have hlen := congrArg List.length (List.takeWhile_append_dropWhile (p := Char.isDigit) (l := t))
  have hpoint := scanPoint_length (t.dropWhile Char.isDigit)
  dsimp only at h hsign
  generalize scanPoint (t.dropWhile Char.isDigit) = sp at h hpoint
  obtain ⟨frac, u⟩ := sp
  dsimp only at h hpoint
  split at h
  · exact absurd h (by simp)
  · rename_i hdigits
    split at h
    · exact absurd h (by simp)
    · rename_i e r' hexp
      simp only [Option.some.injEq, Prod.mk.injEq] at h
      obtain ⟨_, rfl⟩ := h
      -- there is at least one digit
      have hle := scanExponent_length hexp
      have hpos := List.length_pos_of_ne_nil hdigits
      simp only [List.length_append] at hlen hpos
      omega

/-! ### Printing -/

def pointText (frac : Text) : Text := if frac = [] then [] else '.' :: frac

/-- At least two digits. -/
def exponentText (x : ℤ) : Text :=
  'e' :: (if x < 0 then '-' else '+') ::
    (if x.natAbs < 10 then '0' :: Nat.toDigits 10 x.natAbs else Nat.toDigits 10 x.natAbs)

/-- The digits before and after the point. -/
def fixedDigits (d : Decimal) : Text × Text :=
  let point := d.exp + d.digits.length
  if 0 ≤ d.exp then (d.digits ++ List.replicate d.exp.toNat '0', [])
  else if 0 < point then (d.digits.take point.toNat, d.digits.drop point.toNat)
  else (['0'], List.replicate (-point).toNat '0' ++ d.digits)

/-- `out << x` at precision `p`. -/
def print (p : ℕ) (d : Decimal) : Text :=
  let r := d.round p
  -- the exponent of the first digit
  let x := r.exp + r.digits.length - 1
  let sign := if r.coeff < 0 then ['-'] else []
  if x < -4 ∨ p ≤ x then
    sign ++ (r.digits.take 1 ++ (pointText (r.digits.drop 1) ++ exponentText x))
  else sign ++ (r.fixedDigits.1 ++ pointText r.fixedDigits.2)

/-! ### What is printed is read -/

/-- A point is not followed by another one. -/
def EndsNumber (r : Text) : Prop := ∀ c ∈ r.head?, c.isDigit = false ∧ c ≠ '.'

theorem endsNumber_pointText (frac : Text) {r : Text} (hr : EndsNumber r) :
    ∀ c ∈ (pointText frac ++ r).head?, c.isDigit = false := by
  intro c hc
  rw [pointText] at hc
  split at hc
  · exact (hr c hc).1
  · simp only [List.cons_append, List.head?_cons, Option.mem_def, Option.some.injEq] at hc
    subst hc
    decide

theorem scanPoint_pointText {frac r : Text} (hfrac : ∀ c ∈ frac, c.isDigit = true)
    (hr : EndsNumber r) : scanPoint (pointText frac ++ r) = (frac, r) := by
  rw [pointText]
  split
  · rename_i hnil
    rw [hnil, List.nil_append]
    cases r with
    | nil => rfl
    | cons c cs => rw [scanPoint, if_neg (hr c (by simp)).2]
  · obtain ⟨htake, hdrop⟩ := scanDigits_append hfrac fun c hc => (hr c hc).1
    rw [List.cons_append, scanPoint, if_pos rfl, htake, hdrop]

theorem atBreak_endsNumber {r : Text} (h : AtBreak r) : EndsNumber r := by
  intro c hc
  refine ⟨h.not_digit c hc, ?_⟩
  rintro rfl
  exact absurd (h _ hc) (by decide)

theorem scanExponent_atBreak {r : Text} (h : AtBreak r) : scanExponent r = some (0, r) := by
  cases r with
  | nil => rfl
  | cons c cs =>
    have hspace := h c (by simp)
    have hc : ¬ (c = 'e' ∨ c = 'E') := by
      rintro (rfl | rfl) <;> exact absurd hspace (by decide)
    rw [scanExponent, if_neg hc]

theorem scanExponent_exponentText (x : ℤ) {r : Text} (hr : AtBreak r) :
    scanExponent (exponentText x ++ r) = some (x, r) := by
  have hdigits : ∀ ds, (ds = '0' :: Nat.toDigits 10 x.natAbs ∨ ds = Nat.toDigits 10 x.natAbs) →
      (∀ c ∈ ds, c.isDigit = true) ∧ ds ≠ [] ∧ Nat.ofDigitChars 10 ds 0 = x.natAbs := by
    rintro ds (rfl | rfl)
    · refine ⟨fun c hc => ?_, by simp, ?_⟩
      · rcases List.mem_cons.mp hc with rfl | hc
        · decide
        · exact isDigit_of_mem_printNat hc
      · rw [Nat.ofDigitChars_cons]
        exact Nat.ofDigitChars_ten_toDigits
    · exact ⟨fun c => isDigit_of_mem_printNat, Nat.toDigits_ne_nil, Nat.ofDigitChars_ten_toDigits⟩
  obtain ⟨hall, hne, hval⟩ := hdigits (if x.natAbs < 10 then '0' :: Nat.toDigits 10 x.natAbs
    else Nat.toDigits 10 x.natAbs) (by split <;> simp)
  obtain ⟨htake, hdrop⟩ := scanDigits_append hall hr.not_digit
  rw [exponentText, List.cons_append, List.cons_append, scanExponent, if_pos (.inl rfl)]
  by_cases hx : x < 0
  · simp only [if_pos hx, scanSign, if_true, htake, hdrop, hval, hne, if_false]
    rw [show -((x.natAbs : ℕ) : ℤ) = x by omega]
  · simp only [if_neg hx, scanSign, show ¬ '+' = '-' by decide, if_true, htake, hdrop, hval, hne,
      if_false, Bool.false_eq_true]
    rw [show ((x.natAbs : ℕ) : ℤ) = x by omega]

/-- Reading a sign, digits with a point between them, and an exponent. -/
theorem extract_text (neg : Bool) {int frac tail r : Text} {e : ℤ} (hne : int ≠ [])
    (hint : ∀ c ∈ int, c.isDigit = true) (hfrac : ∀ c ∈ frac, c.isDigit = true)
    (htail : EndsNumber tail) (hexp : scanExponent tail = some (e, r)) :
    extract ((if neg then ['-'] else []) ++ (int ++ (pointText frac ++ tail))) =
      some (ofScaled (if neg then -(Nat.ofDigitChars 10 (int ++ frac) 0 : ℤ)
        else Nat.ofDigitChars 10 (int ++ frac) 0) (e - frac.length), r) := by
  obtain ⟨htake, hdrop⟩ := scanDigits_append hint (endsNumber_pointText frac htail)
  have hpoint := scanPoint_pointText hfrac htail
  have hnil : int ++ frac ≠ [] := by simp [hne]
  have hsign : scanSign (skipWs ((if neg then ['-'] else []) ++
      (int ++ (pointText frac ++ tail)))) = (neg, int ++ (pointText frac ++ tail)) := by
    -- a sign if there is one, and digits: a word, of which the sign is taken off
    have hs : (if neg then ['-'] else []) = [] ∨ (if neg then ['-'] else []) = ['+'] ∨
        (if neg then ['-'] else []) = ['-'] := by
      cases neg <;> simp
    have hminus : decide ((if neg then ['-'] else []) = ['-']) = neg := by
      cases neg <;> simp
    rw [← List.append_assoc, skipWs_word (isWord_signed hs hne hint), scanSign_signed hs hne hint,
      hminus]
  rw [extract, hsign]
  simp only [htake, hdrop, hpoint, hexp, hnil, if_false]

theorem isDigit_of_mem_digits {d : Decimal} : ∀ c ∈ d.digits, c.isDigit = true :=
  fun _ => isDigit_of_mem_printNat

theorem digits_ne_nil (d : Decimal) : d.digits ≠ [] := Nat.toDigits_ne_nil

theorem ofDigitChars_digits (d : Decimal) : Nat.ofDigitChars 10 d.digits 0 = d.coeff.natAbs :=
  Nat.ofDigitChars_ten_toDigits

/-- Digits that are those of `d` up to zeros at their end are read as `d`. -/
theorem extract_digits {d : Decimal} {int frac tail r : Text} {e : ℤ} {j : ℕ} (hne : int ≠ [])
    (hint : ∀ c ∈ int, c.isDigit = true) (hfrac : ∀ c ∈ frac, c.isDigit = true)
    (hval : Nat.ofDigitChars 10 (int ++ frac) 0 = d.coeff.natAbs * 10 ^ j)
    (hpoint : e - frac.length = d.exp - j) (htail : EndsNumber tail)
    (hexp : scanExponent tail = some (e, r)) :
    extract ((if d.coeff < 0 then ['-'] else []) ++ (int ++ (pointText frac ++ tail))) =
      some (d, r) := by
  have h := extract_text (decide (d.coeff < 0)) hne hint hfrac htail hexp
  simp only [decide_eq_true_eq] at h
  have hcoeff : (if d.coeff < 0 then -((d.coeff.natAbs * 10 ^ j : ℕ) : ℤ)
      else ((d.coeff.natAbs * 10 ^ j : ℕ) : ℤ)) = d.coeff * 10 ^ j := by
    push_cast
    split
    · rw [abs_of_neg ‹_›, neg_mul, neg_neg]
    · rw [abs_of_nonneg (not_lt.mp ‹_›)]
  rw [h, hval, hpoint, hcoeff, ofScaled_mul_pow]

/-- The two parts of a number in fixed format are its digits, with zeros added. -/
theorem fixedDigits_spec (d : Decimal) :
    d.fixedDigits.1 ≠ [] ∧ (∀ c ∈ d.fixedDigits.1, c.isDigit = true) ∧
      (∀ c ∈ d.fixedDigits.2, c.isDigit = true) ∧
      ∃ j : ℕ, Nat.ofDigitChars 10 (d.fixedDigits.1 ++ d.fixedDigits.2) 0 =
          d.coeff.natAbs * 10 ^ j ∧ (0 : ℤ) - d.fixedDigits.2.length = d.exp - j := by
  have hdigits := isDigit_of_mem_digits (d := d)
  have hzeros : ∀ k, ∀ c ∈ List.replicate k '0', c.isDigit = true := by
    intro k c hc
    rw [(List.mem_replicate.mp hc).2]
    decide
  rw [fixedDigits]
  split
  · -- a whole number
    rename_i hexp
    refine ⟨by simp [digits_ne_nil], fun c hc => ?_, by simp, d.exp.toNat, ?_, ?_⟩
    · exact (List.mem_append.mp hc).elim (hdigits c) (hzeros _ c)
    · rw [List.append_nil, Nat.ofDigitChars_append, ofDigitChars_digits,
        Nat.ofDigitChars_replicate_zero, mul_comm]
    · simp only [List.length_nil]
      omega
  · rename_i hexp
    split
    · -- the point stands among the digits
      rename_i hpoint
      refine ⟨?_, fun c hc => hdigits c (List.mem_of_mem_take hc),
        fun c hc => hdigits c (List.mem_of_mem_drop hc), 0, ?_, ?_⟩
      · rw [Ne, List.take_eq_nil_iff, not_or]
        exact ⟨by omega, digits_ne_nil d⟩
      · rw [List.take_append_drop, ofDigitChars_digits, pow_zero, mul_one]
      · rw [List.length_drop]
        omega
    · -- all digits stand behind the point
      refine ⟨by simp, by simp, fun c hc => ?_, 0, ?_, ?_⟩
      · exact (List.mem_append.mp hc).elim (hzeros _ c) (hdigits c)
      · rw [List.singleton_append, Nat.ofDigitChars_cons, Nat.ofDigitChars_append,
          Nat.ofDigitChars_replicate_zero]
        simp [ofDigitChars_digits]
      · rw [List.length_append, List.length_replicate]
        omega

theorem not_space_of_mem_pointText {frac : Text} (hfrac : ∀ c ∈ frac, c.isDigit = true) :
    ∀ c ∈ pointText frac, isSpace c = false := by
  intro c hc
  rw [pointText] at hc
  split at hc
  · simp at hc
  · rcases List.mem_cons.mp hc with rfl | hc
    · decide
    · exact isSpace_of_isDigit (hfrac c hc)

theorem not_space_of_mem_exponentText (x : ℤ) : ∀ c ∈ exponentText x, isSpace c = false := by
  intro c hc
  rw [exponentText, List.mem_cons, List.mem_cons] at hc
  rcases hc with rfl | rfl | hc
  · decide
  · split <;> decide
  · split at hc
    · rcases List.mem_cons.mp hc with rfl | hc
      · decide
      · exact isSpace_of_isDigit (isDigit_of_mem_printNat hc)
    · exact isSpace_of_isDigit (isDigit_of_mem_printNat hc)

/-- A number is printed as one word. -/
theorem isWord_print (p : ℕ) (d : Decimal) : IsWord (print p d) := by
  rw [print]
  generalize d.round p = q
  have hdigits := isDigit_of_mem_digits (d := q)
  have hsign : ∀ c ∈ (if q.coeff < 0 then ['-'] else []), isSpace c = false := by
    intro c hc
    split at hc
    · rw [List.mem_singleton.mp hc]
      decide
    · simp at hc
  split
  · refine ⟨by simp [digits_ne_nil], fun c hc => ?_⟩
    simp only [List.mem_append] at hc
    rcases hc with hc | hc | hc | hc
    · exact hsign c hc
    · exact isSpace_of_isDigit (hdigits c (List.mem_of_mem_take hc))
    · exact not_space_of_mem_pointText (fun c hc => hdigits c (List.mem_of_mem_drop hc)) c hc
    · exact not_space_of_mem_exponentText _ c hc
  · obtain ⟨hne, hint, hfrac, _⟩ := fixedDigits_spec q
    refine ⟨by simp [hne], fun c hc => ?_⟩
    simp only [List.mem_append] at hc
    rcases hc with hc | hc | hc
    · exact hsign c hc
    · exact isSpace_of_isDigit (hint c hc)
    · exact not_space_of_mem_pointText hfrac c hc

/-- **What is printed is read** as the number that it was rounded to. -/
theorem extract_print {p : ℕ} (d : Decimal) {r : Text} (hr : AtBreak r) :
    extract (print p d ++ r) = some (d.round p, r) := by
  rw [print]
  generalize d.round p = q
  have hdigits := isDigit_of_mem_digits (d := q)
  split
  · -- scientific
    have htail : EndsNumber (exponentText (q.exp + q.digits.length - 1) ++ r) := by
      intro c hc
      obtain rfl : 'e' = c := by simpa [exponentText] using hc
      decide
    have hlen := List.length_pos_of_ne_nil (digits_ne_nil q)
    simp only [List.append_assoc]
    refine extract_digits (j := 0) ?_ (fun c hc => hdigits c (List.mem_of_mem_take hc))
      (fun c hc => hdigits c (List.mem_of_mem_drop hc)) ?_ ?_ htail
      (scanExponent_exponentText _ hr)
    · simp [digits_ne_nil]
    · rw [List.take_append_drop, ofDigitChars_digits, pow_zero, mul_one]
    · rw [List.length_drop]
      omega
  · obtain ⟨hne, hint, hfrac, j, hval, hpoint⟩ := fixedDigits_spec q
    simp only [List.append_assoc]
    exact extract_digits hne hint hfrac hval hpoint (atBreak_endsNumber hr)
      (scanExponent_atBreak hr)

example : print 6 (ofScaled (-303244567) (-7)) = "-30.3245".toList := by decide +kernel

example : extract "9999995e-14;".toList = some (ofScaled 9999995 (-14), [';']) ∧
    print 6 (ofScaled 9999995 (-14)) = "1e-07".toList := by decide +kernel

end Decimal
