import SXP.Lib.Text

/-!
# Reading numerals

`new BigInteger(text)` and `Integer.parseInt(text)`: a sign may come first, at least one digit
follows, and the digits are those of any script.  What was written with `toString` is read again
as it was (`ofText_decimal`, `parseInt_decimal`).  With the base `16` a decimal numeral is read as
another number, unless it has one digit (`asHex_eq_iff`).
-/

namespace SXP.Lib.Numeral

open Java Text

/-- The zeros of the scripts; the other nine digits follow each of them. -/
def zeros : List ℕ :=
  [0x30, 0x660, 0x6F0, 0x7C0, 0x966, 0x9E6, 0xA66, 0xAE6, 0xB66, 0xBE6, 0xC66, 0xCE6, 0xD66, 0xE50,
    0xED0, 0xF20, 0x1040, 0x1090, 0x17E0, 0x1810, 0x1946, 0x19D0, 0x1A80, 0x1A90, 0x1B50, 0x1BB0,
    0x1C40, 0x1C50, 0xA620, 0xA8D0, 0xA900, 0xA9D0, 0xAA50, 0xABF0, 0xFF10]

/-- `Character.digit(c, 10)`. -/
def digit (c : Char) : Option ℕ :=
  zeros.findSome? fun first =>
    if first ≤ c.toNat ∧ c.toNat < first + 10 then some (c.toNat - first) else none

/-- The number that digits spell after those that spell `n`. -/
def digitsFrom (n : ℕ) : List Char → Java ℕ
  | [] => pure n
  | c :: cs =>
      match digit c with
      | none => throw .numberFormat
      | some d => digitsFrom (10 * n + d) cs

/-- The number that digits spell, at least one of them. -/
def magnitude : List Char → Java ℕ
  | [] => throw .numberFormat
  | c :: cs => digitsFrom 0 (c :: cs)

/-- `new BigInteger(text)`. -/
def ofText (text : String) : Java ℤ :=
  match text.toList with
  | [] => throw .numberFormat
  | c :: cs =>
      if c = '-' then do
        let n ← magnitude cs
        return -(n : ℤ)
      else if c = '+' then do
        let n ← magnitude cs
        return (n : ℤ)
      else do
        let n ← magnitude (c :: cs)
        return (n : ℤ)

/-- `Integer.parseInt(text)`; no text is no numeral. -/
def parseInt : Option String → Java ℤ
  | none => throw .numberFormat
  | some text => do
      let n ← ofText text
      if -2 ^ 31 ≤ n ∧ n < 2 ^ 31 then return n else throw .numberFormat

theorem digit_ascii {c : Char} (h : c.isDigit = true) : digit c = some (c.toNat - '0'.toNat) := by
  rw [Char.isDigit, Bool.and_eq_true, decide_eq_true_eq, decide_eq_true_eq] at h
  have hlow : 48 ≤ c.toNat := h.1
  have hhigh : c.toNat ≤ 57 := h.2
  unfold digit zeros
  rw [List.findSome?_cons, if_pos (by omega)]
  rfl

theorem digitsFrom_ascii {l : List Char} (h : ∀ c ∈ l, c.isDigit = true) (n : ℕ) :
    digitsFrom n l = .ok (Nat.ofDigitChars 10 l n) := by
  induction l generalizing n with
  | nil => rw [digitsFrom, Nat.ofDigitChars_nil, pure_eq]
  | cons c l ih =>
    obtain ⟨hc, hl⟩ := List.forall_mem_cons.mp h
    rw [digitsFrom, digit_ascii hc, Nat.ofDigitChars_cons]
    exact ih hl _

theorem magnitude_toDigits (n : ℕ) : magnitude (Nat.toDigits 10 n) = .ok n := by
  have hdigits : ∀ c ∈ Nat.toDigits 10 n, c.isDigit = true :=
    fun c hc => Nat.isDigit_of_mem_toDigits (by decide) (by decide) hc
  have hread := digitsFrom_ascii hdigits 0
  rw [Nat.ofDigitChars_ten_toDigits] at hread
  cases hl : Nat.toDigits 10 n with
  | nil => exact absurd hl Nat.toDigits_ne_nil
  | cons c cs =>
    rw [hl] at hread
    exact hread

/-- A sign, and what `read` makes of the digits. -/
def signed (read : List Char → Java ℕ) (text : String) : Java ℤ :=
  match text.toList with
  | [] => throw .numberFormat
  | c :: cs =>
      if c = '-' then do
        let n ← read cs
        return -(n : ℤ)
      else if c = '+' then do
        let n ← read cs
        return (n : ℤ)
      else do
        let n ← read (c :: cs)
        return (n : ℤ)

theorem signed_decimal {read : List Char → Java ℕ} {value : ℕ → ℕ}
    (h : ∀ n, read (Nat.toDigits 10 n) = .ok (value n)) (n : ℤ) : signed read (decimal n) =
      .ok (if 0 ≤ n then (value n.toNat : ℤ) else -(value (-n).toNat : ℤ)) := by
  unfold signed
  rcases le_or_gt 0 n with hn | hn
  · have hread := h n.toNat
    rw [decimal_toList hn, if_pos hn]
    cases hl : Nat.toDigits 10 n.toNat with
    | nil => exact absurd hl Nat.toDigits_ne_nil
    | cons c cs =>
      have hdigit : c.isDigit = true :=
        Nat.isDigit_of_mem_toDigits (n := n.toNat) (by decide) (by decide) (hl ▸ List.mem_cons_self)
      have hminus : c ≠ '-' := by
        rintro rfl
        exact absurd hdigit (by decide)
      have hplus : c ≠ '+' := by
        rintro rfl
        exact absurd hdigit (by decide)
      rw [hl] at hread
      dsimp only
      rw [if_neg hminus, if_neg hplus, hread, ok_bind, pure_eq]
  · rw [decimal_toList_neg hn, if_neg (not_le.mpr hn)]
    dsimp only
    rw [if_pos rfl, h, ok_bind, pure_eq]

/-- **A number that is written is read again.** -/
theorem ofText_decimal (n : ℤ) : ofText (decimal n) = .ok n := by
  have hread : ofText (decimal n) = signed magnitude (decimal n) := rfl
  rw [hread, signed_decimal magnitude_toDigits]
  rcases le_or_gt 0 n with hn | hn
  · rw [if_pos hn, Int.toNat_of_nonneg hn]
  · rw [if_neg (not_le.mpr hn), Int.toNat_of_nonneg (by omega), neg_neg]

theorem parseInt_decimal {n : ℤ} (hlow : -2 ^ 31 ≤ n) (hhigh : n < 2 ^ 31) :
    parseInt (some (decimal n)) = .ok n := by
  rw [parseInt, ofText_decimal, ok_bind, if_pos ⟨hlow, hhigh⟩, pure_eq]

/-! ### The base 16 -/

/-- The first letters that are digits, in both widths. -/
def letters : List ℕ := [0x41, 0x61, 0xFF21, 0xFF41]

/-- `Character.digit(c, 16)`. -/
def hexDigit (c : Char) : Option ℕ :=
  (digit c).or (letters.findSome? fun a =>
    if a ≤ c.toNat ∧ c.toNat < a + 6 then some (c.toNat - a + 10) else none)

def hexFrom (n : ℕ) : List Char → Java ℕ
  | [] => pure n
  | c :: cs =>
      match hexDigit c with
      | none => throw .numberFormat
      | some d => hexFrom (16 * n + d) cs

def hexMagnitude : List Char → Java ℕ
  | [] => throw .numberFormat
  | c :: cs => hexFrom 0 (c :: cs)

/-- `new BigInteger(text, 16)`. -/
def ofHex (text : String) : Java ℤ := signed hexMagnitude text

/-- The number that the decimal digits of `n` spell with the base `16`. -/
def hexValue (n : ℕ) : ℕ := Nat.ofDigitChars 16 (Nat.toDigits 10 n) 0

/-- What a decimal numeral is read as with the base `16`. -/
def asHex (n : ℤ) : ℤ := if 0 ≤ n then (hexValue n.toNat : ℤ) else -(hexValue (-n).toNat : ℤ)

theorem hexFrom_ascii {l : List Char} (h : ∀ c ∈ l, c.isDigit = true) (n : ℕ) :
    hexFrom n l = .ok (Nat.ofDigitChars 16 l n) := by
  induction l generalizing n with
  | nil => rw [hexFrom, Nat.ofDigitChars_nil, pure_eq]
  | cons c l ih =>
    obtain ⟨hc, hl⟩ := List.forall_mem_cons.mp h
    rw [hexFrom, hexDigit, digit_ascii hc, Nat.ofDigitChars_cons]
    exact ih hl _

theorem hexMagnitude_toDigits (n : ℕ) : hexMagnitude (Nat.toDigits 10 n) = .ok (hexValue n) := by
  have hread := hexFrom_ascii
    (fun c hc => Nat.isDigit_of_mem_toDigits (n := n) (b := 10) (by decide) (by decide) hc) 0
  cases hl : Nat.toDigits 10 n with
  | nil => exact absurd hl Nat.toDigits_ne_nil
  | cons c cs =>
    rw [hexValue, ← hread, hl]
    rfl

theorem ofHex_decimal (n : ℤ) : ofHex (decimal n) = .ok (asHex n) :=
  signed_decimal hexMagnitude_toDigits n

theorem hexValue_of_lt {n : ℕ} (h : n < 10) : hexValue n = n := by
  rw [hexValue, Nat.toDigits_of_lt_base h, Nat.ofDigitChars_cons_digitChar_of_lt_ten h,
    Nat.ofDigitChars_nil, Nat.mul_zero, Nat.zero_add]

theorem hexValue_of_le {n : ℕ} (h : 10 ≤ n) : hexValue n = 16 * hexValue (n / 10) + n % 10 := by
  have hlast : n % 10 < 10 := Nat.mod_lt n (by decide)
  rw [hexValue, Nat.toDigits_of_base_le (by decide) h, Nat.ofDigitChars_append,
    Nat.ofDigitChars_cons_digitChar_of_lt_ten hlast, Nat.ofDigitChars_nil]
  rfl

theorem le_hexValue (n : ℕ) : n ≤ hexValue n := by
  induction n using Nat.strongRecOn with
  | ind n ih =>
    rcases Nat.lt_or_ge n 10 with h | h
    · exact (hexValue_of_lt h).ge
    · have hdiv := ih (n / 10) (by omega)
      rw [hexValue_of_le h]
      omega

/-- **Only one digit is read as it is meant.** -/
theorem hexValue_eq_iff {n : ℕ} : hexValue n = n ↔ n < 10 := by
  refine ⟨fun heq => ?_, hexValue_of_lt⟩
  by_contra hge
  have hdiv := le_hexValue (n / 10)
  rw [hexValue_of_le (by omega)] at heq
  omega

theorem asHex_eq_iff {n : ℤ} : asHex n = n ↔ -10 < n ∧ n < 10 := by
  rw [asHex]
  rcases le_or_gt 0 n with hn | hn
  · have hvalue := hexValue_eq_iff (n := n.toNat)
    rw [if_pos hn]
    omega
  · have hvalue := hexValue_eq_iff (n := (-n).toNat)
    rw [if_neg (not_le.mpr hn)]
    omega

end SXP.Lib.Numeral
