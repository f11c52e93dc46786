import Mathlib.Data.List.Forall2
import Mathlib.Tactic.Cases

/-!
# Byte arrays as text

Three bytes are four digits of six bits.  What is left at the end is filled up with `=`.  An array
of byte arrays is written as JSON, with a text for each.
-/

namespace SXP.Lib.Base64

def alphabet : List Char :=
  "ABCDEFGHIJKLMNOPQRSTUVWXYZabcdefghijklmnopqrstuvwxyz0123456789+/".toList

def digit (n : ℕ) : Char := alphabet.getD n 'A'

def value (c : Char) : Option ℕ := alphabet.idxOf? c

/-- The digits of the number `n` of 24 bits. -/
def digits (n : ℕ) : Char × Char × Char × Char :=
  (digit (n / 262144), digit (n / 4096 % 64), digit (n / 64 % 64), digit (n % 64))

def encode : List UInt8 → List Char
  | [] => []
  | [a] =>
      let (w, x, _, _) := digits (a.toNat * 65536)
      [w, x, '=', '=']
  | [a, b] =>
      let (w, x, y, _) := digits (a.toNat * 65536 + b.toNat * 256)
      [w, x, y, '=']
  | a :: b :: c :: rest =>
      let (w, x, y, z) := digits (a.toNat * 65536 + b.toNat * 256 + c.toNat)
      w :: x :: y :: z :: encode rest

def bytes (n : ℕ) : UInt8 × UInt8 × UInt8 :=
  (UInt8.ofNat (n / 65536), UInt8.ofNat (n / 256 % 256), UInt8.ofNat (n % 256))

def decode : List Char → Option (List UInt8)
  | [] => some []
  | w :: x :: y :: z :: rest => do
      let n := (← value w) * 262144 + (← value x) * 4096
      if y = '=' then
        if z = '=' ∧ rest = [] then some [(bytes n).1] else none
      else
        let n := n + (← value y) * 64
        if z = '=' then
          if rest = [] then some [(bytes n).1, (bytes n).2.1] else none
        else
          let (a, b, c) := bytes (n + (← value z))
          let l ← decode rest
          return a :: b :: c :: l
  | _ => none

/-! ### Bytes and digits -/

theorem value_digit : ∀ n < 64, value (digit n) = some n := by decide +kernel

theorem digit_ne : ∀ n < 64, digit n ≠ '=' ∧ digit n ≠ ',' := by decide +kernel

def number (a b c : UInt8) : ℕ := a.toNat * 65536 + b.toNat * 256 + c.toNat

theorem number_lt (a b c : UInt8) : number a b c < 16777216 := by
  have ha := a.toNat_lt
  have hb := b.toNat_lt
  have hc := c.toNat_lt
  unfold number
  omega

theorem bytes_number (a b c : UInt8) : bytes (number a b c) = (a, b, c) := by
  have ha := a.toNat_lt
  have hb := b.toNat_lt
  have hc := c.toNat_lt
  unfold bytes number
  rw [show (a.toNat * 65536 + b.toNat * 256 + c.toNat) / 65536 = a.toNat by omega,
    show (a.toNat * 65536 + b.toNat * 256 + c.toNat) / 256 % 256 = b.toNat by omega,
    show (a.toNat * 65536 + b.toNat * 256 + c.toNat) % 256 = c.toNat by omega,
    UInt8.ofNat_toNat, UInt8.ofNat_toNat, UInt8.ofNat_toNat]

theorem digits_eq {n : ℕ} (h : n < 16777216) : ∃ w x y z, w < 64 ∧ x < 64 ∧ y < 64 ∧ z < 64 ∧
    digits n = (digit w, digit x, digit y, digit z) ∧ w * 262144 + x * 4096 + y * 64 + z = n ∧
    (n % 64 = 0 → z = 0) ∧ (n % 4096 = 0 → y = 0) :=
  ⟨n / 262144, n / 4096 % 64, n / 64 % 64, n % 64, by omega, by omega, by omega, by omega, rfl,
    by omega, by omega, by omega⟩

/-- **What is encoded can be read.** -/
theorem decode_encode (l : List UInt8) : decode (encode l) = some l := by
  induction l using encode.induct with
  | case1 => rfl
  | case2 a =>
    obtain ⟨w, x, y, z, hw, hx, hy, hz, hdigits, hsum, hz0, hy0⟩ := digits_eq (number_lt a 0 0)
    have ha : number a 0 0 = a.toNat * 65536 := by simp [number]
    rw [hz0 (by omega), hy0 (by omega), Nat.zero_mul, Nat.add_zero] at hsum
    rw [encode, ← ha, hdigits]
    simp only [decode, value_digit w hw, value_digit x hx, and_self, if_true, Option.bind_eq_bind,
      Option.bind_some]
    rw [hsum, bytes_number]
  | case3 a b =>
    obtain ⟨w, x, y, z, hw, hx, hy, hz, hdigits, hsum, hz0, -⟩ := digits_eq (number_lt a b 0)
    have hab : number a b 0 = a.toNat * 65536 + b.toNat * 256 := by simp [number]
    rw [hz0 (by omega), Nat.add_zero] at hsum
    rw [encode, ← hab, hdigits]
    simp only [decode, value_digit w hw, value_digit x hx, value_digit y hy,
      if_neg (digit_ne y hy).1, if_true, Option.bind_eq_bind, Option.bind_some]
    rw [hsum, bytes_number]
  | case4 a b c rest _ _ _ _ _ ih =>
    obtain ⟨w, x, y, z, hw, hx, hy, hz, hdigits, hsum, -, -⟩ := digits_eq (number_lt a b c)
    rw [encode]
    change decode (match digits (number a b c) with
      | (w, x, y, z) => w :: x :: y :: z :: encode rest) = _
    rw [hdigits]
    simp only [decode, value_digit w hw, value_digit x hx, value_digit y hy, value_digit z hz,
      if_neg (digit_ne y hy).1, if_neg (digit_ne z hz).1, Option.bind_eq_bind, Option.bind_some]
    rw [hsum, bytes_number, ih]
    rfl

/-! ### Arrays -/

def quote (l : List UInt8) : List Char := '"' :: encode l ++ ['"']

def toJson (content : List (List UInt8)) : List Char :=
  '[' :: [','].intercalate (content.map quote) ++ [']']

def readElement (l : List Char) : Option (Option (List UInt8)) :=
  match l with
  | '"' :: rest =>
      if rest.getLast? = some '"' then (decode rest.dropLast).map some else none
  | _ => if l = "null".toList then some none else none

def toEntity (l : List Char) : Option (List (Option (List UInt8))) :=
  match l with
  | '[' :: rest =>
      if rest.getLast? = some ']' then
        if rest.dropLast = [] then some [] else (rest.dropLast.splitOn ',').mapM readElement
      else none
  | _ => none

theorem comma_notMem_encode (l : List UInt8) : ',' ∉ encode l := by
  induction l using encode.induct with
  | case1 => exact List.not_mem_nil
  | case2 a =>
    obtain ⟨w, x, y, z, hw, hx, -, -, hdigits, -⟩ := digits_eq (number_lt a 0 0)
    have ha : number a 0 0 = a.toNat * 65536 := by simp [number]
    rw [encode, ← ha, hdigits]
    simp [(digit_ne w hw).2.symm, (digit_ne x hx).2.symm]
  | case3 a b =>
    obtain ⟨w, x, y, z, hw, hx, hy, -, hdigits, -⟩ := digits_eq (number_lt a b 0)
    have hab : number a b 0 = a.toNat * 65536 + b.toNat * 256 := by simp [number]
    rw [encode, ← hab, hdigits]
    simp [(digit_ne w hw).2.symm, (digit_ne x hx).2.symm, (digit_ne y hy).2.symm]
  | case4 a b c rest _ _ _ _ _ ih =>
    obtain ⟨w, x, y, z, hw, hx, hy, hz, hdigits, -⟩ := digits_eq (number_lt a b c)
    rw [encode]
    change ',' ∉ (match digits (number a b c) with
      | (w, x, y, z) => w :: x :: y :: z :: encode rest)
    rw [hdigits]
    simp [(digit_ne w hw).2.symm, (digit_ne x hx).2.symm, (digit_ne y hy).2.symm,
      (digit_ne z hz).2.symm, ih]

theorem readElement_quote (l : List UInt8) : readElement (quote l) = some (some l) := by
  change (if (encode l ++ ['"']).getLast? = some '"' then
    (decode (encode l ++ ['"']).dropLast).map some else none) = _
  rw [List.getLast?_concat, if_pos rfl, List.dropLast_concat, decode_encode]
  rfl

/-- **Arrays come back.** -/
theorem toEntity_toJson (content : List (List UInt8)) :
    toEntity (toJson content) = some (content.map some) := by
  let inner := [','].intercalate (content.map quote)
  change (if (inner ++ [']']).getLast? = some ']' then
    if (inner ++ [']']).dropLast = [] then some []
    else ((inner ++ [']']).dropLast.splitOn ',').mapM readElement else none) = _
  rw [List.getLast?_concat, if_pos rfl, List.dropLast_concat]
  cases content with
  | nil => rfl
  | cons first rest =>
    have hcomma : ∀ l ∈ (first :: rest).map quote, ',' ∉ l := by
      intro l hl
      obtain ⟨bytes, -, rfl⟩ := List.mem_map.mp hl
      simp [quote, comma_notMem_encode]
    have hne : [','].intercalate ((first :: rest).map quote) ≠ [] := by
      intro h
      have hsplit := List.splitOn_intercalate ',' hcomma (by simp)
      rw [h, List.splitOn_nil] at hsplit
      exact absurd (List.cons.inj hsplit).1 (by simp [quote])
    rw [if_neg hne, List.splitOn_intercalate ',' hcomma (by simp)]
    generalize first :: rest = content
    induction content with
    | nil => rfl
    | cons bytes content ih =>
      rw [List.map_cons, List.mapM_cons, readElement_quote, ih]
      rfl

end SXP.Lib.Base64
