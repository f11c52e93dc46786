import SXP.Lib.Java
import Mathlib.Data.Int.Bitwise
import Mathlib.Data.Int.GCD
import Mathlib.Data.Int.ModEq
import Mathlib.Data.Nat.Size
import Mathlib.Data.ZMod.Basic
import Mathlib.Data.ZMod.Units
import Mathlib.FieldTheory.Finite.Basic
import Mathlib.NumberTheory.LucasPrimality

/-!
# Arbitrary-precision integers

The operations of `BigInteger` that modular arithmetic needs, with the
exceptions they throw: `mod` and `modPow` refuse a modulus that is not
positive, a negative exponent or `modInverse` refuses a base that is not
invertible, and the constructor from bytes refuses the empty array.

Modulo a prime all of them are the operations of the field `ZMod p`, read back
on the representatives `0, ..., p - 1`: that is `mod_eq`, `modInverse_eq` and
`modPow_eq`, and the proofs about keys and proofs of knowledge only use these.
Modulo any other number they are those of its units (`modInverse_unit`,
`modPow_unit`).
-/

namespace SXP.Lib.BigInteger

open Java

/-! ### The operations -/

def mod (a m : ℤ) : Java ℤ :=
  if m ≤ 0 then throw .arithmetic else pure (a % m)

/-- `a.divide(b)` rounds towards zero. -/
def divide (a b : ℤ) : Java ℤ :=
  if b = 0 then throw .arithmetic else pure (a.tdiv b)

/-- Euclid's algorithm with the coefficient of one argument: the remainders
`r`, `r'` stay congruent to `a * s`, `a * s'`. -/
def inverseLoop : ℕ → ℤ → ℤ → ℤ → ℤ → ℤ
  | 0, _, s, _, _ => s
  | fuel + 1, r, s, r', s' =>
      if r' = 0 then s else inverseLoop fuel r' s' (r % r') (s - r / r' * s')

def modInverse (a m : ℤ) : Java ℤ :=
  if m ≤ 0 then throw .arithmetic
  else if Int.gcd a m ≠ 1 then throw .arithmetic
  else pure (inverseLoop (m.toNat + 1) m 0 (a % m) 1 % m)

/-- Square and multiply over the low bits of the exponent. -/
def powMod (m : ℤ) : ℕ → ℤ → ℕ → ℤ
  | 0, _, _ => 1 % m
  | bits + 1, b, n =>
      let r := powMod m bits (b * b % m) (n / 2)
      if n % 2 = 1 then r * b % m else r

/-- `b.modPow(e, m)`.  A negative exponent inverts the power of its opposite. -/
def modPow (b e m : ℤ) : Java ℤ :=
  if m ≤ 0 then throw .arithmetic
  else if 0 ≤ e then pure (powMod m e.toNat.size b e.toNat)
  else modInverse (powMod m (-e).toNat.size b (-e).toNat) m

/-- The magnitude a byte array spells, most significant byte first. -/
def magnitude (bytes : List UInt8) : ℕ :=
  bytes.foldl (fun n b => 256 * n + b.toNat) 0

/-- The number a byte array spells in two's complement. -/
def signedValue (bytes : List UInt8) : ℤ :=
  if bytes.headD 0 < 128 then magnitude bytes else (magnitude bytes : ℤ) - 256 ^ bytes.length

/-- `new BigInteger(bytes)`. -/
def ofBytes : List UInt8 → Java ℤ
  | [] => throw .numberFormat
  | b :: bs => pure (signedValue (b :: bs))

/-- The last bytes of a number, most significant byte first. -/
def bytesOf : ℕ → ℕ → List UInt8
  | 0, _ => []
  | w + 1, n => bytesOf w (n / 256) ++ [UInt8.ofNat (n % 256)]

/-- `n.toByteArray()` of a number that is not negative: there is room for a sign. -/
def toByteArray (n : ℕ) : List UInt8 := bytesOf (n.size / 8 + 1) n

def asUnsignedByteArray (n : ℕ) : List UInt8 :=
  if (toByteArray n).headD 0 = 0 then (toByteArray n).drop 1 else toByteArray n

/-- `n.bitLength()` of a number that is not negative. -/
def bitLength (n : ℤ) : ℕ := n.toNat.size

/-- `n.intValue()`: the low 32 bits. -/
def intValue (n : ℤ) : Int32 := Int32.ofInt n

/-! ### What the loops compute -/

/-- **Square and multiply is exponentiation**, for an exponent of that many bits. -/
theorem powMod_eq (m : ℤ) : ∀ (bits : ℕ) (b : ℤ) (n : ℕ), n < 2 ^ bits →
    powMod m bits b n = b ^ n % m := by
  intro bits
  induction bits with
  | zero =>
    intro b n hn
    have : n = 0 := by omega
    subst this
    rw [powMod, pow_zero]
  | succ bits ih =>
    intro b n hn
    have hhalf : (b * b % m) ^ (n / 2) % m = b ^ (2 * (n / 2)) % m := by
      rw [((Int.mod_modEq (b * b) m).pow (n / 2)).eq, pow_mul, sq]
    rw [powMod, ih _ _ (by rw [pow_succ] at hn; omega), hhalf]
    by_cases hodd : n % 2 = 1
    · rw [if_pos hodd, Int.mul_emod, Int.emod_emod, ← Int.mul_emod, ← pow_succ,
        show 2 * (n / 2) + 1 = n by omega]
    · rw [if_neg hodd, show 2 * (n / 2) = n by omega]

theorem modPow_natCast {m : ℤ} (hm : 0 < m) (b : ℤ) (n : ℕ) :
    modPow b n m = .ok (powMod m n.size b n) := by
  rw [modPow, if_neg (not_le.mpr hm), if_pos (Int.natCast_nonneg n), Int.toNat_natCast,
    Java.pure_eq]

theorem powMod_size (m b : ℤ) (n : ℕ) : powMod m n.size b n = b ^ n % m :=
  powMod_eq m n.size b n (Nat.lt_size_self n)

theorem modInverse_nonneg {a m v : ℤ} (h : modInverse a m = .ok v) : 0 ≤ v := by
  rw [modInverse] at h
  split_ifs at h with hm hg
  rw [Java.pure_eq, Except.ok.injEq] at h
  rw [← h]
  exact Int.emod_nonneg _ (by omega)

theorem modPow_nonneg {b e m v : ℤ} (h : modPow b e m = .ok v) : 0 ≤ v := by
  by_cases hm : m ≤ 0
  · rw [modPow, if_pos hm] at h
    exact absurd h (by simp)
  by_cases he : 0 ≤ e
  · obtain ⟨n, rfl⟩ := Int.eq_ofNat_of_zero_le he
    rw [modPow_natCast (not_le.mp hm), powMod_size, Except.ok.injEq] at h
    rw [← h]
    exact Int.emod_nonneg _ (by omega)
  · rw [modPow, if_neg hm, if_neg he] at h
    exact modInverse_nonneg h

theorem cast_powMod {p : ℕ} (a : ℤ) (n : ℕ) :
    ((powMod p n.size a n : ℤ) : ZMod p) = (a : ZMod p) ^ n := by
  rw [powMod_size, ZMod.intCast_mod, Int.cast_pow]

/-- **Lucas' test** for a modulus `2 ^ n * r + 1`, run by square and multiply. -/
theorem prime_of_powMod {p : ℕ} (a : ℤ) (n r : ℕ) (hp : p - 1 = 2 ^ n * r) (hr : r.Prime)
    (h : powMod p (p - 1).size a (p - 1) = 1)
    (htwo : powMod p ((p - 1) / 2).size a ((p - 1) / 2) ≠ 1)
    (hrest : powMod p ((p - 1) / r).size a ((p - 1) / r) ≠ 1) : p.Prime := by
  have hlt : 1 < p := by
    have := Nat.mul_pos (Nat.pow_pos (n := n) (by decide : 0 < 2)) hr.pos
    omega
  have hne : ∀ m : ℕ, powMod p m.size a m ≠ 1 → (a : ZMod p) ^ m ≠ 1 := by
    intro m hm heq
    refine hm ?_
    have hmod : ((a ^ m : ℤ) : ZMod p) = ((1 : ℤ) : ZMod p) := by
      rw [Int.cast_pow, heq, Int.cast_one]
    rw [powMod_size, ((ZMod.intCast_eq_intCast_iff _ _ _).mp hmod).eq,
      Int.emod_eq_of_lt (by decide) (by omega)]
  refine lucas_primality p (a : ZMod p) ?_ ?_
  · rw [← cast_powMod, h, Int.cast_one]
  · intro q hq hd
    rw [hp] at hd
    rcases (Nat.Prime.dvd_mul hq).mp hd with h2 | hrd
    · rw [(Nat.prime_dvd_prime_iff_eq hq Nat.prime_two).mp (hq.dvd_of_dvd_pow h2)]
      exact hne _ htwo
    · rw [(Nat.prime_dvd_prime_iff_eq hq hr).mp hrd]
      exact hne _ hrest

/-- Euclid's loop ends at a coefficient of the greatest common divisor, here `1`. -/
theorem inverseLoop_dvd {m a : ℤ} : ∀ (fuel : ℕ) (r s r' s' : ℤ), 0 ≤ r → 0 ≤ r' →
    r' < fuel → m ∣ a * s - r → m ∣ a * s' - r' → Int.gcd r r' = 1 →
    m ∣ a * inverseLoop fuel r s r' s' - 1 := by
  intro fuel
  induction fuel with
  | zero => intro r s r' s' _ h0 hlt; omega
  | succ fuel ih =>
    intro r s r' s' hr hr' hlt hs hs' hg
    rw [inverseLoop]
    by_cases hz : r' = 0
    · rw [if_pos hz]
      subst hz
      have hone : r = 1 := by rw [Int.gcd_zero_right] at hg; omega
      rwa [hone] at hs
    · rw [if_neg hz]
      have hlt' := Int.emod_lt_of_pos r (show 0 < r' by omega)
      refine ih r' s' (r % r') (s - r / r' * s') hr' (Int.emod_nonneg r hz) (by omega) hs' ?_ ?_
      · have hrem : a * (s - r / r' * s') - r % r' = (a * s - r) - r / r' * (a * s' - r') := by
          rw [Int.emod_def]; ring
        rw [hrem]
        exact dvd_sub hs (Dvd.dvd.mul_left hs' _)
      · rw [Int.gcd_comm, Int.gcd_emod, hg]

/-- **What is inverted**, and by what. -/
theorem modInverse_modEq {a m v : ℤ} (h : modInverse a m = .ok v) : a * v ≡ 1 [ZMOD m] := by
  rw [modInverse] at h
  split_ifs at h with hm hg
  rw [Java.pure_eq, Except.ok.injEq] at h
  have hpos : 0 < m := not_le.mp hm
  have hd : m ∣ a * inverseLoop (m.toNat + 1) m 0 (a % m) 1 - 1 := by
    have hlt := Int.emod_lt_of_pos a hpos
    refine inverseLoop_dvd _ _ _ _ _ hpos.le (Int.emod_nonneg a hpos.ne') (by omega)
      (by simp) ?_ ?_
    · rw [mul_one]
      exact Int.dvd_self_sub_emod
    · rw [Int.gcd_comm, Int.gcd_emod, not_not.mp hg]
  rw [← h]
  calc a * (inverseLoop (m.toNat + 1) m 0 (a % m) 1 % m)
      ≡ a * inverseLoop (m.toNat + 1) m 0 (a % m) 1 [ZMOD m] := (Int.mod_modEq _ _).mul_left a
    _ ≡ 1 [ZMOD m] := (Int.modEq_iff_dvd.mpr hd).symm

theorem modInverse_total {a m : ℤ} (hm : 0 < m) :
    (∃ v, modInverse a m = .ok v) ↔ Int.gcd a m = 1 := by
  rw [modInverse, if_neg (not_le.mpr hm)]
  by_cases hg : Int.gcd a m = 1
  · rw [if_neg (not_not.mpr hg)]
    exact iff_of_true ⟨_, rfl⟩ hg
  · rw [if_pos hg]
    exact iff_of_false (by simp) hg

theorem modInverse_lt {a m v : ℤ} (h : modInverse a m = .ok v) : v < m := by
  rw [modInverse] at h
  split_ifs at h with hm hg
  rw [Java.pure_eq, Except.ok.injEq] at h
  rw [← h]
  exact Int.emod_lt_of_pos _ (not_le.mp hm)

/-! ### Units -/

section Units

variable {m : ℕ} [NeZero m]

theorem modInverse_unit {a : ℤ} {u : (ZMod m)ˣ} (ha : (a : ZMod m) = u) :
    modInverse a m = .ok ((((u⁻¹ : (ZMod m)ˣ) : ZMod m).val : ℕ) : ℤ) := by
  have hpos : (0 : ℤ) < m := by exact_mod_cast NeZero.pos m
  have hg : Int.gcd a m = 1 := by
    have hunit : IsUnit (a : ZMod m) := ha ▸ u.isUnit
    exact Int.isCoprime_iff_gcd_eq_one.mp ((ZMod.coe_int_isUnit_iff_isCoprime a m).mp hunit).symm
  obtain ⟨v, hv⟩ := (modInverse_total hpos).mpr hg
  have hinv : (u : ZMod m) * (v : ZMod m) = 1 := by
    have hmod := (ZMod.intCast_eq_intCast_iff _ _ m).mpr (modInverse_modEq hv)
    rwa [Int.cast_mul, Int.cast_one, ha] at hmod
  rw [hv, Units.inv_eq_of_mul_eq_one_right hinv, ZMod.val_intCast,
    Int.emod_eq_of_lt (modInverse_nonneg hv) (modInverse_lt hv)]

/-- Modular exponentiation is exponentiation in the group of units. -/
theorem modPow_unit {b : ℤ} {u : (ZMod m)ˣ} (hb : (b : ZMod m) = u) (e : ℤ) :
    modPow b e m = .ok ((((u ^ e : (ZMod m)ˣ) : ZMod m).val : ℕ) : ℤ) := by
  have hpos : (0 : ℤ) < m := by exact_mod_cast NeZero.pos m
  rw [modPow, if_neg (not_le.mpr hpos)]
  by_cases he : 0 ≤ e
  · rw [if_pos he, Java.pure_eq, powMod_size]
    obtain ⟨n, rfl⟩ := Int.eq_ofNat_of_zero_le he
    rw [Int.toNat_natCast, ← ZMod.val_intCast, Int.cast_pow, zpow_natCast, hb,
      Units.val_pow_eq_pow_val]
  · rw [if_neg he, powMod_size]
    obtain ⟨n, hn⟩ : ∃ n : ℕ, e = -(n : ℤ) := ⟨(-e).toNat, by omega⟩
    subst hn
    have hcast : ((b ^ n % (m : ℤ) : ℤ) : ZMod m) = ((u ^ n : (ZMod m)ˣ) : ZMod m) := by
      rw [ZMod.intCast_mod, Int.cast_pow, hb, Units.val_pow_eq_pow_val]
    rw [neg_neg, Int.toNat_natCast, modInverse_unit hcast, zpow_neg, zpow_natCast]

end Units

/-- **When a power exists**: for every exponent, if the base can be inverted, and otherwise for
one that is not negative. -/
theorem modPow_total {b e m : ℤ} (hm : 0 < m) :
    (∃ v, modPow b e m = .ok v) ↔ 0 ≤ e ∨ Int.gcd b m = 1 := by
  by_cases he : 0 ≤ e
  · rw [modPow, if_neg (not_le.mpr hm), if_pos he]
    exact iff_of_true ⟨_, rfl⟩ (Or.inl he)
  · rw [or_iff_right he, modPow, if_neg (not_le.mpr hm), if_neg he, modInverse_total hm,
      powMod_size, Int.gcd_emod, ← Int.isCoprime_iff_gcd_eq_one, ← Int.isCoprime_iff_gcd_eq_one]
    exact IsCoprime.pow_left_iff (by omega)

theorem returns_mod {a m : ℤ} : Returns (mod a m) ↔ 0 < m := by
  rw [mod]
  split_ifs with hm
  · exact iff_of_false (not_returns_error _) (not_lt.mpr hm)
  · exact iff_of_true (returns_ok _) (not_le.mp hm)

theorem returns_divide {a b : ℤ} : Returns (divide a b) ↔ b ≠ 0 := by
  rw [divide]
  split_ifs with hb
  · exact iff_of_false (not_returns_error _) (not_not.mpr hb)
  · exact iff_of_true (returns_ok _) hb

theorem returns_modPow {b e m : ℤ} :
    Returns (modPow b e m) ↔ 0 < m ∧ (0 ≤ e ∨ Int.gcd b m = 1) := by
  by_cases hm : 0 < m
  · exact (modPow_total hm).trans (and_iff_right hm).symm
  · rw [modPow, if_pos (not_lt.mp hm)]
    exact iff_of_false (not_returns_error _) fun h => hm h.1

theorem ofBytes_eq_ok {bytes : List UInt8} {n : ℤ} :
    ofBytes bytes = .ok n ↔ bytes ≠ [] ∧ n = signedValue bytes := by
  cases bytes with
  | nil => exact iff_of_false (by simp [ofBytes]) fun h => h.1 rfl
  | cons b bytes =>
    rw [ofBytes, Java.pure_eq, Except.ok.injEq, and_iff_right (List.cons_ne_nil b bytes), eq_comm]

theorem returns_ofBytes {bytes : List UInt8} : Returns (ofBytes bytes) ↔ bytes ≠ [] := by
  unfold Returns
  simp only [ofBytes_eq_ok]
  exact ⟨fun ⟨_, h, _⟩ => h, fun h => ⟨_, h, rfl⟩⟩

/-! ### The field modulo a prime -/

section Prime

variable {p : ℕ} [hp : Fact p.Prime]

theorem not_prime_le_zero : ¬ (p : ℤ) ≤ 0 := by
  have := hp.out.pos
  omega

theorem mod_eq (a : ℤ) : mod a p = .ok (((a : ZMod p).val : ℕ) : ℤ) := by
  rw [mod, if_neg not_prime_le_zero, ZMod.val_intCast, Java.pure_eq]

/-- A number that is not `0` modulo `p` is inverted in the field. -/
theorem modInverse_eq {a : ℤ} (ha : (a : ZMod p) ≠ 0) :
    modInverse a p = .ok ((((a : ZMod p)⁻¹).val : ℕ) : ℤ) := by
  have : NeZero p := ⟨hp.out.ne_zero⟩
  have h := modInverse_unit (a := a) (u := Units.mk0 _ ha) rfl
  rwa [Units.val_inv_eq_inv_val, Units.val_mk0] at h

theorem modPow_eq {b : ℤ} (hb : (b : ZMod p) ≠ 0) (e : ℤ) :
    modPow b e p = .ok ((((b : ZMod p) ^ e).val : ℕ) : ℤ) := by
  have : NeZero p := ⟨hp.out.ne_zero⟩
  have h := modPow_unit (b := b) (u := Units.mk0 _ hb) rfl e
  rwa [Units.val_zpow_eq_zpow_val, Units.val_mk0] at h

theorem modPow_of_exists {b e : ℤ} (h : 0 ≤ e ∨ (b : ZMod p) ≠ 0) :
    modPow b e p = .ok ((((b : ZMod p) ^ e).val : ℕ) : ℤ) := by
  have : NeZero p := ⟨hp.out.ne_zero⟩
  rcases h with he | hb
  · obtain ⟨n, rfl⟩ := Int.eq_ofNat_of_zero_le he
    rw [modPow_natCast (not_le.mp not_prime_le_zero), powMod_size, ← ZMod.val_intCast,
      Int.cast_pow, zpow_natCast]
  · exact modPow_eq hb e

theorem gcd_eq_one_iff {b : ℤ} : Int.gcd b p = 1 ↔ (b : ZMod p) ≠ 0 := by
  rw [← Int.isCoprime_iff_gcd_eq_one, isCoprime_comm, ← ZMod.coe_int_isUnit_iff_isCoprime,
    isUnit_iff_ne_zero]

/-- **Fermat's theorem**, for units. -/
theorem unit_zpow_sub_one (u : (ZMod p)ˣ) : u ^ ((p : ℤ) - 1) = 1 := by
  have hcast : (p : ℤ) - 1 = ((p - 1 : ℕ) : ℤ) := by
    have := hp.out.one_lt
    omega
  rw [hcast, zpow_natCast]
  exact ZMod.units_pow_card_sub_one_eq_one p u

/-- **Fermat's exponent inverts**: the power `p - 1 - x` of a mask `g ^ k` is the inverse
of the mask of the public key `g ^ x`. -/
theorem zpow_card_sub {g : ZMod p} (hg : g ≠ 0) (k x : ℤ) :
    (g ^ k) ^ ((p : ℤ) - 1 - x) = ((g ^ x) ^ k)⁻¹ := by
  have hcard : (g ^ k) ^ ((p : ℤ) - 1) = 1 := by
    have h := congrArg Units.val (unit_zpow_sub_one (Units.mk0 _ (zpow_ne_zero k hg)))
    rwa [Units.val_zpow_eq_zpow_val] at h
  rw [zpow_sub₀ (zpow_ne_zero k hg), hcard, one_div, ← zpow_mul, ← zpow_mul, mul_comm k x]

/-- The two sides of a verification equation: representatives agree exactly
when the field elements do. -/
theorem val_beq_val {x y : ZMod p} : (((x.val : ℕ) : ℤ) == ((y.val : ℕ) : ℤ)) = decide (x = y) := by
  rw [Bool.eq_iff_iff, beq_iff_eq, decide_eq_true_eq, Nat.cast_inj]
  exact (ZMod.val_injective p).eq_iff

end Prime

theorem divide_mul_cancel (a : ℤ) {b : ℤ} (hb : b ≠ 0) : divide (a * b) b = .ok a := by
  rw [divide, if_neg hb, Int.mul_tdiv_cancel a hb, Java.pure_eq]

/-! ### Bytes -/

theorem magnitude_append (l : List UInt8) (b : UInt8) :
    magnitude (l ++ [b]) = 256 * magnitude l + b.toNat := by
  rw [magnitude, List.foldl_append]
  rfl

theorem magnitude_lt (l : List UInt8) : magnitude l < 256 ^ l.length := by
  induction l using List.reverseRecOn with
  | nil => simp [magnitude]
  | append_singleton l b ih =>
    rw [magnitude_append, List.length_append, List.length_singleton, pow_succ]
    have := b.toNat_lt
    omega

theorem magnitude_inj {l l' : List UInt8} (hlen : l.length = l'.length)
    (h : magnitude l = magnitude l') : l = l' := by
  induction l using List.reverseRecOn generalizing l' with
  | nil => exact (List.length_eq_zero_iff.mp hlen.symm).symm
  | append_singleton l b ih =>
    rcases List.eq_nil_or_concat l' with rfl | ⟨l', b', rfl⟩
    · exact absurd hlen (by simp)
    · rw [List.concat_eq_append] at hlen h ⊢
      rw [magnitude_append, magnitude_append] at h
      have hb := b.toNat_lt
      have hb' := b'.toNat_lt
      obtain rfl := ih (by simpa using hlen) (by omega)
      obtain rfl : b = b' := UInt8.toNat_inj.mp (by omega)
      rfl

/-- A number of `n` bytes, with or without sign, is below `256 ^ n`. -/
theorem signedValue_lt (l : List UInt8) : signedValue l < 256 ^ l.length := by
  have hlt : (magnitude l : ℤ) < 256 ^ l.length := by exact_mod_cast magnitude_lt l
  have hpos : (0 : ℤ) < 256 ^ l.length := by positivity
  unfold signedValue
  split
  · exact hlt
  · omega

theorem foldl_ge (l : List UInt8) (n : ℕ) :
    n * 256 ^ l.length ≤ l.foldl (fun n b => 256 * n + b.toNat) n := by
  induction l generalizing n with
  | nil => simp
  | cons b l ih =>
    rw [List.foldl_cons, List.length_cons, pow_succ]
    calc n * (256 ^ l.length * 256) = (256 * n) * 256 ^ l.length := by ring
      _ ≤ (256 * n + b.toNat) * 256 ^ l.length := Nat.mul_le_mul_right _ (Nat.le_add_right _ _)
      _ ≤ _ := ih _

theorem le_magnitude_cons (b : UInt8) (l : List UInt8) :
    b.toNat * 256 ^ l.length ≤ magnitude (b :: l) := by
  have h := foldl_ge l b.toNat
  simpa [magnitude] using h

theorem ofBytes_cons {b : UInt8} (h : b.toNat < 128) (l : List UInt8) :
    ofBytes (b :: l) = .ok (magnitude (b :: l) : ℤ) := by
  have hb : b < 128 := UInt8.lt_iff_toNat_lt.mpr h
  rw [ofBytes, signedValue, List.headD_cons, if_pos hb, Java.pure_eq]

@[simp] theorem length_bytesOf (w n : ℕ) : (bytesOf w n).length = w := by
  induction w generalizing n with
  | zero => rfl
  | succ w ih => rw [bytesOf, List.length_append, ih, List.length_singleton]

theorem magnitude_bytesOf {w n : ℕ} (h : n < 256 ^ w) : magnitude (bytesOf w n) = n := by
  induction w generalizing n with
  | zero =>
    rw [pow_zero] at h
    rw [Nat.lt_one_iff.mp h]
    rfl
  | succ w ih =>
    rw [bytesOf, magnitude_append, ih (Nat.div_lt_of_lt_mul (by rwa [pow_succ, mul_comm] at h)),
      UInt8.toNat_ofNat_of_lt' (Nat.mod_lt _ (by decide))]
    exact Nat.div_add_mod n 256

theorem magnitude_cons_zero (l : List UInt8) : magnitude (0 :: l) = magnitude l := by
  rfl

theorem magnitude_replicate_zero (n : ℕ) (l : List UInt8) :
    magnitude (List.replicate n 0 ++ l) = magnitude l := by
  induction n with
  | zero => rfl
  | succ n ih => rw [List.replicate_succ, List.cons_append, magnitude_cons_zero, ih]

theorem lt_size_div (n : ℕ) : n < 256 ^ (n.size / 8 + 1) := by
  rw [show (256 : ℕ) = 2 ^ 8 from rfl, ← pow_mul]
  exact (Nat.lt_size_self n).trans_le (Nat.pow_le_pow_right (by decide) (by omega))

theorem magnitude_toByteArray (n : ℕ) : magnitude (toByteArray n) = n :=
  magnitude_bytesOf (lt_size_div n)

/-- **A sign takes a byte of its own** when the number fills its bytes. -/
theorem toByteArray_of_lt {l : List UInt8} (h : l.headD 0 ≠ 0) :
    toByteArray (magnitude l) = l ∨ toByteArray (magnitude l) = 0 :: l := by
  cases l with
  | nil => exact absurd rfl h
  | cons b l =>
    have hb : 1 ≤ b.toNat := by
      rw [Nat.one_le_iff_ne_zero]
      exact fun hzero => h (UInt8.toNat_inj.mp hzero)
    have hlow : 256 ^ l.length ≤ magnitude (b :: l) :=
      (Nat.le_mul_of_pos_left _ hb).trans (le_magnitude_cons b l)
    have hhigh := magnitude_lt (b :: l)
    rw [show (256 : ℕ) = 2 ^ 8 from rfl, ← pow_mul] at hlow hhigh
    have hlt := Nat.lt_size.mpr hlow
    have hle := Nat.size_le.mpr hhigh
    rw [List.length_cons] at hle
    have hwidth : (magnitude (b :: l)).size / 8 + 1 = l.length + 1 ∨
        (magnitude (b :: l)).size / 8 + 1 = l.length + 2 := by omega
    rcases hwidth with hwidth | hwidth
    · left
      refine magnitude_inj ?_ (magnitude_toByteArray _)
      rw [toByteArray, length_bytesOf, hwidth, List.length_cons]
    · right
      refine magnitude_inj ?_ ((magnitude_toByteArray _).trans (magnitude_cons_zero _).symm)
      rw [toByteArray, length_bytesOf, hwidth, List.length_cons, List.length_cons]

/-- **Bytes are read back** unless the first of them is zero. -/
theorem asUnsignedByteArray_magnitude {l : List UInt8} (h : l.headD 0 ≠ 0) :
    asUnsignedByteArray (magnitude l) = l := by
  unfold asUnsignedByteArray
  rcases toByteArray_of_lt h with heq | heq
  · rw [heq, if_neg h]
  · rw [heq, List.headD_cons, if_pos rfl, List.drop_one, List.tail_cons]

/-! ### Exclusive or -/

theorem xor_comm (a b : ℤ) : Int.xor a b = Int.xor b a := by
  cases a <;> cases b <;> simp [Int.xor, Nat.xor_comm]

theorem xor_assoc (a b c : ℤ) : Int.xor (Int.xor a b) c = Int.xor a (Int.xor b c) := by
  cases a <;> cases b <;> cases c <;> simp [Int.xor, Nat.xor_assoc]

@[simp] theorem xor_self (a : ℤ) : Int.xor a a = 0 := by
  cases a <;> simp [Int.xor]

@[simp] theorem zero_xor (a : ℤ) : Int.xor 0 a = a := by
  cases a with
  | ofNat n => show ((0 ^^^ n : ℕ) : ℤ) = _; simp
  | negSucc n => show Int.negSucc (0 ^^^ n) = _; simp

@[simp] theorem xor_zero (a : ℤ) : Int.xor a 0 = a := by
  rw [xor_comm, zero_xor]

theorem xor_left_comm (a b c : ℤ) : Int.xor a (Int.xor b c) = Int.xor b (Int.xor a c) := by
  rw [← xor_assoc, xor_comm a b, xor_assoc]

end SXP.Lib.BigInteger
