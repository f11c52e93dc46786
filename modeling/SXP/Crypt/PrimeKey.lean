import Mathlib.Tactic.NormNum.Prime
import SXP.Lib.BigInteger

/-!
# Keys over a prime

A pair of keys with its own parameters: a prime, a number below it, and the power of this number
with the private key as exponent.  The group is that of the units modulo the prime, and Fermat's
theorem says which exponents count (`unit_zpow_sub_one`).
-/

namespace SXP.Crypt

open SXP.Lib SXP.Lib.BigInteger

structure PrimeKey where
  p : ℕ
  prime : p.Prime
  g : ℤ
  g_pos : 0 < g
  g_lt : g < p
  x : ℤ
  y : ℤ
  power : modPow g x p = .ok y

namespace PrimeKey

variable (K : PrimeKey)

instance : Fact K.p.Prime := ⟨K.prime⟩

instance : NeZero K.p := ⟨K.prime.ne_zero⟩

theorem p_pos : (0 : ℤ) < K.p := by exact_mod_cast K.prime.pos

theorem one_lt_p : (1 : ℤ) < K.p := by exact_mod_cast K.prime.one_lt

theorem g_ne_zero : (K.g : ZMod K.p) ≠ 0 := by
  intro h
  have hd := (ZMod.intCast_zmod_eq_zero_iff_dvd K.g K.p).mp h
  exact absurd (Int.le_of_dvd K.g_pos hd) (not_le.mpr K.g_lt)

def generator : (ZMod K.p)ˣ := Units.mk0 _ K.g_ne_zero

theorem g_cast : (K.g : ZMod K.p) = K.generator := rfl

theorem modPow_g (e : ℤ) :
    modPow K.g e K.p = .ok ((((K.generator ^ e : (ZMod K.p)ˣ) : ZMod K.p).val : ℕ) : ℤ) :=
  modPow_unit K.g_cast e

theorem cast_of_modPow {b e v : ℤ} {u : (ZMod K.p)ˣ} (hb : (b : ZMod K.p) = u)
    (h : modPow b e K.p = .ok v) : (v : ZMod K.p) = ((u ^ e : (ZMod K.p)ˣ) : ZMod K.p) := by
  rw [modPow_unit hb, Except.ok.injEq] at h
  rw [← h, Int.cast_natCast, ZMod.natCast_zmod_val]

theorem y_cast : (K.y : ZMod K.p) = ((K.generator ^ K.x : (ZMod K.p)ˣ) : ZMod K.p) :=
  K.cast_of_modPow K.g_cast K.power

end PrimeKey

/-! ### A key of 1038 bits -/

@[irreducible] def sampleFactor : ℕ := 4519 * 2 ^ 1010 + 1

theorem prime_sampleFactor : sampleFactor.Prime :=
  prime_of_powMod 3 1010 4519 (by unfold sampleFactor; decide +kernel) (by norm_num)
    (by unfold sampleFactor; decide +kernel) (by unfold sampleFactor; decide +kernel)
    (by unfold sampleFactor; decide +kernel)

@[irreducible] def sampleModulus : ℕ := 2 ^ 15 * sampleFactor + 1

theorem prime_sampleModulus : sampleModulus.Prime :=
  prime_of_powMod 3 15 sampleFactor (by unfold sampleModulus; rfl) prime_sampleFactor
    (by unfold sampleModulus sampleFactor; decide +kernel)
    (by unfold sampleModulus sampleFactor; decide +kernel)
    (by unfold sampleModulus sampleFactor; decide +kernel)

def samplePrimeKey : PrimeKey where
  p := sampleModulus
  prime := prime_sampleModulus
  g := 3
  g_pos := by decide
  g_lt := by unfold sampleModulus sampleFactor; decide +kernel
  x := 2
  y := 9
  power := by unfold sampleModulus sampleFactor; decide +kernel

end SXP.Crypt
