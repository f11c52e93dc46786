import Mathlib.Algebra.Group.Basic
import Mathlib.Data.Int.ModEq
import Mathlib.Tactic.Ring

/-!
# ElGamal signatures in a group

A signature of `m` is a mask `g ^ k` and an exponent `s`; the mask is also used as a number
`r`, in whatever way.  What a signer that has inverted `k` modulo an exponent of `g` solves
for is accepted, and for which messages (`accepts_iff`).
-/

namespace SXP.Lib.ElGamal

variable {G : Type*} [CommGroup G]

/-- The equation of the verifier, for the key `y` and the mask `a`. -/
def Accepts (g y a : G) (m r s : ℤ) : Prop := g ^ m = y ^ r * a ^ s

/-- The exponent of a signature; `l` is the inverse of the exponent of the mask. -/
def answer (n x l m r : ℤ) : ℤ := l * ((m - r * x) % n)

theorem zpow_congr {g : G} {n : ℤ} (hn : g ^ n = 1) {a b : ℤ} (h : a ≡ b [ZMOD n]) :
    g ^ a = g ^ b := by
  obtain ⟨d, hd⟩ := h.dvd
  have hb : b = a + n * d := by omega
  rw [hb, zpow_add, zpow_mul, hn, one_zpow, mul_one]

theorem mask_answer {g : G} {n : ℤ} (hn : g ^ n = 1) {k l : ℤ} (hkl : k * l ≡ 1 [ZMOD n])
    (x m r : ℤ) : (g ^ k) ^ answer n x l m r = g ^ (m - r * x) := by
  rw [← zpow_mul, answer, ← mul_assoc]
  refine zpow_congr hn ?_
  calc k * l * ((m - r * x) % n) ≡ 1 * (m - r * x) [ZMOD n] :=
        hkl.mul (Int.mod_modEq _ _)
    _ = m - r * x := one_mul _

/-- **The verifier accepts the same power** of the generator, and no other. -/
theorem accepts_iff {g : G} {n : ℤ} (hn : g ^ n = 1) {k l : ℤ} (hkl : k * l ≡ 1 [ZMOD n])
    (x m m' r : ℤ) : Accepts g (g ^ x) (g ^ k) m' r (answer n x l m r) ↔ g ^ m' = g ^ m := by
  have hpower : (g ^ x) ^ r * (g ^ k) ^ answer n x l m r = g ^ m := by
    rw [mask_answer hn hkl, ← zpow_mul, ← zpow_add]
    congr 1
    ring
  rw [Accepts, hpower]

end SXP.Lib.ElGamal
