import Mathlib.Algebra.GroupWithZero.Basic
import Mathlib.Algebra.GroupWithZero.Units.Basic
import Mathlib.RingTheory.Coprime.Lemmas

/-!
# Proofs of knowledge of a discrete logarithm

Three moves: the prover sends a mask `a`, receives a challenge `c` and answers
`r`; the verifier accepts when `g ^ r = y ^ c * a`.  Whoever knows `w` with
`y = g ^ w` answers every challenge to a mask `g ^ s` (`accepts_respond`).
Whoever chooses the challenge first needs no `w` at all (`accepts_simulated`),
which is why a challenge must be bound to its mask.  Whoever answers two challenges to one
mask gives away what links `y` to `g` (`zpow_sub_of_accepts`), and with it the logarithm
(`eq_zpow_extract`).

The exponents are integers, of either sign, so everything is said in a group
with zero and away from `0`.
-/

namespace SXP.Lib.SigmaProtocol

variable {G : Type*} [CommGroupWithZero G]

/-- The verification equation for the public value `y`. -/
def Accepts (g y a : G) (c r : ℤ) : Prop := g ^ r = y ^ c * a

instance [DecidableEq G] (g y a : G) (c r : ℤ) : Decidable (Accepts g y a c r) :=
  inferInstanceAs (Decidable (g ^ r = y ^ c * a))

/-- The answer of a prover who knows `w` and masked with `g ^ s`. -/
def respond (w s c : ℤ) : ℤ := w * c + s

/-- The mask a simulator computes from a challenge and an answer. -/
def simulateMask (g y : G) (c r : ℤ) : G := g ^ r * (y ^ c)⁻¹

/-- **The prover who knows the logarithm is accepted**, under every challenge. -/
theorem accepts_respond {g : G} (hg : g ≠ 0) (w s c : ℤ) :
    Accepts g (g ^ w) (g ^ s) c (respond w s c) := by
  rw [Accepts, respond, zpow_add₀ hg, zpow_mul]

/-- The same for every generator, where no exponent is negative. -/
theorem accepts_respond_of_nonneg (g : G) {w c : ℤ} (h : w = 0 ∨ 0 ≤ w ∧ 0 ≤ c) (s : ℕ) :
    Accepts g (g ^ w) (g ^ (s : ℤ)) c (respond w s c) := by
  rcases h with rfl | ⟨hw, hc⟩
  · rw [Accepts, respond, Int.zero_mul, Int.zero_add, zpow_zero, one_zpow, one_mul]
  · obtain ⟨w, rfl⟩ := Int.eq_ofNat_of_zero_le hw
    obtain ⟨c, rfl⟩ := Int.eq_ofNat_of_zero_le hc
    rw [Accepts, respond, ← Int.natCast_mul, ← Int.natCast_add, zpow_natCast, zpow_natCast, zpow_natCast,
      zpow_natCast, pow_add, pow_mul]

/-- **The simulator is accepted** without knowing any logarithm. -/
theorem accepts_simulated (g : G) {y : G} (hy : y ≠ 0) (c r : ℤ) :
    Accepts g y (simulateMask g y c r) c r := by
  rw [Accepts, simulateMask, mul_comm, mul_assoc, inv_mul_cancel₀ (zpow_ne_zero c hy), mul_one]

/-! ### Two answers to one mask -/

section

variable {g y a : G} {c c' r r' : ℤ}

/-- Neither the public value nor the mask is zero when two challenges to the mask have been
answered. -/
theorem ne_zero_of_accepts (hg : g ≠ 0) (h : Accepts g y a c r) (h' : Accepts g y a c' r')
    (hc : c ≠ c') : y ≠ 0 ∧ a ≠ 0 := by
  have hpower : ∀ {c r}, Accepts g y a c r → y ^ c ≠ 0 ∧ a ≠ 0 := by
    intro c r h
    have hne : y ^ c * a ≠ 0 := h ▸ zpow_ne_zero r hg
    exact ⟨left_ne_zero_of_mul hne, right_ne_zero_of_mul hne⟩
  refine ⟨fun hy => ?_, (hpower h).2⟩
  -- one of the two challenges is not zero
  have hzero : ∀ {c r}, Accepts g y a c r → c = 0 := by
    intro c r h
    by_contra hne
    exact (hpower h).1 (by rw [hy, zero_zpow c hne])
  exact hc ((hzero h).trans (hzero h').symm)

/-- **Two answers to one mask** link the public value to the generator. -/
theorem zpow_sub_of_accepts (hg : g ≠ 0) (h : Accepts g y a c r) (h' : Accepts g y a c' r')
    (hc : c ≠ c') : y ^ (c - c') = g ^ (r - r') := by
  obtain ⟨hy, ha⟩ := ne_zero_of_accepts hg h h' hc
  rw [Accepts] at h h'
  rw [zpow_sub₀ hy, zpow_sub₀ hg, h, h', mul_div_mul_right _ _ ha]

end

/-- The logarithm that a link with the exponents `e` and `z` gives, among `n`-th roots of
one. -/
def extract (n e z : ℤ) : ℤ := z * e.gcdA n

/-- **The logarithm is extracted** when the exponent of the public value has an inverse. -/
theorem eq_zpow_extract {g y : G} {n e z : ℤ} (hy : y ≠ 0) (hyn : y ^ n = 1)
    (h : y ^ e = g ^ z) (hcop : IsCoprime e n) : y = g ^ extract n e z := by
  have hone : e * e.gcdA n + n * e.gcdB n = 1 := by
    rw [← Int.gcd_eq_gcd_ab, Int.isCoprime_iff_gcd_eq_one.mp hcop, Nat.cast_one]
  calc y = y ^ (e * e.gcdA n + n * e.gcdB n) := by rw [hone, zpow_one]
    _ = (y ^ e) ^ e.gcdA n * (y ^ n) ^ e.gcdB n := by rw [zpow_add₀ hy, zpow_mul, zpow_mul]
    _ = g ^ extract n e z := by rw [h, hyn, one_zpow, mul_one, ← zpow_mul, extract]

end SXP.Lib.SigmaProtocol
