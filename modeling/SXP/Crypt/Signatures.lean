import SXP.Crypt.ElGamalSigner
import SXP.Crypt.PrimeKey

/-!
# Signatures with any parameters

Two classes sign with the same numbers and verify the same equation, under the parameters of their
key.  The number that is drawn must not share a factor with the modulus; what the signer inverts it
modulo is one less (`sign_verify_iff`).  The verifier takes any two numbers (`verify_range_iff`), so
that the signature of one message becomes a signature of another one (`verify_forged`).
-/

namespace SXP.Crypt

open SXP.Lib SXP.Lib.Java SXP.Lib.BigInteger

structure ParameterKey extends ElGamalKey where
  p : ℤ
  g : ℤ

/-- The loop draws another number. -/
def drawsAgain (key : ParameterKey) (k : ℤ) : Bool := k ≤ 1 || Int.gcd k key.p != 1

section

variable (hash : List UInt8 → Digest)

def signature (noKey : JavaException) (key : ParameterKey) (message : List UInt8) (k : ℤ) :
    Java ElGamalSignature := do
  let x ← match key.privateKey with
    | none => throw noKey
    | some x => pure x
  let m := digest hash message
  let l ← modInverse k (key.p - 1)
  let r ← modPow key.g k key.p
  let e ← mod (m - r * x) (key.p - 1)
  return ⟨some r, some (l * e)⟩

def equation (key : ParameterKey) (publicKey : Option ℤ) (message : List UInt8)
    (sign : Option ElGamalSignature) : Java Bool := do
  let m := digest hash message
  let v ← modPow key.g m key.p
  let y ← nonNull publicKey
  let sign ← nonNull sign
  let r ← nonNull sign.r
  let a ← modPow y r key.p
  let s ← nonNull sign.s
  let b ← modPow r s key.p
  let w ← mod (a * b) key.p
  return v == w

namespace ElGamalSigner

def sign := signature hash (.runtime "Private key not set !")

def verify (key : ParameterKey) (message : List UInt8) (sign : Option ElGamalSignature) :
    Java Bool :=
  match key.publicKey with
  | none => throw (.runtime "public key not set !")
  | some y => equation hash key (some y) message sign

end ElGamalSigner

namespace ElGamal

def getMessageSignature := signature hash .nullPointer

/-- What is null is logged, and then read. -/
def verifySignature (key : ParameterKey) (message : List UInt8) (sign : Option ElGamalSignature) :
    Java Bool :=
  equation hash key key.publicKey message sign

end ElGamal

variable {hash}

/-! ### The factory -/

theorem sign_factory (key : ElGamalKey) (message : List UInt8) (k : Draw) :
    sign hash key message k =
      ElGamalSigner.sign hash ⟨key, ElGamalAsymKeyFactory.P, ElGamalAsymKeyFactory.G⟩ message k.val :=
  rfl

theorem verify_factory (key : ElGamalKey) (message : List UInt8) (σ : ElGamalSignature) :
    verify hash key message σ = ElGamalSigner.verify hash
      ⟨key, ElGamalAsymKeyFactory.P, ElGamalAsymKeyFactory.G⟩ message (some σ) := by
  unfold verify ElGamalSigner.verify
  dsimp only
  cases key.publicKey with
  | none => rfl
  | some y => rfl

/-! ### What is signed -/

namespace PrimeKey

variable (K : PrimeKey)

def key : ParameterKey := ⟨⟨some K.y, some K.x⟩, K.p, K.g⟩

theorem p_sub_one_pos : (0 : ℤ) < (K.p : ℤ) - 1 := by
  have := K.one_lt_p
  omega

theorem mod_p_sub_one (a : ℤ) : mod a ((K.p : ℤ) - 1) = .ok (a % ((K.p : ℤ) - 1)) :=
  if_neg (not_le.mpr K.p_sub_one_pos)

/-- **When a message is signed**: the number that was drawn has an inverse. -/
theorem signature_total (noKey : JavaException) (message : List UInt8) (k : ℤ) :
    (∃ σ, signature hash noKey K.key message k = .ok σ) ↔ Int.gcd k ((K.p : ℤ) - 1) = 1 := by
  rw [← modInverse_total K.p_sub_one_pos]
  simp only [signature, key, pure_eq, ok_bind, bind_eq_ok, K.mod_p_sub_one, K.modPow_g,
    Except.ok.injEq]
  constructor
  · rintro ⟨σ, l, hl, -⟩
    exact ⟨l, hl⟩
  · rintro ⟨l, hl⟩
    exact ⟨_, l, hl, rfl⟩

theorem signature_eq_ok {noKey : JavaException} {message : List UInt8} {k : ℤ}
    {σ : ElGamalSignature} (h : signature hash noKey K.key message k = .ok σ) : ∃ l r,
      k * l ≡ 1 [ZMOD (K.p : ℤ) - 1] ∧ modPow K.g k K.p = .ok r ∧
      σ = ⟨some r, some (Lib.ElGamal.answer ((K.p : ℤ) - 1) K.x l (digest hash message) r)⟩ := by
  simp only [signature, key, pure_eq, ok_bind, bind_eq_ok, K.mod_p_sub_one, Except.ok.injEq] at h
  obtain ⟨l, hl, r, hr, e, rfl, rfl⟩ := h
  exact ⟨l, r, modInverse_modEq hl, hr, rfl⟩

end PrimeKey

/-! ### The equation -/

section

variable {p : ℕ} [hp : Fact p.Prime]

/-- **What the verifier computes**, where the powers exist. -/
theorem equation_eq {key : ParameterKey} (hkey : key.p = p) {message : List UInt8} {y r s : ℤ}
    (hm : 0 ≤ digest hash message ∨ (key.g : ZMod p) ≠ 0) (hr : 0 ≤ r ∨ (y : ZMod p) ≠ 0)
    (hs : 0 ≤ s ∨ (r : ZMod p) ≠ 0) :
    equation hash key (some y) message (some ⟨some r, some s⟩) =
      .ok (decide
        ((key.g : ZMod p) ^ digest hash message = (y : ZMod p) ^ r * (r : ZMod p) ^ s)) := by
  unfold equation
  dsimp only
  rw [hkey, modPow_of_exists hm, ok_bind, nonNull_some, ok_bind, nonNull_some, ok_bind,
    nonNull_some, ok_bind, modPow_of_exists hr, ok_bind, nonNull_some, ok_bind,
    modPow_of_exists hs, ok_bind, mod_eq, ok_bind, pure_eq, val_beq_val, Int.cast_mul,
    Int.cast_natCast, Int.cast_natCast, ZMod.natCast_zmod_val, ZMod.natCast_zmod_val]

/-- **When the verifier has an answer.** -/
theorem equation_total {key : ParameterKey} (hkey : key.p = p) {message : List UInt8} {y r s : ℤ} :
    (∃ b, equation hash key (some y) message (some ⟨some r, some s⟩) = .ok b) ↔
      (0 ≤ digest hash message ∨ (key.g : ZMod p) ≠ 0) ∧ (0 ≤ r ∨ (y : ZMod p) ≠ 0) ∧
        (0 ≤ s ∨ (r : ZMod p) ≠ 0) := by
  have hpos : (0 : ℤ) < p := by exact_mod_cast hp.out.pos
  constructor
  · rintro ⟨b, h⟩
    unfold equation at h
    simp only [hkey, bind_eq_ok, nonNull_eq_ok, Option.some.injEq] at h
    obtain ⟨v, hv, _, rfl, _, rfl, r', hr', a, ha, s', hs', c, hc, -⟩ := h
    obtain rfl : r = r' := Option.some.inj hr'
    obtain rfl : s = s' := Option.some.inj hs'
    refine ⟨?_, ?_, ?_⟩
    · exact ((modPow_total hpos).mp ⟨v, hv⟩).imp_right gcd_eq_one_iff.mp
    · exact ((modPow_total hpos).mp ⟨a, ha⟩).imp_right gcd_eq_one_iff.mp
    · exact ((modPow_total hpos).mp ⟨c, hc⟩).imp_right gcd_eq_one_iff.mp
  · rintro ⟨hm, hr, hs⟩
    exact ⟨_, equation_eq hkey hm hr hs⟩

end

namespace PrimeKey

variable (K : PrimeKey)

/-- **What is signed is accepted.** -/
theorem equation_signature {noKey : JavaException} {message : List UInt8} {k : ℤ}
    {σ : ElGamalSignature} (h : signature hash noKey K.key message k = .ok σ) :
    equation hash K.key (some K.y) message (some σ) = .ok true := by
  obtain ⟨l, r, hkl, hr, rfl⟩ := K.signature_eq_ok h
  have hmask : (r : ZMod K.p) = ((K.generator ^ k : (ZMod K.p)ˣ) : ZMod K.p) :=
    K.cast_of_modPow K.g_cast hr
  have hne : ∀ u : (ZMod K.p)ˣ, (u : ZMod K.p) ≠ 0 := fun u => u.ne_zero
  rw [equation_eq (p := K.p) rfl (Or.inr (K.g_cast ▸ hne _)) (Or.inr (K.y_cast ▸ hne _))
    (Or.inr (hmask ▸ hne _)), Except.ok.injEq, decide_eq_true_eq]
  have haccepts := (Lib.ElGamal.accepts_iff (unit_zpow_sub_one K.generator) hkl K.x
    (digest hash message) (digest hash message) r).mpr rfl
  have hval := congrArg Units.val haccepts
  rw [Units.val_mul, Units.val_zpow_eq_zpow_val, Units.val_zpow_eq_zpow_val (K.generator ^ K.x),
    Units.val_zpow_eq_zpow_val (K.generator ^ k)] at hval
  change (K.g : ZMod K.p) ^ _ = _
  rw [K.y_cast, hmask]
  exact hval

/-- A prime that the loop lets pass. -/
structure Nonce where
  k : ℕ
  prime : k.Prime
  passes : drawsAgain K.key k = false

/-- **Signatures verify** for exactly the numbers that do not divide the order of the group; both
signers and their verifiers are alike. -/
theorem sign_verify_iff (hash : List UInt8 → Digest) (message : List UInt8) (n : K.Nonce) :
    ((∃ σ, ElGamalSigner.sign hash K.key message n.k = .ok σ ∧
      ElGamalSigner.verify hash K.key message (some σ) = .ok true) ↔ ¬ n.k ∣ K.p - 1) ∧
    ((∃ σ, ElGamal.getMessageSignature hash K.key message n.k = .ok σ ∧
      ElGamal.verifySignature hash K.key message (some σ) = .ok true) ↔ ¬ n.k ∣ K.p - 1) := by
  have hcast : (K.p : ℤ) - 1 = ((K.p - 1 : ℕ) : ℤ) := by
    have := K.one_lt_p
    omega
  have hgcd : Int.gcd n.k ((K.p : ℤ) - 1) = 1 ↔ ¬ n.k ∣ K.p - 1 := by
    rw [hcast, Int.gcd_natCast_natCast]
    exact n.prime.coprime_iff_not_dvd
  have hsigns : ∀ noKey, (∃ σ, signature hash noKey K.key message n.k = .ok σ ∧
      equation hash K.key (some K.y) message (some σ) = .ok true) ↔ ¬ n.k ∣ K.p - 1 := by
    intro noKey
    have hsigned : (∃ σ, signature hash noKey K.key message n.k = .ok σ) ↔ _ :=
      K.signature_total noKey message n.k
    rw [← hgcd, ← hsigned]
    exact ⟨fun ⟨σ, h, _⟩ => ⟨σ, h⟩, fun ⟨σ, h⟩ => ⟨σ, h, K.equation_signature h⟩⟩
  exact ⟨hsigns _, hsigns _⟩

end PrimeKey

def sampleNonce : samplePrimeKey.Nonce where
  k := sampleFactor
  prime := prime_sampleFactor
  passes := by
    have hgcd : Int.gcd sampleFactor sampleModulus = 1 := by
      unfold sampleModulus sampleFactor
      decide +kernel
    have hle : ¬ (sampleFactor : ℤ) ≤ 1 := by
      unfold sampleFactor
      decide +kernel
    change (decide ((sampleFactor : ℤ) ≤ 1) || Int.gcd sampleFactor sampleModulus != 1) = false
    rw [hgcd, decide_eq_false hle]
    rfl

/-- **A number that is let pass** and has no inverse: nothing is signed. -/
theorem sign_sampleNonce : sampleNonce.k.size = 1023 ∧
    ¬ ∃ σ, ElGamalSigner.sign sha256 samplePrimeKey.key [0] sampleNonce.k = .ok σ := by
  refine ⟨by unfold sampleNonce sampleFactor; decide +kernel, fun h => ?_⟩
  have hgcd := (samplePrimeKey.signature_total _ [0] sampleNonce.k).mp h
  refine absurd hgcd ?_
  change Int.gcd sampleFactor ((sampleModulus : ℤ) - 1) ≠ 1
  unfold sampleModulus sampleFactor
  decide +kernel

/-! ### What the verifier accepts -/

def publicKey (p : Nat.Primes) (g y : ℤ) : ParameterKey := ⟨⟨some y, none⟩, p.val, g⟩

theorem publicKey_p (p : Nat.Primes) (g y : ℤ) : (publicKey p g y).p = p.val := rfl

instance fact_prime (p : Nat.Primes) : Fact p.val.Prime := ⟨p.property⟩

/-- The verifier has an answer, and accepts only numbers in range that satisfy the equation. -/
def Checks (hash : List UInt8 → Digest) (p : Nat.Primes) (g y : ℤ) (message : List UInt8)
    (r s : ℤ) : Prop :=
  ∃ b, ElGamalSigner.verify hash (publicKey p g y) message (some ⟨some r, some s⟩) = .ok b ∧
    (b = true → (0 < r ∧ r < p.val) ∧
      (g : ZMod p.val) ^ digest hash message = (y : ZMod p.val) ^ r * (r : ZMod p.val) ^ s)

/-- **The range of signatures** is not looked at: the verifier checks what it should where every
negative exponent has a base that is no multiple of the modulus, and where the first number is in
range or the equation fails. -/
theorem verify_range_iff (hash : List UInt8 → Digest) (p : Nat.Primes) (g y : ℤ)
    (message : List UInt8) (r s : ℤ) :
    Checks hash p g y message r s ↔
      ((0 ≤ digest hash message ∨ ¬ (p.val : ℤ) ∣ g) ∧ (0 ≤ r ∨ ¬ (p.val : ℤ) ∣ y) ∧
        (0 ≤ s ∨ ¬ (p.val : ℤ) ∣ r)) ∧
      ((0 < r ∧ r < p.val) ∨
        (g : ZMod p.val) ^ digest hash message ≠ (y : ZMod p.val) ^ r * (r : ZMod p.val) ^ s) := by
  have hdvd : ∀ a : ℤ, ¬ (p.val : ℤ) ∣ a ↔ (a : ZMod p.val) ≠ 0 :=
    fun a => not_congr (ZMod.intCast_zmod_eq_zero_iff_dvd a p.val).symm
  rw [hdvd, hdvd, hdvd]
  constructor
  · rintro ⟨b, hb, hrange⟩
    obtain ⟨hm, hr, hs⟩ := (equation_total (publicKey_p p g y)).mp ⟨b, hb⟩
    refine ⟨⟨hm, hr, hs⟩, or_iff_not_imp_right.mpr fun heq => ?_⟩
    have haccepted := hb.symm.trans (equation_eq (publicKey_p p g y) hm hr hs)
    exact (hrange ((Except.ok.inj haccepted).trans (decide_eq_true (not_not.mp heq)))).1
  · rintro ⟨⟨hm, hr, hs⟩, h⟩
    refine ⟨_, equation_eq (publicKey_p p g y) hm hr hs, fun hb => ?_⟩
    have heq := of_decide_eq_true hb
    exact ⟨h.resolve_right (not_not.mpr heq), heq⟩

theorem zpow_congr {p : ℕ} [Fact p.Prime] {a : ZMod p} (ha : a ≠ 0) {e e' : ℤ}
    (h : e ≡ e' [ZMOD (p : ℤ) - 1]) : a ^ e = a ^ e' := by
  have hval := congrArg Units.val
    (Lib.ElGamal.zpow_congr (unit_zpow_sub_one (Units.mk0 a ha)) h)
  rwa [Units.val_zpow_eq_zpow_val, Units.val_zpow_eq_zpow_val, Units.val_mk0] at hval

/-- **A signature of another message** is made from one of a message: the first number as a base is
kept, and as an exponent it is multiplied like the rest. -/
theorem verify_forged {p : Nat.Primes} {g y : ℤ} {message message' : List UInt8} {r s r' d : ℤ}
    (hg : ¬ (p.val : ℤ) ∣ g) (hy : ¬ (p.val : ℤ) ∣ y) (hr : ¬ (p.val : ℤ) ∣ r)
    (hbase : r' ≡ r [ZMOD p.val]) (hexponent : r' ≡ r * d [ZMOD (p.val : ℤ) - 1])
    (hdigest : digest hash message' ≡ digest hash message * d [ZMOD (p.val : ℤ) - 1])
    (h : ElGamalSigner.verify hash (publicKey p g y) message (some ⟨some r, some s⟩) = .ok true) :
    ElGamalSigner.verify hash (publicKey p g y) message' (some ⟨some r', some (s * d)⟩) =
      .ok true := by
  have hunit : ∀ a : ℤ, ¬ (p.val : ℤ) ∣ a → (a : ZMod p.val) ≠ 0 :=
    fun a ha h => ha ((ZMod.intCast_zmod_eq_zero_iff_dvd a p.val).mp h)
  have hsame : (r' : ZMod p.val) = r := (ZMod.intCast_eq_intCast_iff _ _ _).mpr hbase
  change equation hash (publicKey p g y) (some y) _ _ = _ at h
  change equation hash (publicKey p g y) (some y) _ _ = _
  rw [equation_eq (p := p.val) rfl (Or.inr (hunit g hg)) (Or.inr (hunit y hy))
    (Or.inr (hunit r hr)), Except.ok.injEq, decide_eq_true_eq] at h
  rw [equation_eq (p := p.val) rfl (Or.inr (hunit g hg)) (Or.inr (hunit y hy))
    (Or.inr (hsame ▸ hunit r hr)), Except.ok.injEq, decide_eq_true_eq]
  change (g : ZMod p.val) ^ _ = _ at h
  change (g : ZMod p.val) ^ _ = _
  -- every exponent is multiplied by `d`
  calc (g : ZMod p.val) ^ digest hash message'
      = (g : ZMod p.val) ^ (digest hash message * d) := zpow_congr (hunit g hg) hdigest
    _ = ((y : ZMod p.val) ^ r * (r : ZMod p.val) ^ s) ^ d := by rw [zpow_mul, h]
    _ = (y : ZMod p.val) ^ (r * d) * (r : ZMod p.val) ^ (s * d) := by
        rw [mul_zpow, ← zpow_mul, ← zpow_mul]
    _ = (y : ZMod p.val) ^ r' * (r' : ZMod p.val) ^ (s * d) := by
        rw [hsame, zpow_congr (hunit y hy) hexponent]

def smallPrime : Nat.Primes := ⟨23, by decide⟩

/-- **The signature `(10, 225)` of one message** gives `(194, 900)` for another one. -/
theorem verify_small :
    ElGamalSigner.sign sha256 ⟨⟨some 17, some 7⟩, 23, 5⟩ [0] 3 = .ok ⟨some 10, some 225⟩ ∧
    ElGamalSigner.verify sha256 (publicKey smallPrime 5 17) [1] (some ⟨some 194, some 900⟩) =
      .ok true ∧
    ¬ Checks sha256 smallPrime 5 17 [1] 194 900 := by
  have hsign : ElGamalSigner.sign sha256 ⟨⟨some 17, some 7⟩, 23, 5⟩ [0] 3 =
      .ok ⟨some 10, some 225⟩ := by
    decide +kernel
  have haccepted : ElGamalSigner.verify sha256 (publicKey smallPrime 5 17) [1]
      (some ⟨some 194, some 900⟩) = .ok true := by
    decide +kernel
  refine ⟨hsign, haccepted, ?_⟩
  rintro ⟨b, hb, hrange⟩
  have hlt := (hrange (Except.ok.inj (hb.symm.trans haccepted))).1.2
  exact absurd hlt (by decide)

end

end SXP.Crypt
