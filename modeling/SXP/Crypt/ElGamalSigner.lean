import SXP.Lib.ElGamal
import SXP.Lib.Sha256
import SXP.Lib.Text

/-!
# Signatures with the keys of the factory

The signer of entities works with the default parameters of the key factory.  It throws where a
reference is null or a power does not exist (`verify_total`), and what it signs is
accepted under the key of the signer for the messages whose digests are the same power of
the generator (`verify_sign`).
-/

namespace SXP.Crypt

open SXP.Lib SXP.Lib.Java SXP.Lib.BigInteger SXP.Lib.Text

namespace ElGamalAsymKeyFactory

@[irreducible] def P : ℕ := 124233341635855292420681698148845681014844866056212176632655173602444135581779341928584451946831820357622587249219477577145009300106828967466602146104562163160400103396735672041344557638270362523343149686623705761738910044071399582025053147811261321814632661084042311141045136246602979886564584763268994320823

@[irreducible] def G : ℕ := 57879985263161130068016239981615161174385902716647642452899971198439084259551250230041086427537114453738884538337956090286524329552098304591825815816298805245947460536391128315522193556464285417135160058086869161063941463490748168352401178939129440934609861888674726565294073773971086710395310743717916632171

theorem one_lt_P : 1 < P := by decide +kernel

instance : NeZero P := ⟨by have := one_lt_P; omega⟩

theorem powMod_G : powMod P (P - 1).size G (P - 1) = 1 := by decide +kernel

theorem pow_G : ((G : ℤ) : ZMod P) ^ (P - 1) = 1 := by
  rw [← cast_powMod, powMod_G, Int.cast_one]

def generator : (ZMod P)ˣ :=
  Units.ofPowEqOne ((G : ℤ) : ZMod P) (P - 1) pow_G (by have := one_lt_P; omega)

theorem generator_val : ((G : ℤ) : ZMod P) = generator := rfl

theorem generator_pow : generator ^ ((P : ℤ) - 1) = 1 := by
  have hcast : (P : ℤ) - 1 = ((P - 1 : ℕ) : ℤ) := by
    have := one_lt_P
    omega
  rw [hcast, zpow_natCast]
  exact Units.pow_ofPowEqOne _ _

theorem P_pos : (0 : ℤ) < P := by exact_mod_cast NeZero.pos P

theorem modPow_G (e : ℤ) :
    modPow G e P = .ok ((((generator ^ e : (ZMod P)ˣ) : ZMod P).val : ℕ) : ℤ) :=
  modPow_unit generator_val e

end ElGamalAsymKeyFactory

open ElGamalAsymKeyFactory

/-- A key of the factory with the default parameters.  Its two numbers may be null. -/
structure ElGamalKey where
  publicKey : Option ℤ
  privateKey : Option ℤ

structure ElGamalSignature where
  r : Option ℤ
  s : Option ℤ
deriving DecidableEq, Repr

/-- The numbers with which the loop of `sign` ends. -/
abbrev Draw : Type := {k : ℤ // 1 < k ∧ Int.gcd k P = 1}

section

variable (hash : List UInt8 → Digest)

def digest (message : List UInt8) : ℤ := signedValue (hash message).val

def sign (key : ElGamalKey) (message : List UInt8) (k : Draw) : Java ElGamalSignature := do
  let x ← match key.privateKey with
    | none => throw (.runtime "Private key not set !")
    | some x => pure x
  let m := digest hash message
  let l ← modInverse k.val (P - 1)
  let r ← modPow G k.val P
  let e ← mod (m - r * x) (P - 1)
  return ⟨some r, some (l * e)⟩

def verify (key : ElGamalKey) (message : List UInt8) (sign : ElGamalSignature) : Java Bool := do
  let y ← match key.publicKey with
    | none => throw (.runtime "public key not set !")
    | some y => pure y
  let m := digest hash message
  let v ← modPow G m P
  let r ← nonNull sign.r
  let a ← modPow y r P
  let s ← nonNull sign.s
  let b ← modPow r s P
  let w ← mod (a * b) P
  return v == w

/-! ### The verifier -/

variable {hash}

/-- **What the verifier computes.** -/
theorem verify_eq_ok {key : ElGamalKey} {message : List UInt8} {sign : ElGamalSignature}
    {accepted : Bool} : verify hash key message sign = .ok accepted ↔
      ∃ y r s a b v, key.publicKey = some y ∧ sign.r = some r ∧ sign.s = some s ∧
        modPow y r P = .ok a ∧ modPow r s P = .ok b ∧ modPow G (digest hash message) P = .ok v ∧
        (v == a * b % P) = accepted := by
  unfold verify
  cases hy : key.publicKey with
  | none => simp
  | some y =>
    simp only [pure_eq, ok_bind, bind_eq_ok, nonNull_eq_ok, mod, if_neg (not_le.mpr P_pos),
      Except.ok.injEq, Option.some.injEq]
    constructor
    · rintro ⟨v, hv, r, hr, a, ha, s, hs, b, hb, hw⟩
      exact ⟨y, r, s, a, b, v, rfl, hr, hs, ha, hb, hv, hw⟩
    · rintro ⟨y, r, s, a, b, v, rfl, hr, hs, ha, hb, hv, hw⟩
      exact ⟨v, hv, r, hr, a, ha, s, hs, b, hb, hw⟩

/-- **When the verifier has an answer**: nothing is null, and a negative exponent has a base that
can be inverted. -/
theorem verify_total {key : ElGamalKey} {message : List UInt8} {sign : ElGamalSignature} :
    (∃ accepted, verify hash key message sign = .ok accepted) ↔
      ∃ y r s, key.publicKey = some y ∧ sign.r = some r ∧ sign.s = some s ∧
        (0 ≤ r ∨ Int.gcd y P = 1) ∧ (0 ≤ s ∨ Int.gcd r P = 1) := by
  constructor
  · rintro ⟨accepted, h⟩
    obtain ⟨y, r, s, a, b, v, hy, hr, hs, ha, hb, -, -⟩ := verify_eq_ok.mp h
    exact ⟨y, r, s, hy, hr, hs, (modPow_total P_pos).mp ⟨a, ha⟩, (modPow_total P_pos).mp ⟨b, hb⟩⟩
  · rintro ⟨y, r, s, hy, hr, hs, hry, hsr⟩
    obtain ⟨a, ha⟩ := (modPow_total P_pos).mpr hry
    obtain ⟨b, hb⟩ := (modPow_total P_pos).mpr hsr
    exact ⟨_, verify_eq_ok.mpr ⟨y, r, s, a, b, _, hy, hr, hs, ha, hb, modPow_G _, rfl⟩⟩

/-! ### What is signed -/

def HasPublicKey (x y : ℤ) : Prop := modPow G x P = .ok y

theorem HasPublicKey.cast {x y : ℤ} (h : HasPublicKey x y) :
    (y : ZMod P) = ((generator ^ x : (ZMod P)ˣ) : ZMod P) := by
  rw [HasPublicKey, modPow_G, Except.ok.injEq] at h
  rw [← h, Int.cast_natCast, ZMod.natCast_zmod_val]

theorem sign_eq_ok {key : ElGamalKey} {message : List UInt8} {k : Draw} {σ : ElGamalSignature}
    (h : sign hash key message k = .ok σ) : ∃ x l r, key.privateKey = some x ∧
      k.val * l ≡ 1 [ZMOD (P : ℤ) - 1] ∧ modPow G k.val P = .ok r ∧
      σ = ⟨some r, some (ElGamal.answer ((P : ℤ) - 1) x l (digest hash message) r)⟩ := by
  have hpos : ¬ (P : ℤ) - 1 ≤ 0 := by
    have := one_lt_P
    omega
  unfold sign at h
  cases hx : key.privateKey with
  | none =>
    rw [hx] at h
    exact absurd h (by simp)
  | some x =>
    rw [hx] at h
    simp only [pure_eq, ok_bind, bind_eq_ok, mod, if_neg hpos, Except.ok.injEq] at h
    obtain ⟨l, hl, r, hr, e, rfl, rfl⟩ := h
    exact ⟨x, l, r, rfl, modInverse_modEq hl, hr, rfl⟩

theorem sign_total (hash : List UInt8 → Digest) (x : ℤ) (message : List UInt8) {k : Draw} :
    (∃ σ, sign hash ⟨none, some x⟩ message k = .ok σ) ↔ Int.gcd k.val ((P : ℤ) - 1) = 1 := by
  have hpos : (0 : ℤ) < (P : ℤ) - 1 := by
    have := one_lt_P
    omega
  rw [← modInverse_total hpos]
  simp only [sign, pure_eq, ok_bind, bind_eq_ok, mod, if_neg (not_le.mpr hpos), modPow_G,
    Except.ok.injEq]
  constructor
  · rintro ⟨σ, l, hl, -⟩
    exact ⟨l, hl⟩
  · rintro ⟨l, hl⟩
    exact ⟨_, l, hl, rfl⟩

/-- **What is signed is accepted** for the messages whose digest is the same power of the
generator, and for no others; the verifier always has an answer. -/
theorem verify_sign {x y : ℤ} (hkey : HasPublicKey x y) {message message' : List UInt8} {k : Draw}
    {σ : ElGamalSignature} (h : sign hash ⟨none, some x⟩ message k = .ok σ) :
    verify hash ⟨some y, none⟩ message' σ =
      .ok (decide (modPow G (digest hash message') P = modPow G (digest hash message) P)) := by
  obtain ⟨x', l, r, hx, hkl, hr, rfl⟩ := sign_eq_ok h
  obtain rfl := Option.some.inj hx
  have hmask : (r : ZMod P) = ((generator ^ k.val : (ZMod P)ˣ) : ZMod P) :=
    HasPublicKey.cast hr
  refine verify_eq_ok.mpr ⟨y, r, _, _, _, _, rfl, rfl, rfl, modPow_unit hkey.cast r,
    modPow_unit hmask _, modPow_G _, ?_⟩
  rw [Bool.eq_iff_iff, beq_iff_eq, decide_eq_true_eq, modPow_G, modPow_G, Except.ok.injEq,
    Nat.cast_inj, (ZMod.val_injective P).eq_iff, Units.val_inj]
  rw [← ElGamal.accepts_iff generator_pow hkl x (digest hash message) (digest hash message') r,
    ElGamal.Accepts]
  rw [← Nat.cast_mul, ← Int.natCast_mod, Nat.cast_inj, ← ZMod.val_mul,
    (ZMod.val_injective P).eq_iff, ← Units.val_mul, Units.val_inj]

end

end SXP.Crypt
