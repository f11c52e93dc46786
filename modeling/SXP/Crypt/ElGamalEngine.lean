import SXP.Lib.BigInteger

/-!
# The ElGamal engine

Passwords go through the ElGamal engine of a library.  What is relied on is that a block comes back
that is no larger than the modulus and has no leading zero byte (`RoundTrips`).

`ElGamalEngineK` is the repository's own engine, made after that of the library, and does so over
every modulus with a generator that Fermat's theorem holds for.
-/

namespace SXP.Crypt

open SXP.Lib SXP.Lib.Java SXP.Lib.BigInteger

structure ElGamalEngine where
  Random : Type
  encrypt : (p g y : ℤ) → Random → List UInt8 → Java (List UInt8)
  decrypt : (p g x : ℤ) → List UInt8 → Java (List UInt8)

def ElGamalEngine.RoundTrips (engine : ElGamalEngine) (p g : ℤ) : Prop :=
  ∀ x y random block, modPow g x p = .ok y → block.headD 0 ≠ 0 → 256 ^ block.length ≤ p →
    ∃ cypher, engine.encrypt p g y random block = .ok cypher ∧
      engine.decrypt p g x cypher = .ok block

namespace ElGamalEngineK

/-- The number at the end of its half of the output; a sign is cut off. -/
def half (w n : ℕ) : List UInt8 :=
  let out := toByteArray n
  if out.length > w then List.replicate (w - (out.length - 1)) 0 ++ out.drop 1
  else List.replicate (w - out.length) 0 ++ out

/-- `processBlock` with a public key; the loop ends with a number between `1` and `p - 2`. -/
def encrypt (p g y : ℤ) (random : ℕ) (block : List UInt8) : Java (List UInt8) := do
  let bitSize := bitLength p
  if block.length > (bitSize - 1 + 7) / 8 then throw .dataLength
  else if p ≤ magnitude block then throw .dataLength
  else
    let k : ℤ := random % (p - 2) + 1
    let gamma ← modPow g k p
    let mask ← modPow y k p
    let phi ← mod (magnitude block * mask) p
    return half ((bitSize + 7) / 8) gamma.toNat ++ half ((bitSize + 7) / 8) phi.toNat

/-- `processBlock` with a private key. -/
def decrypt (p _g x : ℤ) (cypher : List UInt8) : Java (List UInt8) := do
  let bitSize := bitLength p
  if cypher.length > 2 * ((bitSize + 7) / 8) then throw .dataLength
  else
    let in1 := cypher.take (cypher.length / 2)
    let in2 := (cypher.drop (cypher.length / 2)).take (cypher.length / 2)
    let mask ← modPow (magnitude in1) (p - 1 - x) p
    let m ← mod (mask * magnitude in2) p
    return asUnsignedByteArray m.toNat

def engine : ElGamalEngine where
  Random := ℕ
  encrypt := encrypt
  decrypt := decrypt

/-! ### The output -/

theorem half_eq {w n : ℕ} (h : n < 256 ^ w) : half w n = bytesOf w n := by
  have hsize : n.size ≤ 8 * w := by
    rw [show (256 : ℕ) = 2 ^ 8 from rfl, ← pow_mul] at h
    exact Nat.size_le.mpr h
  have hlength : (toByteArray n).length = n.size / 8 + 1 := length_bytesOf _ _
  unfold half
  dsimp only
  split
  · -- the number fills its half, and the sign is a byte more
    have heq : toByteArray n = 0 :: bytesOf w n := by
      refine magnitude_inj (by rw [hlength, List.length_cons, length_bytesOf]; omega) ?_
      rw [magnitude_toByteArray, magnitude_cons_zero, magnitude_bytesOf h]
    rw [heq, List.length_cons, length_bytesOf, Nat.add_sub_cancel, Nat.sub_self]
    rfl
  · refine magnitude_inj (by simp; omega) ?_
    rw [magnitude_replicate_zero, magnitude_toByteArray, magnitude_bytesOf h]

/-- The width of a half is enough for numbers below the modulus. -/
theorem lt_width {p n : ℕ} (h : n < p) : n < 256 ^ ((bitLength p + 7) / 8) := by
  rw [show (256 : ℕ) = 2 ^ 8 from rfl, ← pow_mul]
  refine (h.trans (Nat.lt_size_self p)).trans_le (Nat.pow_le_pow_right (by decide) ?_)
  rw [bitLength, Int.toNat_natCast]
  omega

theorem fits {p : ℕ} {block : List UInt8} (h : 256 ^ block.length ≤ p) :
    ¬ block.length > (bitLength p - 1 + 7) / 8 ∧ ¬ (p : ℤ) ≤ magnitude block := by
  have hlt := (magnitude_lt block).trans_le h
  rw [show (256 : ℕ) = 2 ^ 8 from rfl, ← pow_mul] at h
  have hsize := Nat.lt_size.mpr h
  rw [bitLength, Int.toNat_natCast]
  omega

/-- A cyphertext is as long as the modulus says, whatever the public key is. -/
theorem length_encrypt {p : ℕ} (hp : 1 < p) (g y : ℤ) (random : ℕ) (block : List UInt8)
    (hblock : 256 ^ block.length ≤ p) : ∃ cypher, encrypt p g y random block = .ok cypher ∧
      cypher.length = 2 * ((bitLength p + 7) / 8) := by
  have hpos : (0 : ℤ) < p := by omega
  have hk : (random : ℤ) % ((p : ℤ) - 2) + 1 = ((random % (p - 2) + 1 : ℕ) : ℤ) := by
    rw [show (p : ℤ) - 2 = ((p - 2 : ℕ) : ℤ) by omega]
    push_cast
    rfl
  have hhalf : ∀ a : ℤ, (half ((bitLength p + 7) / 8) (a % p).toNat).length =
      (bitLength p + 7) / 8 := by
    intro a
    have hnonneg := Int.emod_nonneg a hpos.ne'
    have hsmall := Int.emod_lt_of_pos a hpos
    rw [half_eq (lt_width (by omega)), length_bytesOf]
  unfold encrypt
  dsimp only
  rw [if_neg (fits hblock).1, if_neg (fits hblock).2, hk, modPow_natCast hpos, ok_bind,
    modPow_natCast hpos, ok_bind, powMod_size, powMod_size, mod, if_neg (not_le.mpr hpos)]
  refine ⟨_, rfl, ?_⟩
  rw [List.length_append, hhalf, hhalf]
  omega

section

variable {p : ℕ} [NeZero p] {u : (ZMod p)ˣ} {g : ℤ}

theorem encrypt_eq (hg : (g : ZMod p) = u) {x y : ℤ} (hy : modPow g x p = .ok y) (random : ℕ)
    {block : List UInt8} (hblock : 256 ^ block.length ≤ p) : ∃ k : ℤ,
      encrypt p g y random block = .ok (
        bytesOf ((bitLength p + 7) / 8) ((u ^ k : (ZMod p)ˣ) : ZMod p).val ++
        bytesOf ((bitLength p + 7) / 8)
          ((magnitude block : ZMod p) * ((u ^ x) ^ k : (ZMod p)ˣ)).val) := by
  have hpos : ¬ (p : ℤ) ≤ 0 := by
    have := NeZero.pos p
    omega
  rw [modPow_unit hg, Except.ok.injEq] at hy
  have hcast : (y : ZMod p) = ((u ^ x : (ZMod p)ˣ) : ZMod p) := by
    rw [← hy, Int.cast_natCast, ZMod.natCast_zmod_val]
  refine ⟨random % ((p : ℤ) - 2) + 1, ?_⟩
  have hphi : ((magnitude block : ℤ) * ((((u ^ x) ^ ((random : ℤ) % ((p : ℤ) - 2) + 1) :
      (ZMod p)ˣ) : ZMod p).val : ℤ) % p) = ((magnitude block : ZMod p) *
        ((u ^ x) ^ ((random : ℤ) % ((p : ℤ) - 2) + 1) : (ZMod p)ˣ)).val := by
    rw [ZMod.val_mul, ZMod.val_natCast, Nat.mod_mul_mod]
    push_cast
    rfl
  unfold encrypt
  dsimp only
  rw [if_neg (fits hblock).1, if_neg (fits hblock).2, modPow_unit hg, ok_bind,
    modPow_unit hcast, ok_bind, mod, if_neg hpos, pure_eq, ok_bind, hphi, pure_eq,
    Int.toNat_natCast, Int.toNat_natCast, half_eq (lt_width (ZMod.val_lt _)),
    half_eq (lt_width (ZMod.val_lt _))]

/-- **The engine of the repository gives blocks back.** -/
theorem roundTrips (hp : 1 < p) (hg : (g : ZMod p) = u) (hfermat : u ^ ((p : ℤ) - 1) = 1) :
    engine.RoundTrips p g := by
  intro x y random block hy hhead hblock
  have hblock' : 256 ^ block.length ≤ p := by exact_mod_cast hblock
  obtain ⟨k, hencrypt⟩ := encrypt_eq hg hy random hblock'
  refine ⟨_, hencrypt, ?_⟩
  have hpos : ¬ (p : ℤ) ≤ 0 := by omega
  have hm : magnitude block < p := (magnitude_lt block).trans_le hblock'
  change decrypt p g x _ = _
  unfold decrypt
  dsimp only
  rw [List.length_append, length_bytesOf, length_bytesOf, if_neg (by omega),
    show ((bitLength p + 7) / 8 + (bitLength p + 7) / 8) / 2 = (bitLength p + 7) / 8 by omega,
    List.take_left' (length_bytesOf _ _), List.drop_left' (length_bytesOf _ _),
    List.take_of_length_le (length_bytesOf _ _).le, magnitude_bytesOf (lt_width (ZMod.val_lt _)),
    magnitude_bytesOf (lt_width (ZMod.val_lt _))]
  rw [modPow_unit (u := u ^ k) (by rw [Int.cast_natCast, ZMod.natCast_zmod_val]), ok_bind, mod,
    if_neg hpos, pure_eq, ok_bind, pure_eq, ← Nat.cast_mul, ← Int.natCast_mod, Int.toNat_natCast,
    ← ZMod.val_mul]
  -- the mask and its inverse
  have hmask : (u ^ k) ^ ((p : ℤ) - 1 - x) * (u ^ x) ^ k = 1 := by
    rw [zpow_sub, ← zpow_mul u k, mul_comm k, zpow_mul, hfermat, one_zpow, one_mul, ← zpow_mul,
      ← zpow_mul, mul_comm k x, inv_mul_cancel]
  rw [mul_left_comm, ← Units.val_mul, hmask, Units.val_one, mul_one, ZMod.val_cast_of_lt hm,
    asUnsignedByteArray_magnitude hhead]

end

theorem roundTrips_of_powMod {p : ℕ} (hp : 1 < p) {g : ℤ}
    (h : powMod p (p - 1).size g (p - 1) = 1) : engine.RoundTrips p g := by
  have : NeZero p := ⟨by omega⟩
  have hpow : (g : ZMod p) ^ (p - 1) = 1 := by
    rw [← cast_powMod, h, Int.cast_one]
  refine roundTrips hp (u := Units.ofPowEqOne (g : ZMod p) (p - 1) hpow (by omega)) rfl ?_
  rw [show (p : ℤ) - 1 = ((p - 1 : ℕ) : ℤ) by omega, zpow_natCast]
  exact Units.pow_ofPowEqOne _ _

theorem decrypt_long {p : ℤ} {cypher : List UInt8} (h : 2 * ((bitLength p + 7) / 8) < cypher.length)
    (g x : ℤ) : decrypt p g x cypher = .error .dataLength := if_pos h

end ElGamalEngineK

end SXP.Crypt
