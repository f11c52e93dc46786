import SXP.Crypt.ElGamalEngine
import SXP.Crypt.Signatures

/-!
# Blocks through the engine

`ElGamal` encrypts bytes and decrypts them by the engine of the repository, which reads them as a
number and writes the number that it finds.  The bytes of a number begin with none that is zero, so
the zeros at the beginning of a block are lost (`decrypt_encrypt_iff`).
-/

namespace SXP.Crypt

open SXP.Lib SXP.Lib.Java SXP.Lib.BigInteger

/-- `BigIntegers.asUnsignedByteArray` of the library.  Its versions differ in the bytes of `0`. -/
structure UnsignedBytes where
  toBytes : ℕ → List UInt8
  of_pos : ∀ n, 0 < n → toBytes n = asUnsignedByteArray n

def UnsignedBytes.short : UnsignedBytes := ⟨asUnsignedByteArray, fun _ _ => rfl⟩

namespace ElGamalEngineK

/-- `processBlock` with a public key, once the loop has ended with `k`. -/
def processPublic (p g : ℤ) (publicKey : Option ℤ) (k : ℤ) (block : List UInt8) :
    Java (List UInt8) := do
  let bitSize := bitLength p
  if block.length > (bitSize - 1 + 7) / 8 then throw .dataLength
  else if p ≤ magnitude block then throw .dataLength
  else
    let gamma ← modPow g k p
    let y ← nonNull publicKey
    let mask ← modPow y k p
    let phi ← mod (magnitude block * mask) p
    return half ((bitSize + 7) / 8) gamma.toNat ++ half ((bitSize + 7) / 8) phi.toNat

def processPrivate (U : UnsignedBytes) (p : ℤ) (privateKey : Option ℤ) (cypher : List UInt8) :
    Java (List UInt8) := do
  let bitSize := bitLength p
  if cypher.length > 2 * ((bitSize + 7) / 8) then throw .dataLength
  else
    let in1 := cypher.take (cypher.length / 2)
    let in2 := (cypher.drop (cypher.length / 2)).take (cypher.length / 2)
    let x ← nonNull privateKey
    let mask ← modPow (magnitude in1) (p - 1 - x) p
    let m ← mod (mask * magnitude in2) p
    return U.toBytes m.toNat

theorem encrypt_eq_processPublic (p g y : ℤ) (random : ℕ) (block : List UInt8) :
    encrypt p g y random block = processPublic p g (some y) (random % (p - 2) + 1) block := rfl

theorem decrypt_eq_processPrivate (p g x : ℤ) (cypher : List UInt8) :
    decrypt p g x cypher = processPrivate .short p (some x) cypher := rfl

end ElGamalEngineK

namespace ElGamal

open ElGamalEngineK

def encryptWithPublicKey (key : ParameterKey) (k : ℤ) (data : List UInt8) : Java (List UInt8) :=
  processPublic key.p key.g key.publicKey k data

def decryptWithPrivateKey (U : UnsignedBytes) (key : ParameterKey) (data : List UInt8) :
    Java (List UInt8) :=
  processPrivate U key.p key.privateKey data

end ElGamal

/-! ### The bytes of a number -/

theorem magnitude_dropWhile (l : List UInt8) : magnitude (l.dropWhile (· == 0)) = magnitude l := by
  induction l with
  | nil => rfl
  | cons b l ih =>
    by_cases hb : b = 0
    · rw [hb, List.dropWhile_cons_of_pos (by rfl), ih, magnitude_cons_zero]
    · rw [List.dropWhile_cons_of_neg (by simpa using hb)]

theorem headD_asUnsignedByteArray {n : ℕ} (hn : 0 < n) : (asUnsignedByteArray n).headD 0 ≠ 0 := by
  have hmagnitude := magnitude_dropWhile (toByteArray n)
  rw [magnitude_toByteArray] at hmagnitude
  have hhead : ((toByteArray n).dropWhile (· == 0)).headD 0 ≠ 0 := by
    have hne : (toByteArray n).dropWhile (· == 0) ≠ [] := by
      intro hnil
      rw [hnil] at hmagnitude
      exact hn.ne hmagnitude
    have hfirst := List.head_dropWhile_not (· == 0) hne
    rw [List.headD_eq_head?_getD, List.head?_eq_some_head hne, Option.getD_some]
    simpa using hfirst
  rw [← hmagnitude, asUnsignedByteArray_magnitude hhead]
  exact hhead

/-- **Which bytes a number is written with.** -/
theorem UnsignedBytes.toBytes_magnitude_iff (U : UnsignedBytes) {block : List UInt8} :
    U.toBytes (magnitude block) = block ↔
      block.headD 0 ≠ 0 ∨ (block = U.toBytes 0 ∧ magnitude block = 0) := by
  rcases Nat.eq_zero_or_pos (magnitude block) with hzero | hpos
  · have hhead : ¬ block.headD 0 ≠ 0 := by
      intro hhead
      cases block with
      | nil => exact hhead rfl
      | cons b block =>
        have hle := le_magnitude_cons b block
        have hb : 0 < b.toNat := Nat.pos_of_ne_zero fun hb => hhead (UInt8.toNat_inj.mp hb)
        have hprod := Nat.mul_pos hb (Nat.pow_pos (n := block.length) (by decide : 0 < 256))
        omega
    rw [hzero, or_iff_right hhead, and_iff_left rfl, eq_comm]
  · rw [U.of_pos _ hpos]
    constructor
    · intro h
      exact Or.inl (h ▸ headD_asUnsignedByteArray hpos)
    · rintro (hhead | ⟨-, hzero⟩)
      · exact asUnsignedByteArray_magnitude hhead
      · exact absurd hzero hpos.ne'

namespace PrimeKey

open ElGamalEngineK

variable (K : PrimeKey)

/-! ### One block -/

abbrev Mask : Type := {k : ℤ // 0 < k ∧ k ≤ K.p - 2}

def Accepts (block : List UInt8) : Prop :=
  block.length ≤ (bitLength K.p - 1 + 7) / 8 ∧ magnitude block < K.p

theorem encrypt_eq {block : List UInt8} (h : K.Accepts block) (k : ℤ) :
    ElGamal.encryptWithPublicKey K.key k block = .ok (
      bytesOf ((bitLength K.p + 7) / 8) ((K.generator ^ k : (ZMod K.p)ˣ) : ZMod K.p).val ++
      bytesOf ((bitLength K.p + 7) / 8)
        ((magnitude block : ZMod K.p) * ((K.generator ^ K.x) ^ k : (ZMod K.p)ˣ)).val) := by
  have hlt : ¬ (K.p : ℤ) ≤ magnitude block := by
    have := h.2
    omega
  unfold ElGamal.encryptWithPublicKey processPublic key
  dsimp only
  rw [if_neg (not_lt.mpr h.1), if_neg hlt, K.modPow_g, ok_bind, nonNull_some, ok_bind,
    modPow_unit K.y_cast, ok_bind, mod_eq, ok_bind, pure_eq, Int.toNat_natCast, Int.toNat_natCast,
    half_eq (lt_width (ZMod.val_lt _)), half_eq (lt_width (ZMod.val_lt _)), Int.cast_mul,
    Int.cast_natCast, Int.cast_natCast, ZMod.natCast_zmod_val]

/-- **The engine takes what fits**, and nothing else. -/
theorem encrypt_total {block : List UInt8} (k : ℤ) :
    (∃ cypher, ElGamal.encryptWithPublicKey K.key k block = .ok cypher) ↔ K.Accepts block := by
  constructor
  · rintro ⟨cypher, h⟩
    unfold ElGamal.encryptWithPublicKey processPublic key at h
    dsimp only at h
    split_ifs at h with hlength hlt
    exact ⟨not_lt.mp hlength, by omega⟩
  · exact fun h => ⟨_, K.encrypt_eq h k⟩

/-- **What is decrypted** is the number of the block, in bytes. -/
theorem decrypt_encrypt (U : UnsignedBytes) {block cypher : List UInt8} {k : ℤ}
    (h : ElGamal.encryptWithPublicKey K.key k block = .ok cypher) :
    ElGamal.decryptWithPrivateKey U K.key cypher = .ok (U.toBytes (magnitude block)) := by
  have haccepts := (K.encrypt_total k).mp ⟨cypher, h⟩
  obtain rfl := Except.ok.inj ((K.encrypt_eq haccepts k).symm.trans h)
  unfold ElGamal.decryptWithPrivateKey processPrivate key
  dsimp only
  rw [List.length_append, length_bytesOf, length_bytesOf, if_neg (by omega),
    show ((bitLength K.p + 7) / 8 + (bitLength K.p + 7) / 8) / 2 = (bitLength K.p + 7) / 8 by omega,
    List.take_left' (length_bytesOf _ _), List.drop_left' (length_bytesOf _ _),
    List.take_of_length_le (length_bytesOf _ _).le, magnitude_bytesOf (lt_width (ZMod.val_lt _)),
    magnitude_bytesOf (lt_width (ZMod.val_lt _)), nonNull_some, ok_bind]
  rw [modPow_unit (u := K.generator ^ k) (by rw [Int.cast_natCast, ZMod.natCast_zmod_val]), ok_bind,
    mod_eq, ok_bind, pure_eq, Int.toNat_natCast, Int.cast_mul, Int.cast_natCast, Int.cast_natCast,
    ZMod.natCast_zmod_val, ZMod.natCast_zmod_val]
  -- the mask and its inverse
  have hmask : (K.generator ^ k) ^ ((K.p : ℤ) - 1 - K.x) * (K.generator ^ K.x) ^ k = 1 := by
    rw [zpow_sub, unit_zpow_sub_one, one_mul, ← zpow_mul, ← zpow_mul, mul_comm k, inv_mul_cancel]
  rw [mul_left_comm, ← Units.val_mul, hmask, Units.val_one, mul_one,
    ZMod.val_cast_of_lt haccepts.2]

/-- **Blocks come back** without the zeros at their beginning: those that are taken come back as
they were if they begin with another byte, or are what `0` is written with. -/
theorem decrypt_encrypt_iff (U : UnsignedBytes) (k : K.Mask) (block : List UInt8) :
    (∀ cypher, ElGamal.encryptWithPublicKey K.key k.val block = .ok cypher →
      ElGamal.decryptWithPrivateKey U K.key cypher = .ok block) ↔
      (K.Accepts block → block.headD 0 ≠ 0 ∨ (block = U.toBytes 0 ∧ magnitude block = 0)) := by
  rw [← U.toBytes_magnitude_iff]
  constructor
  · intro h haccepts
    obtain ⟨cypher, hcypher⟩ := (K.encrypt_total k.val).mpr haccepts
    have hblock := h cypher hcypher
    rw [K.decrypt_encrypt U hcypher] at hblock
    exact Except.ok.inj hblock
  · intro h cypher hcypher
    rw [K.decrypt_encrypt U hcypher, h ((K.encrypt_total k.val).mp ⟨cypher, hcypher⟩)]

end PrimeKey

/-- **A zero is lost**: the block `0, 1` comes back as `1`. -/
theorem decrypt_leading_zero : ∃ cypher,
    ElGamal.encryptWithPublicKey samplePrimeKey.key 1 [0, 1] = .ok cypher ∧
    ElGamal.decryptWithPrivateKey .short samplePrimeKey.key cypher = .ok [1] := by
  have haccepts : samplePrimeKey.Accepts [0, 1] := by
    unfold PrimeKey.Accepts samplePrimeKey sampleModulus sampleFactor
    exact ⟨by decide +kernel, by decide +kernel⟩
  obtain ⟨cypher, hcypher⟩ := (samplePrimeKey.encrypt_total 1).mpr haccepts
  exact ⟨cypher, hcypher, samplePrimeKey.decrypt_encrypt .short hcypher⟩

end SXP.Crypt
