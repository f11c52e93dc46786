import SXP.Sigma.Verify

/-!
# Making promises and signatures

The prover's side of every proof.  What the source draws at random is an
argument here, so a statement about all values of these arguments is a
statement about all outcomes of the draws.

A promise joins two proofs with an or: the first clause is proved with the
sender's key and the nonce of the encryption, the second is simulated, and the
challenge of the first is what makes all challenges combine to the challenge of
the message.
-/

namespace SXP.Sigma

open SXP.Lib SXP.Lib.Java SXP.Lib.BigInteger SXP.Lib.Text

/-! ### Encryption for Trent -/

structure ElGamalEncrypt where
  u : ℤ
  v : ℤ
  k : ℤ
deriving DecidableEq, Repr

/-- The engine refuses a block that is too long, or a number that is not below
the modulus; the ciphertext itself is not reduced. -/
def encryptForContract (keys : ElGamalKey) (data : List UInt8) (k : ℤ) : Java ElGamalEncrypt :=
  if (bitLength keys.p + 6) / 8 < data.length then throw .dataLength
  else if keys.p ≤ magnitude data then throw .dataLength
  else do
    let u ← modPow keys.g k keys.p
    let power ← modPow keys.publicKey k keys.p
    let m ← ofBytes data
    return ⟨u, power * m, k⟩

def ElGamalEncrypt.resEncrypt (e : ElGamalEncrypt) (input : List UInt8) : ResEncrypt :=
  ⟨e.u, e.v, input⟩

/-! ### Simulated responses -/

namespace Fabric

def fabricMaskSchnorr (c r : ℤ) (keys : ElGamalKey) : Java Masks := do
  let gPowr ← modPow keys.g r keys.p
  let power ← modPow keys.publicKey c keys.p
  let modInv ← modInverse power keys.p
  return ⟨gPowr * modInv, none⟩

/-- The challenge `c` and the response `r` are drawn first. -/
def sendResponseSchnorrFabric (keys : ElGamalKey) (c r : ℤ) : Java Responses := do
  let mask ← fabricMaskSchnorr c r keys
  return ⟨.schnorr, mask, c, r⟩

def fabricMaskCCE (c r : ℤ) (res : ResEncrypt) (keys : ElGamalKey) : Java Masks := do
  let gPowr ← modPow keys.g r keys.p
  let power ← modPow res.u c keys.p
  let modInv ← modInverse power keys.p
  let pubPowr ← modPow keys.publicKey r keys.p
  let M ← ofBytes res.M
  let vDivM ← divide res.v M
  let vDivMPowc ← modPow vDivM c keys.p
  let modInv' ← modInverse vDivMPowc keys.p
  return ⟨gPowr * modInv, some (pubPowr * modInv')⟩

def sendResponseCCEFabric (res : ResEncrypt) (keys : ElGamalKey) (c r : ℤ) : Java Responses := do
  let mask ← fabricMaskCCE c r res keys
  return ⟨.cce, mask, c, r⟩

end Fabric

/-! ### Proved responses

The sender keeps the exponent `s` of a mask until it answers the challenge; the
answer always follows the mask, so the exponent is passed on here. -/

namespace Sender

def sendMasksSchnorr (keys : ElGamalKey) (s : ℤ) : Java Masks := do
  let a ← modPow keys.g s keys.p
  return ⟨a, none⟩

def sendResponseSchnorr (keys : ElGamalKey) (mask : Masks) (challenge s : ℤ) : Java Responses := do
  let x ← nonNull keys.privateKey
  return ⟨.schnorr, mask, challenge, SigmaProtocol.respond x s challenge⟩

def sendMasksCCE (tKeys : ElGamalKey) (s : ℤ) : Java Masks := do
  let a ← modPow tKeys.g s tKeys.p
  let aBis ← modPow tKeys.publicKey s tKeys.p
  return ⟨a, some aBis⟩

def sendResponseCCE (hash : List UInt8 → Digest) (message : List UInt8) (tKeys : ElGamalKey)
    (k s : ℤ) : Java Responses := do
  let mask ← sendMasksCCE tKeys s
  let challenge := sendChallenge hash message mask.a
  return ⟨.cce, mask, challenge, SigmaProtocol.respond k s challenge⟩

end Sender

/-! ### Promises -/

namespace PCS

/-- What is drawn for one promise, next to the nonce of the encryption: the
challenges and responses of the two simulations and the exponents of the two
masks. -/
structure Draws where
  cSchnorr2 : ℤ
  rSchnorr2 : ℤ
  cCce2 : ℤ
  rCce2 : ℤ
  sCce1 : ℤ
  sSchnorr1 : ℤ
deriving DecidableEq, Repr

variable (hash : List UInt8 → Digest)

def createPcs (keys : ElGamalKey) (trentK : ElGamalKey) (res : ResEncrypt) (k : ℤ)
    (m : List UInt8) (receiverK : ElGamalKey) (d : Draws) : Java OrClause := do
  let resSchnorr2 ← Fabric.sendResponseSchnorrFabric receiverK d.cSchnorr2 d.rSchnorr2
  let resCce2 ← Fabric.sendResponseCCEFabric res trentK d.cCce2 d.rCce2
  let resCce1 ← Sender.sendResponseCCE hash m trentK k d.sCce1
  let mask ← Sender.sendMasksSchnorr keys d.sSchnorr1
  let c := sendChallenge hash m mask.a
  let challenge :=
    Int.xor c (Int.xor resSchnorr2.challenge (Int.xor resCce1.challenge resCce2.challenge))
  let resSchnorr1 ← Sender.sendResponseSchnorr keys mask challenge d.sSchnorr1
  let rK1 := (ResponseKeys.put [] resSchnorr1 keys.getPublicKeys).put resCce1 trentK
  let rK2 := (ResponseKeys.put [] resSchnorr2 receiverK).put resCce2 trentK
  return ⟨[⟨res, rK1, [resSchnorr1, resCce1]⟩, ⟨res, rK2, [resSchnorr2, resCce2]⟩], mask.a⟩

/-- A promise with a fresh encryption of the sender's identity. -/
def getPcs (keys : ElGamalKey) (trentK : ElGamalKey) (m : List UInt8) (receiverK : ElGamalKey)
    (k : ℤ) (d : Draws) : Java OrClause := do
  let b ← getIdentificationData keys.getPublicKeys
  let encrypt ← encryptForContract trentK b k
  createPcs hash keys trentK (encrypt.resEncrypt b) k m receiverK d

end PCS

/-! ### Signatures -/

/-- `sCce` is the exponent of the revealer's mask. -/
def SigmaSigner.sign (hash : List UInt8 → Digest) (s : SigmaSigner) (key : ElGamalKey)
    (message : List UInt8) (k sCce : ℤ) (d : PCS.Draws) : Java SigmaSignature :=
  match s.receiverK, s.trentK with
  | some receiverK, some trentK => do
      let b ← getIdentificationData key
      let encrypt ← encryptForContract trentK b k
      let rpcs ← Sender.sendResponseCCE hash message trentK k sCce
      let pcs ← PCS.createPcs hash key trentK (encrypt.resEncrypt b) k message receiverK d
      return ⟨pcs, rpcs, trentK⟩
  | _, _ => throw (.runtime "Trent and receiver keys not set")

end SXP.Sigma
