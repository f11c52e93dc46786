import SXP.Sigma.Entity
import SXP.Lib.SigmaProtocol

/-!
# Verification

What the receiver of a promise or of a signature checks.  The three classes of
responses verify one equation or two, all of the form `base ^ r = pub ^ c * a`
modulo `p`; an `AndClause` verifies its responses, an `OrClause` verifies its
clauses and then that the challenges combine to the challenge of the message,
and a signer verifies whose identity is encrypted, the promise and the revealer.

The message enters through the challenge alone.  So a signature that is
accepted on one message is verified on every other message without an
exception, and the outcome there is the comparison of challenges
(`SigmaSigner.verify_of_accepted`).
-/

namespace SXP.Sigma

open SXP.Lib SXP.Lib.Java SXP.Lib.BigInteger SXP.Lib.Text

/-! ### Responses -/

/-- `base.modPow(r, p).equals(pub.modPow(c, p).multiply(a).mod(p))`. -/
def equationHolds (p base pub : ℤ) (a : Option ℤ) (c r : ℤ) : Java Bool := do
  let left ← modPow base r p
  let power ← modPow pub c p
  let a ← nonNull a
  let right ← mod (power * a) p
  return left == right

/-- Modulo a prime the test is the verification equation of the field, where its powers exist. -/
theorem equationHolds_of_exists {p : ℕ} [Fact p.Prime] {base pub c r : ℤ}
    (hr : 0 ≤ r ∨ (base : ZMod p) ≠ 0) (hc : 0 ≤ c ∨ (pub : ZMod p) ≠ 0) (a : ℤ) :
    equationHolds p base pub (some a) c r
      = .ok (decide (SigmaProtocol.Accepts (base : ZMod p) pub a c r)) := by
  have hcast : (((((pub : ZMod p) ^ c).val : ℕ) : ℤ) * a : ℤ) = ((pub : ZMod p) ^ c * a : ZMod p) := by
    push_cast
    rw [ZMod.natCast_zmod_val]
  rw [equationHolds, modPow_of_exists hr, modPow_of_exists hc, nonNull_some]
  simp only [ok_bind, mod_eq, hcast, val_beq_val, pure_eq]
  rfl

theorem equationHolds_eq {p : ℕ} [Fact p.Prime] {base pub : ℤ} (hb : (base : ZMod p) ≠ 0)
    (hy : (pub : ZMod p) ≠ 0) (a c r : ℤ) :
    equationHolds p base pub (some a) c r
      = .ok (decide (SigmaProtocol.Accepts (base : ZMod p) pub a c r)) :=
  equationHolds_of_exists (Or.inr hb) (Or.inr hy) a

theorem exists_of_equationHolds {p : ℕ} [Fact p.Prime] {base pub c r : ℤ} {a : Option ℤ} {b : Bool}
    (h : equationHolds p base pub a c r = .ok b) :
    (0 ≤ r ∨ (base : ZMod p) ≠ 0) ∧ (0 ≤ c ∨ (pub : ZMod p) ≠ 0) := by
  have hpos : (0 : ℤ) < p := not_le.mp not_prime_le_zero
  rw [equationHolds] at h
  obtain ⟨left, hleft, h⟩ := bind_eq_ok.mp h
  obtain ⟨power, hpower, -⟩ := bind_eq_ok.mp h
  exact ⟨((modPow_total hpos).mp ⟨left, hleft⟩).imp_right gcd_eq_one_iff.mp,
    ((modPow_total hpos).mp ⟨power, hpower⟩).imp_right gcd_eq_one_iff.mp⟩

namespace Responses

def schnorrVerifies (r : Responses) (tKeys : ElGamalKey) : Java Bool :=
  equationHolds tKeys.p tKeys.g tKeys.publicKey (some r.masks.a) r.challenge r.response

def cceVerifies (r : Responses) (tKeys : ElGamalKey) (res : ResEncrypt) : Java Bool :=
  andThen (equationHolds tKeys.p tKeys.g res.u (some r.masks.a) r.challenge r.response) do
    let M ← ofBytes res.M
    let vDivM ← divide res.v M
    equationHolds tKeys.p tKeys.publicKey vDivM r.masks.aBis r.challenge r.response

def ccdVerifies (r : Responses) (tKeys : ElGamalKey) (res : ResEncrypt) : Java Bool :=
  andThen (equationHolds tKeys.p tKeys.g tKeys.publicKey (some r.masks.a) r.challenge r.response) do
    let M ← ofBytes res.M
    let vDivM ← divide res.v M
    equationHolds tKeys.p res.u vDivM r.masks.aBis r.challenge r.response

def verifies (r : Responses) (tKeys : Option ElGamalKey) (res : ResEncrypt) : Java Bool := do
  let tKeys ← nonNull tKeys
  match r.kind with
  | .schnorr => r.schnorrVerifies tKeys
  | .cce => r.cceVerifies tKeys res
  | .ccd => r.ccdVerifies tKeys res

end Responses

/-! ### Challenges -/

section

variable (hash : List UInt8 → Digest)

/-- The challenge to the mask commitment `a` on a message. -/
def sendChallenge (message : List UInt8) (a : ℤ) : ℤ :=
  signedValue (hash (getBytes (newString message ++ decimal a))).val

/-- A challenge on its own is bound to its mask. -/
def verifiesChallenge (challenge : ℤ) (mask : Masks) (message : List UInt8) : Bool :=
  challenge == sendChallenge hash message mask.a

/-- The challenges of an `OrClause` combine to the challenge of its `a`. -/
def verifiesChallenges (message : List UInt8) (a : ℤ) (challenges : List ℤ) : Bool :=
  challenges.foldl Int.xor 0 == sendChallenge hash message a

/-! ### Clauses -/

/-- The flag `or` says that the challenges are left to the enclosing `OrClause`. -/
def AndClause.verifies (and : AndClause) (or : Bool) : Java Bool :=
  Java.all (fun res =>
    andThen (pure (or || verifiesChallenge hash res.challenge res.masks and.resEncrypt.M))
      (res.verifies (and.rK.get res) and.resEncrypt)) and.responses

def OrClause.challenges (or : OrClause) : List ℤ :=
  or.ands.flatMap fun and => and.responses.map Responses.challenge

def OrClause.verifies (or : OrClause) (m : List UInt8) : Java Bool :=
  andThen (Java.all (fun and => and.verifies hash true) or.ands)
    (pure (verifiesChallenges hash m or.a or.challenges))

theorem OrClause.verifies_iff {or : OrClause} {m : List UInt8} :
    or.verifies hash m = .ok true ↔
      (∀ and ∈ or.ands, and.verifies hash true = .ok true) ∧
        verifiesChallenges hash m or.a or.challenges = true := by
  rw [OrClause.verifies, andThen_eq_true, all_eq_true, pure_eq, Except.ok.injEq]

/-! ### Signatures -/

/-- The keys a signature is checked with; both may be left unset. -/
structure SigmaSigner where
  trentK : Option ElGamalKey
  receiverK : Option ElGamalKey
deriving DecidableEq, Repr

namespace SigmaSigner

/-- The encrypted identity is the one of `receiverK`, when this is set. -/
def checksReceiver (s : SigmaSigner) (trentKey : ElGamalKey) (resE : ResEncrypt) : Java Bool :=
  match s.receiverK with
  | none => pure true
  | some k => do
      let m ← ofBytes resE.M
      let m ← mod m trentKey.p
      let data ← getIdentificationData k
      let n ← ofBytes data
      return m == n

/-- The signature is made for `trentK`, when this is set. -/
def checksTrent (s : SigmaSigner) (trentKey : ElGamalKey) : Bool :=
  match s.trentK with
  | none => true
  | some t => t.publicKey == trentKey.publicKey

def verify (s : SigmaSigner) (message : List UInt8) (sign : SigmaSignature) : Java Bool := do
  let and0 ← first sign.pcs.ands
  andThen (s.checksReceiver sign.trentK and0.resEncrypt) <|
  andThen (sign.pcs.verifies hash message) <|
  andThen (sign.rpcs.verifies (some sign.trentK) and0.resEncrypt) <|
  pure (s.checksTrent sign.trentK)

/-- What acceptance of a signature consists of. -/
structure Accepted (s : SigmaSigner) (message : List UInt8) (sign : SigmaSignature)
    (and0 : AndClause) : Prop where
  first : sign.pcs.ands.head? = some and0
  receiver : s.checksReceiver sign.trentK and0.resEncrypt = .ok true
  pcs : sign.pcs.verifies hash message = .ok true
  rpcs : sign.rpcs.verifies (some sign.trentK) and0.resEncrypt = .ok true
  trent : s.checksTrent sign.trentK = true

theorem verify_iff {s : SigmaSigner} {message : List UInt8} {sign : SigmaSignature} :
    s.verify hash message sign = .ok true ↔ ∃ and0, s.Accepted hash message sign and0 := by
  rw [verify, bind_eq_ok]
  constructor
  · rintro ⟨and0, h0, h⟩
    rw [andThen_eq_true, andThen_eq_true, andThen_eq_true, pure_eq, Except.ok.injEq] at h
    obtain ⟨hr, hp, hv, ht⟩ := h
    exact ⟨and0, first_eq_ok.mp h0, hr, hp, hv, ht⟩
  · rintro ⟨and0, h0, hr, hp, hv, ht⟩
    refine ⟨and0, first_eq_ok.mpr h0, ?_⟩
    rw [hr, andThen_true, hp, andThen_true, hv, andThen_true, ht, pure_eq]

/-- **A signature accepted on one message** never throws on another, where the
outcome is the comparison of challenges. -/
theorem verify_of_accepted {s : SigmaSigner} {message : List UInt8} {sign : SigmaSignature}
    (h : s.verify hash message sign = .ok true) (message' : List UInt8) :
    s.verify hash message' sign
      = .ok (verifiesChallenges hash message' sign.pcs.a sign.pcs.challenges) := by
  obtain ⟨and0, h0, hr, hp, hv, ht⟩ := (verify_iff hash).mp h
  have hands := ((OrClause.verifies_iff hash).mp hp).1
  rw [verify, first_eq_ok.mpr h0, ok_bind, hr, andThen_true, OrClause.verifies,
    all_eq_true.mpr hands, andThen_true, hv, ht]
  cases verifiesChallenges hash message' sign.pcs.a sign.pcs.challenges <;> rfl

end SigmaSigner

end

end SXP.Sigma
