import SXP.Sigma.Contract

/-!
# Where verification throws nothing

What a party verifies comes from others, and so do the numbers it computes with.  A modulus that
is not positive, a negative exponent over a base that cannot be inverted, a plaintext that is `0`
or no number, a response without a key: each of them ends a verification by an exception, if the
verification comes to it.

`Answers` says of the responses, the clauses, the signatures and the contract that no such number
is come to.  It is exactly when the tests of the classes return.
-/

namespace SXP.Sigma

open SXP.Lib SXP.Lib.Java SXP.Lib.BigInteger SXP.Lib.Text

/-! ### Responses -/

structure Powers (p base pub c r : ℤ) : Prop where
  modulus : 0 < p
  response : 0 ≤ r ∨ Int.gcd base p = 1
  challenge : 0 ≤ c ∨ Int.gcd pub p = 1

theorem returns_equationHolds {p base pub c r : ℤ} {a : Option ℤ} :
    Returns (equationHolds p base pub a c r) ↔ Powers p base pub c r ∧ ∃ v, a = some v := by
  unfold equationHolds
  constructor
  · intro h
    obtain ⟨left, hleft, h⟩ := returns_bind.mp h
    obtain ⟨power, hpower, h⟩ := returns_bind.mp h
    obtain ⟨v, hv, -⟩ := returns_bind.mp h
    obtain ⟨hp, hr⟩ := returns_modPow.mp ⟨left, hleft⟩
    exact ⟨⟨hp, hr, (returns_modPow.mp ⟨power, hpower⟩).2⟩, v, nonNull_eq_ok.mp hv⟩
  · rintro ⟨⟨hp, hr, hc⟩, v, rfl⟩
    obtain ⟨left, hleft⟩ := returns_modPow.mpr ⟨hp, hr⟩
    obtain ⟨power, hpower⟩ := returns_modPow.mpr ⟨hp, hc⟩
    obtain ⟨right, hright⟩ := returns_mod (a := power * v).mpr hp
    rw [hleft, ok_bind, hpower, ok_bind, nonNull_some, ok_bind, hright]
    exact returns_ok _

namespace Responses

/-- The plaintext divides, and the powers of the second equation exist. -/
structure SecondAnswers (r : Responses) (p base : ℤ) (res : ResEncrypt) : Prop where
  plaintext : res.M ≠ []
  divisor : signedValue res.M ≠ 0
  powers : Powers p base (res.v.tdiv (signedValue res.M)) r.challenge r.response
  mask : ∃ aBis, r.masks.aBis = some aBis

theorem returns_second {r : Responses} {p base : ℤ} {res : ResEncrypt} :
    Returns (do
      let M ← ofBytes res.M
      let vDivM ← divide res.v M
      equationHolds p base vDivM r.masks.aBis r.challenge r.response) ↔
      r.SecondAnswers p base res := by
  constructor
  · intro h
    obtain ⟨M, hM, h⟩ := returns_bind.mp h
    obtain ⟨vDivM, hdiv, h⟩ := returns_bind.mp h
    obtain ⟨hne, rfl⟩ := ofBytes_eq_ok.mp hM
    have hzero := returns_divide.mp ⟨vDivM, hdiv⟩
    rw [divide, if_neg hzero, pure_eq, Except.ok.injEq] at hdiv
    subst hdiv
    obtain ⟨hpowers, hmask⟩ := returns_equationHolds.mp h
    exact ⟨hne, hzero, hpowers, hmask⟩
  · rintro ⟨hne, hzero, hpowers, hmask⟩
    rw [ofBytes_eq_ok.mpr ⟨hne, rfl⟩, ok_bind, divide, if_neg hzero, pure_eq, ok_bind]
    exact returns_equationHolds.mpr ⟨hpowers, hmask⟩

def Answers (r : Responses) (tKeys : ElGamalKey) (res : ResEncrypt) : Prop :=
  match r.kind with
  | .schnorr => Powers tKeys.p tKeys.g tKeys.publicKey r.challenge r.response
  | .cce =>
      Powers tKeys.p tKeys.g res.u r.challenge r.response ∧
        (equationHolds tKeys.p tKeys.g res.u (some r.masks.a) r.challenge r.response = .ok true →
          r.SecondAnswers tKeys.p tKeys.publicKey res)
  | .ccd =>
      Powers tKeys.p tKeys.g tKeys.publicKey r.challenge r.response ∧
        (equationHolds tKeys.p tKeys.g tKeys.publicKey (some r.masks.a) r.challenge r.response
            = .ok true →
          r.SecondAnswers tKeys.p res.u res)

/-- **A response is verified without an exception** when it has a key and the tests under it can
be computed. -/
theorem returns_verifies {r : Responses} {tKeys : Option ElGamalKey} {res : ResEncrypt} :
    Returns (r.verifies tKeys res) ↔ ∃ k, tKeys = some k ∧ r.Answers k res := by
  have hfirst : ∀ {p base pub a : ℤ}, Returns (equationHolds p base pub (some a) r.challenge
      r.response) ↔ Powers p base pub r.challenge r.response := by
    intro p base pub a
    rw [returns_equationHolds]
    exact and_iff_left ⟨a, rfl⟩
  have hkind : ∀ k, Returns (r.verifies (some k) res) ↔ r.Answers k res := by
    intro k
    unfold verifies Answers
    rw [nonNull_some, ok_bind]
    cases r.kind with
    | schnorr => exact hfirst
    | cce =>
      unfold cceVerifies
      rw [returns_andThen, hfirst, returns_second]
    | ccd =>
      unfold ccdVerifies
      rw [returns_andThen, hfirst, returns_second]
  cases tKeys with
  | none => exact iff_of_false (not_returns_error _) (by simp)
  | some k =>
    rw [hkind]
    exact ⟨fun h => ⟨k, rfl, h⟩, fun ⟨k', hk, h⟩ => Option.some.inj hk ▸ h⟩

end Responses

/-! ### Clauses -/

namespace AndClause

def Passes (and : AndClause) (r : Responses) : Prop :=
  r.verifies (and.rK.get r) and.resEncrypt = .ok true

def Answers (and : AndClause) : Prop :=
  ∀ r, Reaches and.Passes and.responses r → ∃ k, and.rK.get r = some k ∧ r.Answers k and.resEncrypt

theorem verifies_eq (hash : List UInt8 → Digest) (and : AndClause) : and.verifies hash true =
    Java.all (fun r => r.verifies (and.rK.get r) and.resEncrypt) and.responses := rfl

theorem returns_verifies {hash : List UInt8 → Digest} {and : AndClause} :
    Returns (and.verifies hash true) ↔ and.Answers := by
  rw [verifies_eq, returns_all]
  exact forall₂_congr fun r _ => Responses.returns_verifies

end AndClause

namespace OrClause

def Answers (or : OrClause) : Prop :=
  ∀ and, Reaches (fun and => ∀ r ∈ and.responses, and.Passes r) or.ands and → and.Answers

/-- **Whether a promise is verified without an exception** does not depend on the message. -/
theorem returns_verifies {hash : List UInt8 → Digest} {or : OrClause} {m : List UInt8} :
    Returns (or.verifies hash m) ↔ or.Answers := by
  rw [OrClause.verifies, pure_eq, returns_andThen, returns_all, and_iff_left fun _ => returns_ok _]
  have hpasses : (fun and : AndClause => and.verifies hash true = .ok true) =
      fun and => ∀ r ∈ and.responses, and.Passes r := by
    funext and
    rw [AndClause.verifies_eq, all_eq_true]
    rfl
  rw [hpasses]
  exact forall₂_congr fun and _ => AndClause.returns_verifies

end OrClause

/-! ### Signatures -/

namespace SigmaSigner

variable {hash : List UInt8 → Digest}

def ReceiverAnswers (s : SigmaSigner) (trentKey : ElGamalKey) (resE : ResEncrypt) : Prop :=
  ∀ k, s.receiverK = some k → resE.M ≠ [] ∧ 0 < trentKey.p ∧ 125 ≤ (decimal k.publicKey).length

theorem returns_checksReceiver {s : SigmaSigner} {trentKey : ElGamalKey} {resE : ResEncrypt} :
    Returns (s.checksReceiver trentKey resE) ↔ s.ReceiverAnswers trentKey resE := by
  unfold checksReceiver ReceiverAnswers
  cases s.receiverK with
  | none => exact iff_of_true (returns_ok true) (by simp)
  | some k =>
    dsimp only
    constructor
    · intro h k' hk
      obtain rfl := Option.some.inj hk
      obtain ⟨m, hm, h⟩ := returns_bind.mp h
      obtain ⟨m', hm', h⟩ := returns_bind.mp h
      obtain ⟨data, hdata, -⟩ := returns_bind.mp h
      exact ⟨returns_ofBytes.mp ⟨m, hm⟩, returns_mod.mp ⟨m', hm'⟩, length_of_identification hdata⟩
    · intro h
      obtain ⟨hne, hp, hlength⟩ := h k rfl
      obtain ⟨m, hm⟩ := returns_ofBytes.mpr hne
      obtain ⟨m', hm'⟩ := returns_mod (a := m).mpr hp
      obtain ⟨data, n, hdata, hn⟩ := identity_exists hlength
      rw [hm, ok_bind, hm', ok_bind, hdata, ok_bind, hn, ok_bind]
      exact returns_ok _

def Answers (hash : List UInt8 → Digest) (s : SigmaSigner) (message : List UInt8)
    (sign : SigmaSignature) : Prop :=
  ∃ and0, sign.pcs.ands.head? = some and0 ∧ s.ReceiverAnswers sign.trentK and0.resEncrypt ∧
    (s.checksReceiver sign.trentK and0.resEncrypt = .ok true →
      sign.pcs.Answers ∧ (sign.pcs.verifies hash message = .ok true →
        sign.rpcs.Answers sign.trentK and0.resEncrypt))

/-- **A signature is verified without an exception** when it has a clause and the tests that it
comes to can be computed. -/
theorem returns_verify {s : SigmaSigner} {message : List UInt8} {sign : SigmaSignature} :
    Returns (s.verify hash message sign) ↔ s.Answers hash message sign := by
  have hrpcs : ∀ {res}, Returns (sign.rpcs.verifies (some sign.trentK) res) ↔
      sign.rpcs.Answers sign.trentK res := by
    intro res
    rw [Responses.returns_verifies]
    exact ⟨fun ⟨k, hk, h⟩ => Option.some.inj hk ▸ h, fun h => ⟨_, rfl, h⟩⟩
  rw [verify, returns_bind]
  refine exists_congr fun and0 => ?_
  rw [first_eq_ok, pure_eq, returns_andThen, returns_andThen, returns_andThen,
    returns_checksReceiver, OrClause.returns_verifies, hrpcs, and_iff_left fun _ => returns_ok _]

end SigmaSigner

/-! ### The contract -/

namespace SigmaContract

variable {hash : List UInt8 → Digest}

/-- The walk through the parties goes on at one whose signature is none on the contract itself. -/
def GoesOn (hash : List UInt8 → Digest) (c : SigmaContract) (k : ElGamalKey) : Prop :=
  ∃ sign, c.signatures k = some sign ∧ c.verifiesClear hash k sign = .ok false

def SignatureAnswers (hash : List UInt8 → Digest) (c : SigmaContract) (k : ElGamalKey) : Prop :=
  ∀ sign, c.signatures k = some sign → (c.signer k).Answers hash c.clearData sign ∧
    (c.verifiesClear hash k sign = .ok false →
      ∀ round, Reaches (fun round => c.verifiesRound hash k sign round = .ok false) c.rounds round →
        (c.signer k).Answers hash (c.roundData round) sign)

def Answers (hash : List UInt8 → Digest) (c : SigmaContract) : Prop :=
  ∀ trentK, c.trentK = some trentK → ∀ k, Reaches (c.GoesOn hash) c.parties k →
    c.SignatureAnswers hash k

theorem goesOn_iff {c : SigmaContract} {k : ElGamalKey} {sign : SigmaSignature}
    (hs : c.signatures k = some sign) :
    c.GoesOn hash k ↔ c.verifiesClear hash k sign = .ok false := by
  unfold GoesOn
  rw [hs]
  exact ⟨fun ⟨_, hsign, h⟩ => Option.some.inj hsign ▸ h, fun h => ⟨sign, rfl, h⟩⟩

theorem signatureAnswers_iff {c : SigmaContract} {k : ElGamalKey} {sign : SigmaSignature}
    (hs : c.signatures k = some sign) : c.SignatureAnswers hash k ↔
      Returns (c.verifiesClear hash k sign) ∧ (c.verifiesClear hash k sign = .ok false →
        Returns (Java.any (c.verifiesRound hash k sign) c.rounds)) := by
  have hclear : Returns (c.verifiesClear hash k sign) ↔
      (c.signer k).Answers hash c.clearData sign := SigmaSigner.returns_verify
  have hround : ∀ round, Returns (c.verifiesRound hash k sign round) ↔
      (c.signer k).Answers hash (c.roundData round) sign := fun _ => SigmaSigner.returns_verify
  unfold SignatureAnswers
  rw [hs, hclear, returns_any]
  simp only [Option.some.injEq, forall_eq', hround]

theorem returns_finalizedLoop {c : SigmaContract} (result : Bool) (ks : List ElGamalKey) :
    Returns (c.finalizedLoop hash result ks) ↔
      ∀ k, Reaches (c.GoesOn hash) ks k → c.SignatureAnswers hash k := by
  induction ks generalizing result with
  | nil => exact iff_of_true (returns_ok result) fun k h => absurd h (not_reaches_nil _ k)
  | cons k ks ih =>
    rw [forall_reaches_cons, finalizedLoop]
    cases hs : c.signatures k with
    | none =>
      -- the walk ends at a party without a signature
      refine iff_of_true (returns_ok false) ⟨?_, ?_⟩
      · intro sign hsign
        exact absurd (hs.symm.trans hsign) (by simp)
      · rintro ⟨sign, hsign, -⟩
        exact absurd (hs.symm.trans hsign) (by simp)
    | some sign =>
      rw [goesOn_iff hs, signatureAnswers_iff hs]
      dsimp only
      rcases hclear : c.verifiesClear hash k sign with e | _ | _
      · exact iff_of_false (not_returns_error e) fun h => not_returns_error e h.1.1
      · rw [ok_bind, if_neg (by decide), returns_bind]
        constructor
        · rintro ⟨found, hfound, h⟩
          exact ⟨⟨returns_ok false, fun _ => ⟨found, hfound⟩⟩, fun _ => (ih _).mp h⟩
        · rintro ⟨⟨-, hany⟩, hrest⟩
          obtain ⟨found, hfound⟩ := hany rfl
          exact ⟨found, hfound, (ih _).mpr (hrest rfl)⟩
      · refine iff_of_true (returns_ok true) ⟨⟨returns_ok true, fun h => ?_⟩, fun h => ?_⟩
        · exact absurd h (by simp)
        · exact absurd h (by simp)

/-- **The finalization test throws nothing** when the stored signatures that it comes to can be
computed with. -/
theorem returns_isFinalized {c : SigmaContract} :
    Returns (c.isFinalized hash) ↔ c.Answers hash := by
  unfold isFinalized Answers
  cases c.trentK with
  | none => exact iff_of_true (returns_ok false) (by simp)
  | some trentK =>
    dsimp only
    rw [returns_finalizedLoop]
    exact ⟨fun h _ _ => h, fun h => h trentK rfl⟩

end SigmaContract

end SXP.Sigma
