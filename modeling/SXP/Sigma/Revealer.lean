import SXP.Sigma.Completeness

/-!
# What a revealer is bound to

A signature is a promise with a revealer, a response about the ciphertext that
only the sender or Trent should be able to give.  A response on its own has to
carry the challenge of its own mask; verification of a signature checks the
equations of the revealer and nothing about its challenge, so the response of
the simulator passes for every promise (`simulated_revealer`).
-/

namespace SXP.Sigma

open SXP.Lib SXP.Lib.Java SXP.Lib.BigInteger SXP.Lib.Text

variable (hash : List UInt8 → Digest)

/-- The revealer carries the challenge of its own mask. -/
def SigmaSignature.BindsRevealer (sign : SigmaSignature) (message : List UInt8) : Prop :=
  sign.rpcs.challenge = sendChallenge hash message sign.rpcs.masks.a

/-- What verification asks of a signature apart from its revealer. -/
structure SigmaSigner.AcceptsPromise (s : SigmaSigner) (message : List UInt8) (pcs : OrClause)
    (trentK : ElGamalKey) (and0 : AndClause) : Prop where
  first : pcs.ands.head? = some and0
  receiver : s.checksReceiver trentK and0.resEncrypt = .ok true
  pcs : pcs.verifies hash message = .ok true
  trent : s.checksTrent trentK = true

/-- The promise is accepted and the equations of the revealer hold, but its challenge is
another one than that of its mask. -/
structure SigmaSigner.Unbound (s : SigmaSigner) (message : List UInt8) (sign : SigmaSignature)
    (and0 : AndClause) : Prop where
  promise : s.AcceptsPromise hash message sign.pcs sign.trentK and0
  equations : sign.rpcs.verifies (some sign.trentK) and0.resEncrypt = .ok true
  challenge : ¬ sign.BindsRevealer hash message

theorem verify_iff_promise {s : SigmaSigner} {message : List UInt8} {sign : SigmaSignature} :
    s.verify hash message sign = .ok true ↔ ∃ and0,
      s.AcceptsPromise hash message sign.pcs sign.trentK and0 ∧
        sign.rpcs.verifies (some sign.trentK) and0.resEncrypt = .ok true := by
  rw [SigmaSigner.verify_iff]
  constructor
  · rintro ⟨and0, h⟩
    exact ⟨and0, ⟨h.first, h.receiver, h.pcs, h.trent⟩, h.rpcs⟩
  · rintro ⟨and0, h, hr⟩
    exact ⟨and0, h.first, h.receiver, h.pcs, hr, h.trent⟩

theorem sendChallenge_lt (message : List UInt8) (a : ℤ) :
    sendChallenge hash message a < 256 ^ 32 := by
  have h := signedValue_lt (hash (getBytes (newString message ++ decimal a))).val
  rwa [(hash _).property] at h

/-- A Schnorr response that the simulator gives to a challenge that no mask has. -/
theorem fabric_unbound {t : ElGamalKey} (ht : t.Valid) (message : List UInt8)
    (res : ResEncrypt) : ∃ rpcs, Fabric.sendResponseSchnorrFabric t (256 ^ 32) 0 = .ok rpcs ∧
      rpcs.verifies (some t) res = .ok true ∧
      rpcs.challenge ≠ sendChallenge hash message rpcs.masks.a := by
  have : Fact t.p.toNat.Prime := ⟨ht.prime⟩
  obtain ⟨rpcs, hrpcs, hacc⟩ := schnorr_fabric ht.publicOver (256 ^ 32) 0 res
  refine ⟨rpcs, hrpcs, hacc.verifies, ?_⟩
  rw [hacc.challenge]
  exact (sendChallenge_lt hash message rpcs.masks.a).ne'

/-- **Acceptance binds the revealer** of no accepted promise: each has an unbound one.  So it
binds all revealers of a promise exactly if the promise is not accepted, and one of them exactly
if the signature is not unbound. -/
theorem verify_binds_iff (s : SigmaSigner) (message : List UInt8) :
    (∀ (pcs : OrClause) (t : ElGamalKey), t.Valid →
      ((∀ rpcs, s.verify hash message ⟨pcs, rpcs, t⟩ = .ok true →
          SigmaSignature.BindsRevealer hash ⟨pcs, rpcs, t⟩ message) ↔
        ∀ and0, ¬ s.AcceptsPromise hash message pcs t and0)) ∧
    ∀ sign, (s.verify hash message sign = .ok true → sign.BindsRevealer hash message) ↔
      ∀ and0, ¬ s.Unbound hash message sign and0 := by
  refine ⟨?_, ?_⟩
  · intro pcs t ht
    constructor
    · intro h and0 hpromise
      obtain ⟨rpcs, -, hequations, hunbound⟩ := fabric_unbound hash ht message and0.resEncrypt
      exact hunbound (h rpcs ((verify_iff_promise hash).mpr ⟨and0, hpromise, hequations⟩))
    · intro h rpcs hv
      obtain ⟨and0, hpromise, -⟩ := (verify_iff_promise hash).mp hv
      exact absurd hpromise (h and0)
  · intro sign
    constructor
    · intro h and0 hu
      exact hu.challenge (h ((verify_iff_promise hash).mpr ⟨and0, hu.promise, hu.equations⟩))
    · intro h hv
      obtain ⟨and0, hpromise, hequations⟩ := (verify_iff_promise hash).mp hv
      by_contra hb
      exact h and0 ⟨hpromise, hequations, hb⟩

/-- An honest promise is accepted, so not all revealers are bound. -/
theorem verify_binds_sample : ∃ or and0,
    PCS.getPcs sha256 (sampleKey 1000) (sampleKey 1002).getPublicKeys (getBytes "contract")
      (sampleKey 1001).getPublicKeys 7 ⟨1, 2, 3, 4, 5, 6⟩ = .ok or ∧
    SigmaSigner.AcceptsPromise sha256 ⟨none, none⟩ (getBytes "contract") or
      (sampleKey 1002).getPublicKeys and0 ∧
    ¬ ∀ rpcs, SigmaSigner.verify sha256 ⟨none, none⟩ (getBytes "contract")
        ⟨or, rpcs, (sampleKey 1002).getPublicKeys⟩ = .ok true →
      SigmaSignature.BindsRevealer sha256 ⟨or, rpcs, (sampleKey 1002).getPublicKeys⟩
        (getBytes "contract") := by
  have hvalid := sampleKey_valid 1002
  have : Fact (sampleKey 1002).getPublicKeys.p.toNat.Prime := ⟨hvalid.prime⟩
  obtain ⟨or, res, hor, hp, -⟩ := getPcs_isPromise sha256
    (sampleKey_registered (x := 1000) 1002 (by decide +kernel)) (sampleKey_owned 1000)
    (sampleKey_valid 1001) (getBytes "contract") 7 ⟨1, 2, 3, 4, 5, 6⟩
  obtain ⟨and0, and1, hands, -⟩ := hp.ands
  have haccepts : SigmaSigner.AcceptsPromise sha256 ⟨none, none⟩ (getBytes "contract") or
      (sampleKey 1002).getPublicKeys and0 := ⟨by rw [hands]; rfl, rfl, hp.verifies, rfl⟩
  exact ⟨or, and0, hor, haccepts, fun h =>
    ((verify_binds_iff sha256 ⟨none, none⟩ (getBytes "contract")).1 or _ hvalid).mp h and0 haccepts⟩

/-- The first part of the mask of a simulated response about a ciphertext. -/
theorem fabric_mask_a {res : ResEncrypt} {t : ElGamalKey} {c r : ℤ} {resp : Responses}
    (h : Fabric.sendResponseCCEFabric res t c r = .ok resp) :
    ∃ gPowr power modInv, modPow t.g r t.p = .ok gPowr ∧ modPow res.u c t.p = .ok power ∧
      modInverse power t.p = .ok modInv ∧ resp.masks.a = gPowr * modInv := by
  rw [Fabric.sendResponseCCEFabric, bind_eq_ok] at h
  obtain ⟨mask, hmask, h⟩ := h
  rw [Fabric.fabricMaskCCE, bind_eq_ok] at hmask
  obtain ⟨gPowr, hg, hmask⟩ := hmask
  rw [bind_eq_ok] at hmask
  obtain ⟨power, hp, hmask⟩ := hmask
  rw [bind_eq_ok] at hmask
  obtain ⟨modInv, hi, hmask⟩ := hmask
  refine ⟨gPowr, power, modInv, hg, hp, hi, ?_⟩
  simp only [bind_eq_ok, pure_eq, Except.ok.injEq] at hmask h
  obtain ⟨_, -, _, -, _, -, _, -, _, -, rfl⟩ := hmask
  rw [← h]

/-- **A promise becomes a signature without a nonce and without Trent's key**:
the simulated revealer is accepted, whatever challenge was chosen. -/
theorem simulated_revealer {k k' t : ElGamalKey} (h : Registered t k) (hk : k.Owned)
    (h' : k'.Valid) (m : List UInt8) (nonce : ℤ) (d : PCS.Draws) :
    ∃ or res, PCS.getPcs hash k t m k' nonce d = .ok or ∧
      or.ands.head?.map AndClause.resEncrypt = some res ∧
      modPow t.g nonce t.p = .ok res.u ∧
      ∀ c r : ℤ, ∃ rpcs, Fabric.sendResponseCCEFabric res t c r = .ok rpcs ∧
        rpcs.challenge = c ∧ ∀ s : SigmaSigner, s.Agrees k t →
          s.verify hash m ⟨or, rpcs, t⟩ = .ok true := by
  have hfact : Fact t.p.toNat.Prime := ⟨h.trent.prime⟩
  obtain ⟨or, res, hor, hp, hid, ho, hu⟩ := getPcs_isPromise hash h hk h' m nonce d
  obtain ⟨and0, and1, hands, hres, -⟩ := hp.ands
  refine ⟨or, res, hor, ?_, hu, ?_⟩
  · rw [hands, List.head?_cons, Option.map_some, hres]
  · intro c r
    obtain ⟨rpcs, hrpcs, hacc⟩ := cce_fabric h.trent.publicOver ho c r
    refine ⟨rpcs, hrpcs, hacc.challenge, ?_⟩
    intro s hs
    exact verify_of_promise hash hp hid hacc.verifies hs

theorem sendChallenge_getBytes (message : String) {a : ℤ} (ha : 0 ≤ a) :
    sendChallenge hash (getBytes message) a = signedValue (hash (getBytes message ++
      (Nat.toDigits 10 a.toNat).flatMap String.utf8EncodeChar)).val := by
  have hdec : getBytes (decimal a) = (Nat.toDigits 10 a.toNat).flatMap String.utf8EncodeChar := by
    rw [← decimal_toList ha]
    rfl
  rw [sendChallenge, newString_getBytes, getBytes_append, hdec]

def simulatedMask (t : ElGamalKey) (nonce c r : ℤ) : Java ℤ := do
  let u ← modPow t.g nonce t.p
  let gPowr ← modPow t.g r t.p
  let power ← modPow u c t.p
  let modInv ← modInverse power t.p
  return gPowr * modInv

/-- One party's promise, a revealer to the challenge `5`, and the signer of another
party. -/
theorem revealer_unbound : ∃ or and0 rpcs,
    PCS.getPcs sha256 (sampleKey 1000) (sampleKey 1002).getPublicKeys (getBytes "contract")
      (sampleKey 1001).getPublicKeys 7 ⟨1, 2, 3, 4, 5, 6⟩ = .ok or ∧ or.ands.head? = some and0 ∧
    Fabric.sendResponseCCEFabric and0.resEncrypt (sampleKey 1002).getPublicKeys 5 11 = .ok rpcs ∧
    SigmaSigner.verify sha256
      ⟨some (sampleKey 1002).getPublicKeys, some (sampleKey 1000).getPublicKeys⟩
      (getBytes "contract") ⟨or, rpcs, (sampleKey 1002).getPublicKeys⟩ = .ok true ∧
    rpcs.challenge ≠ sendChallenge sha256 (getBytes "contract") rpcs.masks.a := by
  have hreg := sampleKey_registered (x := 1000) 1002 (by decide +kernel)
  obtain ⟨or, res, hor, hres, hu, hsim⟩ := simulated_revealer sha256 hreg (sampleKey_owned 1000)
    (sampleKey_valid 1001) (getBytes "contract") 7 ⟨1, 2, 3, 4, 5, 6⟩
  obtain ⟨and0, hand0, rfl⟩ := Option.map_eq_some_iff.mp hres
  obtain ⟨rpcs, hrpcs, hc, hacc⟩ := hsim 5 11
  refine ⟨or, and0, rpcs, hor, hand0, hrpcs, hacc _ ⟨?_, ?_⟩, ?_⟩
  · rintro r ⟨⟩
    rfl
  · rintro r ⟨⟩
    rfl
  · obtain ⟨gPowr, power, modInv, hg, hp, hi, ha⟩ := fabric_mask_a hrpcs
    have hmask : simulatedMask (sampleKey 1002).getPublicKeys 7 5 11 = .ok rpcs.masks.a := by
      rw [simulatedMask, hu, ok_bind, hg, ok_bind, hp, ok_bind, hi, ok_bind, ha, pure_eq]
    have hrun : (simulatedMask (sampleKey 1002).getPublicKeys 7 5 11).toOption.all (fun a => decide (0 ≤ a ∧
        5 ≠ signedValue (sha256 (getBytes "contract" ++
          (Nat.toDigits 10 a.toNat).flatMap String.utf8EncodeChar)).val)) = true := by
      decide +kernel
    rw [hmask, Except.toOption, Option.all_some, decide_eq_true_eq] at hrun
    rw [hc, sendChallenge_getBytes sha256 "contract" hrun.1]
    exact hrun.2

end SXP.Sigma
