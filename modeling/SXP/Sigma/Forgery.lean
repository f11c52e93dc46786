import SXP.Sigma.Promise
import SXP.Sigma.Revealer

/-!
# What a promise is not bound to

The challenge of a promise is computed from the message and a number `a`, and
nothing compares `a` with the masks of the responses.  So `a` can be chosen
first: three responses are simulated for any challenges, the fourth for the
challenge that is left over, and the promise verifies although nobody has
proved anything (`verifies_commits_iff`).

A signature is checked against a party by the identity in its ciphertext, and
its responses against the keys of its own map.  Nothing compares the two.  So
whoever has a key of its own, or makes one up, signs for every party that has
an identity at all (`verify_made_iff`).
-/

namespace SXP.Sigma

open SXP.Lib SXP.Lib.Java SXP.Lib.BigInteger SXP.Lib.Text

variable (hash : List UInt8 → Digest)

/-! ### The mask commitment -/

/-- `a` is the mask commitment of a Schnorr response in one of the clauses. -/
def OrClause.Commits (o : OrClause) : Prop :=
  ∃ and ∈ o.ands, ∃ r ∈ and.responses, r.kind = .schnorr ∧ r.masks.a = o.a

/-- Every response fulfils its equations under its key, and the challenges combine to the
challenge of `a`. -/
structure OrClause.Balanced (o : OrClause) (m : List UInt8) : Prop where
  equations : ∀ and ∈ o.ands, ∀ r ∈ and.responses,
    r.verifies (and.rK.get r) and.resEncrypt = .ok true
  challenges : o.challenges.foldl Int.xor 0 = sendChallenge hash m o.a

theorem verifies_iff_balanced {o : OrClause} {m : List UInt8} :
    o.verifies hash m = .ok true ↔ o.Balanced hash m := by
  have hclause : ∀ and : AndClause, and.verifies hash true = .ok true ↔
      ∀ r ∈ and.responses, r.verifies (and.rK.get r) and.resEncrypt = .ok true := by
    intro and
    rw [AndClause.verifies, all_eq_true]
    refine forall₂_congr fun r _ => ?_
    rw [Bool.true_or, pure_eq, andThen_true]
  rw [OrClause.verifies_iff, verifiesChallenges, beq_iff_eq]
  constructor
  · rintro ⟨hands, hc⟩
    exact ⟨fun and hand => (hclause and).mp (hands and hand), hc⟩
  · intro h
    exact ⟨fun and hand => (hclause and).mpr (h.equations and hand), h.challenges⟩

/-- What a forger chooses: `a` first, three challenges, and all four responses. -/
structure Forgery where
  a : ℤ
  rSchnorr1 : ℤ
  cCce1 : ℤ
  rCce1 : ℤ
  cSchnorr2 : ℤ
  rSchnorr2 : ℤ
  cCce2 : ℤ
  rCce2 : ℤ

namespace Forgery

def challenge (f : Forgery) (m : List UInt8) : ℤ :=
  Int.xor (sendChallenge hash m f.a) (Int.xor f.cSchnorr2 (Int.xor f.cCce1 f.cCce2))

/-- A promise of four simulated responses; no private key occurs. -/
def promise (f : Forgery) (m : List UInt8) (k k' t : ElGamalKey) (res : ResEncrypt) :
    Java OrClause := do
  let resSchnorr1 ← Fabric.sendResponseSchnorrFabric k (f.challenge hash m) f.rSchnorr1
  let resCce1 ← Fabric.sendResponseCCEFabric res t f.cCce1 f.rCce1
  let resSchnorr2 ← Fabric.sendResponseSchnorrFabric k' f.cSchnorr2 f.rSchnorr2
  let resCce2 ← Fabric.sendResponseCCEFabric res t f.cCce2 f.rCce2
  let rK1 := (ResponseKeys.put [] resSchnorr1 k).put resCce1 t
  let rK2 := (ResponseKeys.put [] resSchnorr2 k').put resCce2 t
  return ⟨[⟨res, rK1, [resSchnorr1, resCce1]⟩, ⟨res, rK2, [resSchnorr2, resCce2]⟩], f.a⟩

/-- **The forgery verifies**; and it commits to its masks only if `a` happens to be one. -/
theorem verifies (f : Forgery) (m : List UInt8) {k k' t : ElGamalKey} (hk : k.Valid)
    (hk' : k'.Valid) (ht : t.Valid) {res : ResEncrypt} {U W : ZMod t.p.toNat}
    (hs : res.Spells U W) : ∃ o s1 s2, f.promise hash m k k' t res = .ok o ∧ o.a = f.a ∧
      o.verifies hash m = .ok true ∧
      Fabric.sendResponseSchnorrFabric k (f.challenge hash m) f.rSchnorr1 = .ok s1 ∧
      Fabric.sendResponseSchnorrFabric k' f.cSchnorr2 f.rSchnorr2 = .ok s2 ∧
      (o.Commits ↔ s1.masks.a = f.a ∨ s2.masks.a = f.a) := by
  have : Fact k.p.toNat.Prime := ⟨hk.prime⟩
  have : Fact k'.p.toNat.Prime := ⟨hk'.prime⟩
  have : Fact t.p.toNat.Prime := ⟨ht.prime⟩
  obtain ⟨s1, hs1, as1⟩ := schnorr_fabric hk.publicOver (f.challenge hash m) f.rSchnorr1 res
  obtain ⟨c1, hc1, ac1⟩ := cce_simulated ht.publicOver hs f.cCce1 f.rCce1
  obtain ⟨s2, hs2, as2⟩ := schnorr_fabric hk'.publicOver f.cSchnorr2 f.rSchnorr2 res
  obtain ⟨c2, hc2, ac2⟩ := cce_simulated ht.publicOver hs f.cCce2 f.rCce2
  refine ⟨_, s1, s2, ?_, ?_, clauses_verify hash as1 ac1 as2 ac2 rfl, hs1, hs2, ?_⟩
  · rw [promise, hs1, ok_bind, hc1, ok_bind, hs2, ok_bind, hc2, ok_bind, pure_eq]
  · rfl
  · constructor
    · rintro ⟨and, hand, r, hr, hkind, ha⟩
      rcases List.mem_pair.mp hand with rfl | rfl
      · rcases List.mem_pair.mp hr with rfl | rfl
        · exact Or.inl ha
        · rw [ac1.kind] at hkind
          exact absurd hkind (by decide)
      · rcases List.mem_pair.mp hr with rfl | rfl
        · exact Or.inr ha
        · rw [ac2.kind] at hkind
          exact absurd hkind (by decide)
    · rintro (ha | ha)
      · exact ⟨_, List.mem_cons_self, s1, List.mem_cons_self, as1.kind, ha⟩
      · exact ⟨_, List.mem_cons_of_mem _ List.mem_cons_self, s2, List.mem_cons_self, as2.kind, ha⟩

end Forgery

theorem schnorrFabric_nonneg {k : ElGamalKey} {c r : ℤ} {s : Responses}
    (h : Fabric.sendResponseSchnorrFabric k c r = .ok s) : 0 ≤ s.masks.a := by
  rw [Fabric.sendResponseSchnorrFabric, Fabric.fabricMaskSchnorr] at h
  simp only [bind_eq_ok, pure_eq, Except.ok.injEq] at h
  obtain ⟨mask, ⟨gPowr, hg, power, -, modInv, hinv, rfl⟩, rfl⟩ := h
  exact mul_nonneg (modPow_nonneg hg) (modInverse_nonneg hinv)

/-- **A promise that verifies need not commit to its masks**: all forgeries pass the tests, for
every message and whatever public keys, and they commit only by chance.  Of all promises exactly
those commit if they verify that do commit, or that fail one of the tests. -/
theorem verifies_commits_iff (m : List UInt8) :
    (∀ (k k' t : ElGamalKey) (res : ResEncrypt) (U W : ZMod t.p.toNat),
      k.Valid → k'.Valid → t.Valid → res.Spells U W →
      (∀ f : Forgery, ∃ o s1 s2, f.promise hash m k k' t res = .ok o ∧
        o.verifies hash m = .ok true ∧
        Fabric.sendResponseSchnorrFabric k (f.challenge hash m) f.rSchnorr1 = .ok s1 ∧
        Fabric.sendResponseSchnorrFabric k' f.cSchnorr2 f.rSchnorr2 = .ok s2 ∧
        ((o.verifies hash m = .ok true → o.Commits) ↔ s1.masks.a = f.a ∨ s2.masks.a = f.a)) ∧
      ∀ f : Forgery, f.a < 0 → ∃ o, f.promise hash m k k' t res = .ok o ∧
        ¬ (o.verifies hash m = .ok true → o.Commits)) ∧
    ∀ o : OrClause, (o.verifies hash m = .ok true → o.Commits) ↔
      o.Commits ∨ ¬ o.Balanced hash m := by
  refine ⟨?_, ?_⟩
  · intro k k' t res U W hk hk' ht hs
    refine ⟨?_, ?_⟩
    · intro f
      obtain ⟨o, s1, s2, ho, -, hv, hs1, hs2, hcommits⟩ := f.verifies hash m hk hk' ht hs
      exact ⟨o, s1, s2, ho, hv, hs1, hs2, by rw [forall_prop_of_true hv, hcommits]⟩
    · intro f ha
      obtain ⟨o, s1, s2, ho, -, hv, hs1, hs2, hcommits⟩ := f.verifies hash m hk hk' ht hs
      refine ⟨o, ho, fun h => ?_⟩
      rcases hcommits.mp (h hv) with h1 | h2
      · have := schnorrFabric_nonneg hs1
        omega
      · have := schnorrFabric_nonneg hs2
        omega
  · intro o
    rw [verifies_iff_balanced, imp_iff_or_not]

/-! ### The key of the signer -/

/-- The clause whose identity is revealed has a Schnorr response that is checked under the
key `k`. -/
def SigmaSignature.MadeWith (sign : SigmaSignature) (k : ElGamalKey) : Prop :=
  ∃ and0, sign.pcs.ands.head? = some and0 ∧ ∃ r ∈ and0.responses, r.kind = .schnorr ∧
    ∃ k', and0.rK.get r = some k' ∧ k'.equals k = true

/-- What `sign` does, with the key pair `key` and the identity of `k`. -/
def SigmaSigner.signAs (k key trentK receiverK : ElGamalKey) (message : List UInt8)
    (nonce sCce : ℤ) (d : PCS.Draws) : Java SigmaSignature := do
  let b ← getIdentificationData k
  let encrypt ← encryptForContract trentK b nonce
  let rpcs ← Sender.sendResponseCCE hash message trentK nonce sCce
  let pcs ← PCS.createPcs hash key trentK (encrypt.resEncrypt b) nonce message receiverK d
  return ⟨pcs, rpcs, trentK⟩

/-- **Any key pair signs for any party**, without the private key of that party. -/
theorem signAs_accepted {k key t receiverK : ElGamalKey} (h : Registered t k) (hkey : key.Valid)
    (ho : key.Owned) (hr : receiverK.Valid) (hne : key.equals k = false) (m : List UInt8)
    (nonce sCce : ℤ) (d : PCS.Draws) :
    ∃ sign, SigmaSigner.signAs hash k key t receiverK m nonce sCce d = .ok sign ∧
      SigmaSigner.verify hash ⟨some t, some k⟩ m sign = .ok true ∧ ¬ sign.MadeWith k := by
  have : Fact key.p.toNat.Prime := ⟨hkey.prime⟩
  have : Fact receiverK.p.toNat.Prime := ⟨hr.prime⟩
  have : Fact t.p.toNat.Prime := ⟨h.trent.prime⟩
  obtain ⟨x, hx⟩ := hkey.keyOver ho
  obtain ⟨data, e, hdata, he, hid, hopen, -⟩ := h.encrypt nonce
  obtain ⟨or, hor, hp⟩ :=
    createPcs_isPromise hash hx hr.publicOver h.trent.publicOver hopen m d
  obtain ⟨rpcs, hrpcs, hacc⟩ := cce_proved hash m h.trent.publicOver hopen sCce
  obtain ⟨s1, c1, s2, c2, hshape⟩ := createPcs_shape hor
  have hhead := hshape.head
  have hagrees : SigmaSigner.Agrees ⟨some t, some k⟩ k t :=
    ⟨fun r hr => by rw [Option.some.inj hr], fun r hr => by rw [Option.some.inj hr]⟩
  refine ⟨⟨or, rpcs, t⟩, ?_, (SigmaSigner.verify_iff hash).mpr
    ⟨_, hhead, ?_, hp.verifies, hacc.verifies, ?_⟩, ?_⟩
  · rw [SigmaSigner.signAs, hdata, ok_bind, he, ok_bind, hrpcs, ok_bind, hor, ok_bind, pure_eq]
  · exact hagrees.checksReceiver hid
  · exact hagrees.checksTrent
  · -- the only Schnorr response of the first clause is checked under the key pair
    rintro ⟨and0, hand0, r, hr, hkind, k', hk', hequals⟩
    rw [hhead, Option.some.injEq] at hand0
    subst hand0
    have hne' : s1 ≠ c1 := by
      intro heq
      have hs := hshape.schnorr1
      rw [heq, hshape.cce1] at hs
      exact absurd hs (by decide)
    rcases List.mem_pair.mp hr with rfl | rfl
    · rw [ResponseKeys.get_put_ne _ t hne', ResponseKeys.get_put_self, Option.some.injEq] at hk'
      rw [← hk'] at hequals
      exact absurd hequals (Bool.eq_false_iff.mp hne)
    · rw [hshape.cce1] at hkind
      exact absurd hkind (by decide)

theorem modPow_zero {p : ℤ} (hp : 0 < p) (b : ℤ) : modPow b 0 p = .ok (1 % p) := by
  have h := modPow_natCast hp b 0
  rwa [powMod_size, pow_zero, Nat.cast_zero] at h

theorem equationHolds_zero {p : ℤ} (hp : 0 < p) (base pub : ℤ) :
    equationHolds p base pub (some 1) 0 0 = .ok true := by
  rw [equationHolds, modPow_zero hp, modPow_zero hp, nonNull_some]
  simp only [ok_bind, mod, if_neg (not_le.mpr hp), mul_one, Int.emod_emod, pure_eq,
    beq_self_eq_true]

/-- Under the key whose numbers are `1` every challenge is answered by zero. -/
theorem equationHolds_one (c : ℤ) : equationHolds 2 1 1 (some 1) c 0 = .ok true := by
  have : Fact (Nat.Prime 2) := ⟨Nat.prime_two⟩
  refine equationHolds_true (q := 2) rfl ?_ rfl ?_ rfl ?_
  · rw [Int.cast_one]
    exact one_ne_zero
  · rw [Int.cast_one]
    exact one_ne_zero
  · rw [SigmaProtocol.Accepts, Int.cast_one, one_zpow, one_zpow, one_mul]

/-- One response to the whole challenge, under a key that has nothing to do with anyone. -/
def looseSignature (message : List UInt8) (data : List UInt8) (n : ℕ) (trentPublicKey : ℤ) :
    SigmaSignature :=
  let r : Responses := ⟨.schnorr, ⟨1, none⟩, sendChallenge hash message 1, 0⟩
  ⟨⟨[⟨⟨0, 0, data⟩, ResponseKeys.put [] r ⟨1, 2, 1, none⟩, [r]⟩], 1⟩, ⟨.schnorr, ⟨1, none⟩, 0, 0⟩,
    ⟨trentPublicKey, n + 1, 1, none⟩⟩

/-- **Every identity is signed for**, whatever key of Trent is asked for. -/
theorem looseSignature_accepted (trentK : Option ElGamalKey) {k : ElGamalKey} (message : List UInt8)
    (h : 125 ≤ (decimal k.publicKey).length) :
    ∃ sign, SigmaSigner.verify hash ⟨trentK, some k⟩ message sign = .ok true ∧
      ¬ sign.MadeWith k := by
  obtain ⟨data, n, hdata, hn⟩ := identity_exists h
  refine ⟨looseSignature hash message data n (trentK.elim 0 ElGamalKey.publicKey),
    (SigmaSigner.verify_iff hash).mpr ⟨_, rfl, ?_, ?_, ?_, ?_⟩, ?_⟩
  · have hmod : mod (n : ℤ) (n + 1) = .ok (n : ℤ) := by
      rw [mod, if_neg (by omega), Int.emod_eq_of_lt (by omega) (by omega), pure_eq]
    simp only [SigmaSigner.checksReceiver, looseSignature, hn, ok_bind, hmod, hdata, pure_eq,
      beq_self_eq_true]
  · refine (verifies_iff_balanced hash).mpr ⟨?_, ?_⟩
    · intro and hand r hr
      obtain rfl := List.mem_singleton.mp hand
      obtain rfl := List.mem_singleton.mp hr
      rw [ResponseKeys.get_put_self]
      exact equationHolds_one _
    · exact BigInteger.zero_xor _
  · exact equationHolds_zero (by show (0 : ℤ) < n + 1; omega) 1 _
  · rw [SigmaSigner.checksTrent]
    cases trentK with
    | none => rfl
    | some t => exact beq_iff_eq.mpr rfl
  · rintro ⟨and0, hand0, r, hr, -, k', hk', hequals⟩
    obtain rfl := Option.some.inj hand0
    obtain rfl := List.mem_singleton.mp hr
    rw [ResponseKeys.get_put_self, Option.some.injEq] at hk'
    obtain ⟨-, -, hpk⟩ := ElGamalKey.equals_iff.mp hequals
    rw [← hk'] at hpk
    have hone : (1 : ℤ) = k.publicKey := hpk
    rw [← hone] at h
    exact absurd h (by rw [← String.length_toList, decimal_toList (by decide)]; decide)

/-- **What is accepted as coming from `k` was made with the key of `k`** exactly if `k` has no
identity; and a key pair of anybody is enough to sign with the identity of `k`.  Of one signature
it holds exactly if it was made so or fails one of the tests. -/
theorem verify_made_iff (k : ElGamalKey) :
    (∀ trentK : Option ElGamalKey,
      (∀ (m : List UInt8) (sign : SigmaSignature),
        SigmaSigner.verify hash ⟨trentK, some k⟩ m sign = .ok true → sign.MadeWith k) ↔
          (decimal k.publicKey).length < 125) ∧
    (∀ (t key receiverK : ElGamalKey) (m : List UInt8) (nonce sCce : ℤ) (d : PCS.Draws),
      Registered t k → key.Valid → key.Owned → receiverK.Valid → key.equals k = false →
      ∃ sign, SigmaSigner.signAs hash k key t receiverK m nonce sCce d = .ok sign ∧
        SigmaSigner.verify hash ⟨some t, some k⟩ m sign = .ok true ∧ ¬ sign.MadeWith k) ∧
    ∀ (trentK : Option ElGamalKey) (m : List UInt8) (sign : SigmaSignature),
      (SigmaSigner.verify hash ⟨trentK, some k⟩ m sign = .ok true → sign.MadeWith k) ↔
        sign.MadeWith k ∨ ∀ and0, ¬ SigmaSigner.Accepted hash ⟨trentK, some k⟩ m sign and0 := by
  refine ⟨?_, ?_, ?_⟩
  · intro trentK
    constructor
    · intro h
      by_contra hlen
      obtain ⟨sign, hv, hmade⟩ := looseSignature_accepted hash trentK [] (Nat.le_of_not_lt hlen)
      exact hmade (h [] sign hv)
    · intro hlen m sign hv
      obtain ⟨and0, hacc⟩ := (SigmaSigner.verify_iff hash).mp hv
      obtain ⟨M, -, hM⟩ := bind_eq_ok.mp hacc.receiver
      obtain ⟨M', -, hM'⟩ := bind_eq_ok.mp hM
      obtain ⟨data, hdata, -⟩ := bind_eq_ok.mp hM'
      exact absurd (length_of_identification hdata) (Nat.not_le_of_lt hlen)
  · intro t key receiverK m nonce sCce d h hkey ho hr hne
    exact signAs_accepted hash h hkey ho hr hne m nonce sCce d
  · intro trentK m sign
    rw [SigmaSigner.verify_iff, imp_iff_or_not, not_exists]

/-! ### A forgery in numbers -/

def sampleForgery : Forgery := ⟨6, 11, 2, 3, 4, 5, 7, 8⟩

theorem sampleCiphertext : ∃ (data : List UInt8) (e : ElGamalEncrypt),
    getIdentificationData (sampleKey 1000) = .ok data ∧
    encryptForContract (sampleKey 1002).getPublicKeys data 7 = .ok e ∧
    (e.resEncrypt data).Carries (sampleKey 1000) (sampleKey 1002).getPublicKeys ∧
    ∃ U W : ZMod (sampleKey 1002).getPublicKeys.p.toNat, (e.resEncrypt data).Spells U W := by
  have hreg := sampleKey_registered (x := 1000) 1002 (by decide +kernel)
  have : Fact (sampleKey 1002).getPublicKeys.p.toNat.Prime := ⟨hreg.trent.prime⟩
  obtain ⟨data, e, hdata, he, hid, ho, -⟩ := hreg.encrypt 7
  exact ⟨data, e, hdata, he, hid, _, _, ho.spells hreg.trent.publicOver⟩

theorem sampleForgery_uncommitted {s1 s2 : Responses}
    (h1 : Fabric.sendResponseSchnorrFabric (sampleKey 1000).getPublicKeys
      (sampleForgery.challenge sha256 (getBytes "contract")) 11 = .ok s1)
    (h2 : Fabric.sendResponseSchnorrFabric (sampleKey 1001).getPublicKeys 4 5 = .ok s2) :
    ¬ (s1.masks.a = sampleForgery.a ∨ s2.masks.a = sampleForgery.a) := by
  have hrun1 : (Fabric.sendResponseSchnorrFabric (sampleKey 1000).getPublicKeys
      (Int.xor (signedValue (sha256 (getBytes "contract" ++
        (Nat.toDigits 10 (6 : ℤ).toNat).flatMap String.utf8EncodeChar)).val)
        (Int.xor 4 (Int.xor 2 7))) 11).toOption.all (fun s => decide (s.masks.a ≠ 6)) = true := by
    decide +kernel
  have hrun2 : (Fabric.sendResponseSchnorrFabric (sampleKey 1001).getPublicKeys 4 5).toOption.all
      (fun s => decide (s.masks.a ≠ 6)) = true := by
    decide +kernel
  have hchallenge : sampleForgery.challenge sha256 (getBytes "contract")
      = Int.xor (signedValue (sha256 (getBytes "contract" ++
        (Nat.toDigits 10 (6 : ℤ).toNat).flatMap String.utf8EncodeChar)).val)
        (Int.xor 4 (Int.xor 2 7)) := by
    rw [Forgery.challenge, sampleForgery, sendChallenge_getBytes sha256 "contract" (by decide)]
  rw [hchallenge] at h1
  rw [h1, Except.toOption, Option.all_some, decide_eq_true_eq] at hrun1
  rw [h2, Except.toOption, Option.all_some, decide_eq_true_eq] at hrun2
  exact not_or.mpr ⟨hrun1, hrun2⟩

/-- Four simulated responses and a number that is no mask. -/
theorem forged_promise_accepted : ∃ (data : List UInt8) (e : ElGamalEncrypt) (o : OrClause),
    getIdentificationData (sampleKey 1000) = .ok data ∧
    encryptForContract (sampleKey 1002).getPublicKeys data 7 = .ok e ∧
    sampleForgery.promise sha256 (getBytes "contract") (sampleKey 1000).getPublicKeys
      (sampleKey 1001).getPublicKeys (sampleKey 1002).getPublicKeys (e.resEncrypt data) = .ok o ∧
    o.verifies sha256 (getBytes "contract") = .ok true ∧ ¬ o.Commits := by
  obtain ⟨data, e, hdata, he, -, U, W, hs⟩ := sampleCiphertext
  obtain ⟨o, s1, s2, ho, -, hv, h1, h2, hcommits⟩ := sampleForgery.verifies sha256
    (getBytes "contract") (sampleKey_valid 1000) (sampleKey_valid 1001) (sampleKey_valid 1002) hs
  exact ⟨data, e, o, hdata, he, ho, hv, mt hcommits.mp (sampleForgery_uncommitted h1 h2)⟩

theorem verifies_commits_sample : ∃ (o : OrClause),
    o.verifies sha256 (getBytes "contract") = .ok true ∧ o.Balanced sha256 (getBytes "contract") ∧
    ¬ (o.verifies sha256 (getBytes "contract") = .ok true → o.Commits) := by
  obtain ⟨data, e, -, -, -, U, W, hs⟩ := sampleCiphertext
  obtain ⟨o, s1, s2, -, hv, h1, h2, hcommits⟩ :=
    ((verifies_commits_iff sha256 (getBytes "contract")).1 _ _ _ _ U W (sampleKey_valid 1000)
      (sampleKey_valid 1001) (sampleKey_valid 1002) hs).1 sampleForgery
  exact ⟨o, hv, (verifies_iff_balanced sha256).mp hv,
    mt hcommits.mp (sampleForgery_uncommitted h1 h2)⟩

/-- A third key pair signs with the identity of the first key, and Trent's own key is asked
for. -/
theorem signed_by_another : ∃ sign,
    SigmaSigner.signAs sha256 (sampleKey 1000) (sampleKey 1003) (sampleKey 1002).getPublicKeys
      (sampleKey 1001).getPublicKeys (getBytes "contract") 7 8 ⟨1, 2, 3, 4, 5, 6⟩ = .ok sign ∧
    SigmaSigner.verify sha256 ⟨some (sampleKey 1002).getPublicKeys, some (sampleKey 1000)⟩
      (getBytes "contract") sign = .ok true ∧ ¬ sign.MadeWith (sampleKey 1000) :=
  signAs_accepted sha256 (sampleKey_registered (x := 1000) 1002 (by decide +kernel))
    (sampleKey_valid 1003).of_getPublicKeys (sampleKey_owned 1003) (sampleKey_valid 1001)
    (by decide +kernel) (getBytes "contract") 7 8 ⟨1, 2, 3, 4, 5, 6⟩

theorem verify_made_sample : ∃ sign,
    SigmaSigner.verify sha256 ⟨some (sampleKey 1002).getPublicKeys, some (sampleKey 1000)⟩
      (getBytes "contract") sign = .ok true ∧ ¬ sign.MadeWith (sampleKey 1000) ∧
    ¬ (decimal (sampleKey 1000).publicKey).length < 125 := by
  have hreg := sampleKey_registered (x := 1000) 1002 (by decide +kernel)
  obtain ⟨hall, hanyone, -⟩ := verify_made_iff sha256 (sampleKey 1000)
  obtain ⟨sign, -, hv, hmade⟩ := hanyone _ (sampleKey 1003) _ (getBytes "contract") 7 8
    ⟨1, 2, 3, 4, 5, 6⟩ hreg (sampleKey_valid 1003).of_getPublicKeys (sampleKey_owned 1003)
    (sampleKey_valid 1001) (by decide +kernel)
  exact ⟨sign, hv, hmade, fun hlen => hmade ((hall _).mpr hlen _ _ hv)⟩

end SXP.Sigma
