import SXP.Sigma.Prover

/-!
# Honest promises and signatures are accepted

Over prime moduli every draw leads to a promise and to a signature, and the
receiver accepts both.  Each response is accepted for one of the two reasons of
a proof of knowledge: the prover knows the exponent, or the prover chose the
challenge.  The keys may live over different primes; a promise uses the
sender's, the receiver's and Trent's.
-/

namespace SXP.Sigma

open SXP.Lib SXP.Lib.Java SXP.Lib.BigInteger SXP.Lib.Text SXP.Lib.SigmaProtocol

/-! ### Keys over a prime field -/

structure PublicOver (q : ℕ) (k : ElGamalKey) : Prop where
  p : k.p = q
  g : (k.g : ZMod q) ≠ 0
  publicKey : (k.publicKey : ZMod q) ≠ 0

/-- A key pair: the public key is the generator to the power `x`. -/
structure KeyOver (q : ℕ) [Fact q.Prime] (k : ElGamalKey) (x : ℤ) : Prop where
  publicOver : PublicOver q k
  privateKey : k.privateKey = some x
  publicKey : (k.publicKey : ZMod q) = (k.g : ZMod q) ^ x

/-- The ciphertext is made with the nonce `k`, and dividing by the plaintext
gives the key it was masked with. -/
structure Opening (q : ℕ) [Fact q.Prime] (t : ElGamalKey) (res : ResEncrypt) (k : ℤ) : Prop where
  u : (res.u : ZMod q) = (t.g : ZMod q) ^ k
  plain : ∃ M w : ℤ, ofBytes res.M = .ok M ∧ divide res.v M = .ok w ∧
    (w : ZMod q) = (t.publicKey : ZMod q) ^ k

/-- A ciphertext modulo `q`: the two numbers a response about it is checked with are `U`
and `W`, neither of them zero. -/
structure ResEncrypt.Spells {q : ℕ} (res : ResEncrypt) (U W : ZMod q) : Prop where
  u : (res.u : ZMod q) = U
  u_ne : U ≠ 0
  plain : ∃ M w : ℤ, ofBytes res.M = .ok M ∧ divide res.v M = .ok w ∧ (w : ZMod q) = W
  w_ne : W ≠ 0

/-- A response of one class to one challenge, accepted under a key. -/
structure Responses.AcceptedAs (r : Responses) (kind : ResponsesKind) (c : ℤ) (k : ElGamalKey)
    (res : ResEncrypt) : Prop where
  kind : r.kind = kind
  challenge : r.challenge = c
  verifies : r.verifies (some k) res = .ok true

section

variable {q : ℕ} [Fact q.Prime]

/-! ### Representatives -/

theorem cast_val (z : ZMod q) : ((((z.val : ℕ) : ℤ)) : ZMod q) = z := by
  rw [Int.cast_natCast, ZMod.natCast_zmod_val]

/-- A test of the verifier succeeds when the numbers it is given are the field
elements of an accepted transcript. -/
theorem equationHolds_true {p base pub a c r : ℤ} {y z : ZMod q} (hp : p = q)
    (hb : (base : ZMod q) ≠ 0) (hy : (pub : ZMod q) = y) (hy0 : y ≠ 0)
    (ha : (a : ZMod q) = z) (h : Accepts (base : ZMod q) y z c r) :
    equationHolds p base pub (some a) c r = .ok true := by
  subst hp hy ha
  rw [equationHolds_eq hb hy0, decide_eq_true h]

theorem simulated_cast (g y : ZMod q) (c r : ℤ) :
    ((((((g ^ r).val : ℕ) : ℤ)) * ((((y ^ c)⁻¹).val : ℕ) : ℤ) : ℤ) : ZMod q)
      = simulateMask g y c r := by
  rw [Int.cast_mul, cast_val, cast_val, simulateMask]

theorem modInverse_val {z : ZMod q} (hz : z ≠ 0) :
    modInverse (((z.val : ℕ) : ℤ)) q = .ok (((z⁻¹).val : ℕ) : ℤ) := by
  have h : ((((z.val : ℕ) : ℤ)) : ZMod q) ≠ 0 := by rwa [cast_val]
  rw [modInverse_eq h, cast_val]

/-! ### The four responses -/

theorem schnorr_fabric {k : ElGamalKey} (hk : PublicOver q k) (c r : ℤ) (res : ResEncrypt) :
    ∃ resp, Fabric.sendResponseSchnorrFabric k c r = .ok resp ∧
      resp.AcceptedAs .schnorr c k res := by
  have hyc := zpow_ne_zero c hk.publicKey
  refine ⟨⟨.schnorr, ⟨((((k.g : ZMod q) ^ r).val : ℕ) : ℤ)
    * (((((k.publicKey : ZMod q) ^ c)⁻¹).val : ℕ) : ℤ), none⟩, c, r⟩, ?_, rfl, rfl, ?_⟩
  · rw [Fabric.sendResponseSchnorrFabric, Fabric.fabricMaskSchnorr, hk.p, modPow_eq hk.g,
      modPow_eq hk.publicKey]
    simp only [ok_bind, modInverse_val hyc, pure_eq]
  · exact equationHolds_true hk.p hk.g rfl hk.publicKey (simulated_cast _ _ _ _)
      (accepts_simulated _ hk.publicKey c r)

theorem schnorr_proved {k : ElGamalKey} {x : ℤ} (hk : KeyOver q k x) (s : ℤ) :
    ∃ mask, Sender.sendMasksSchnorr k s = .ok mask ∧ ∀ (c : ℤ) (res : ResEncrypt),
      ∃ resp, Sender.sendResponseSchnorr k mask c s = .ok resp ∧
        resp.AcceptedAs .schnorr c k.getPublicKeys res := by
  refine ⟨⟨((((k.g : ZMod q) ^ s).val : ℕ) : ℤ), none⟩, ?_, fun c res => ?_⟩
  · rw [Sender.sendMasksSchnorr, hk.publicOver.p, modPow_eq hk.publicOver.g, ok_bind, pure_eq]
  · refine ⟨⟨.schnorr, ⟨((((k.g : ZMod q) ^ s).val : ℕ) : ℤ), none⟩, c, respond x s c⟩, ?_, rfl, rfl, ?_⟩
    · rw [Sender.sendResponseSchnorr, hk.privateKey, nonNull_some, ok_bind, pure_eq]
    · exact equationHolds_true hk.publicOver.p hk.publicOver.g hk.publicKey (zpow_ne_zero x hk.publicOver.g)
        (cast_val _) (accepts_respond hk.publicOver.g x s c)

theorem Opening.spells {t : ElGamalKey} {res : ResEncrypt} {k : ℤ} (ht : PublicOver q t)
    (ho : Opening q t res k) :
    res.Spells ((t.g : ZMod q) ^ k) ((t.publicKey : ZMod q) ^ k) :=
  ⟨ho.u, zpow_ne_zero k ht.g, ho.plain, zpow_ne_zero k ht.publicKey⟩

theorem cce_verifies {t : ElGamalKey} {res : ResEncrypt} {U W : ZMod q} {c r a aBis : ℤ}
    {z z' : ZMod q} (ht : PublicOver q t) (hs : res.Spells U W) (ha : (a : ZMod q) = z)
    (haBis : (aBis : ZMod q) = z') (h : Accepts (t.g : ZMod q) U z c r)
    (h' : Accepts (t.publicKey : ZMod q) W z' c r) :
    Responses.verifies ⟨.cce, ⟨a, some aBis⟩, c, r⟩ (some t) res = .ok true := by
  obtain ⟨M, w, hM, hw, hwk⟩ := hs.plain
  have h1 := equationHolds_true ht.p ht.g hs.u hs.u_ne ha h
  have h2 := equationHolds_true ht.p ht.publicKey hwk hs.w_ne haBis h'
  rw [Responses.verifies, nonNull_some, ok_bind]
  simp only [Responses.cceVerifies]
  rw [h1, andThen_true, hM, ok_bind, hw, ok_bind, h2]

/-- The simulator needs nothing of the ciphertext but that its numbers can be inverted. -/
theorem cce_simulated {t : ElGamalKey} {res : ResEncrypt} {U W : ZMod q} (ht : PublicOver q t)
    (hs : res.Spells U W) (c r : ℤ) :
    ∃ resp, Fabric.sendResponseCCEFabric res t c r = .ok resp ∧ resp.AcceptedAs .cce c t res := by
  obtain ⟨M, w, hM, hw, hwk⟩ := hs.plain
  have hu : (res.u : ZMod q) ≠ 0 := by rw [hs.u]; exact hs.u_ne
  have hw0 : (w : ZMod q) ≠ 0 := by rw [hwk]; exact hs.w_ne
  refine ⟨⟨.cce, ⟨((((t.g : ZMod q) ^ r).val : ℕ) : ℤ) * (((((res.u : ZMod q) ^ c)⁻¹).val : ℕ) : ℤ),
    some (((((t.publicKey : ZMod q) ^ r).val : ℕ) : ℤ)
      * (((((w : ZMod q) ^ c)⁻¹).val : ℕ) : ℤ))⟩, c, r⟩, ?_, rfl, rfl, ?_⟩
  · rw [Fabric.sendResponseCCEFabric, Fabric.fabricMaskCCE, ht.p, modPow_eq ht.g, modPow_eq hu,
      modPow_eq ht.publicKey, hM]
    simp only [ok_bind, modInverse_val (zpow_ne_zero c hu), hw, modPow_eq hw0,
      modInverse_val (zpow_ne_zero c hw0), pure_eq]
  · refine cce_verifies ht hs (simulated_cast _ _ _ _) (simulated_cast _ _ _ _) ?_ ?_
    · rw [hs.u]
      exact accepts_simulated _ hs.u_ne c r
    · rw [hwk]
      exact accepts_simulated _ hs.w_ne c r

theorem cce_fabric {t : ElGamalKey} {res : ResEncrypt} {k : ℤ} (ht : PublicOver q t)
    (ho : Opening q t res k) (c r : ℤ) :
    ∃ resp, Fabric.sendResponseCCEFabric res t c r = .ok resp ∧ resp.AcceptedAs .cce c t res :=
  cce_simulated ht (ho.spells ht) c r

theorem cce_proved (hash : List UInt8 → Digest) (m : List UInt8) {t : ElGamalKey}
    {res : ResEncrypt} {k : ℤ} (ht : PublicOver q t) (ho : Opening q t res k) (s : ℤ) :
    ∃ resp, Sender.sendResponseCCE hash m t k s = .ok resp ∧
      resp.AcceptedAs .cce (sendChallenge hash m resp.masks.a) t res := by
  let a : ℤ := ((((t.g : ZMod q) ^ s).val : ℕ) : ℤ)
  let aBis : ℤ := ((((t.publicKey : ZMod q) ^ s).val : ℕ) : ℤ)
  let c := sendChallenge hash m a
  refine ⟨⟨.cce, ⟨a, some aBis⟩, c, respond k s c⟩, ?_, rfl, rfl, ?_⟩
  · rw [Sender.sendResponseCCE, Sender.sendMasksCCE, ht.p, modPow_eq ht.g, modPow_eq ht.publicKey,
      ok_bind, ok_bind, pure_eq, ok_bind, pure_eq]
  · exact cce_verifies ht (ho.spells ht) (cast_val _) (cast_val _) (accepts_respond ht.g k s c)
      (accepts_respond ht.publicKey k s c)

/-! ### Encryption -/

theorem encrypt_opening {t : ElGamalKey} (ht : PublicOver q t) {data : List UInt8} {m : ℤ}
    (hm : ofBytes data = .ok m) (hm0 : m ≠ 0)
    (hlen : data.length ≤ (bitLength t.p + 6) / 8) (hlt : (magnitude data : ℤ) < t.p) (k : ℤ) :
    ∃ e, encryptForContract t data k = .ok e ∧ Opening q t (e.resEncrypt data) k ∧
      modPow t.g k t.p = .ok e.u := by
  refine ⟨⟨((((t.g : ZMod q) ^ k).val : ℕ) : ℤ), ((((t.publicKey : ZMod q) ^ k).val : ℕ) : ℤ) * m, k⟩,
    ?_, ⟨cast_val _, m, _, hm, divide_mul_cancel _ hm0, cast_val _⟩, ?_⟩
  · rw [encryptForContract, if_neg (not_lt.mpr hlen), if_neg (not_le.mpr hlt), ht.p,
      modPow_eq ht.g, modPow_eq ht.publicKey, hm, ok_bind, ok_bind, ok_bind, pure_eq]
  · rw [ht.p, modPow_eq ht.g]

end

/-! ### Promises -/

section

variable (hash : List UInt8 → Digest)

/-- A clause of a promise: a Schnorr response under `k` and a response about the
ciphertext under Trent's key `t`. -/
theorem clause_verifies {r r' : Responses} {c c' : ℤ} {k t : ElGamalKey} {res : ResEncrypt}
    (h : r.AcceptedAs .schnorr c k res) (h' : r'.AcceptedAs .cce c' t res) :
    AndClause.verifies hash ⟨res, (ResponseKeys.put [] r k).put r' t, [r, r']⟩ true = .ok true ∧
      AndClause.firstKey ⟨res, (ResponseKeys.put [] r k).put r' t, [r, r']⟩ = some k := by
  have hne : r ≠ r' := by
    intro he
    have hk := h.kind
    rw [he, h'.kind] at hk
    exact absurd hk (by decide)
  have hget : ((ResponseKeys.put [] r k).put r' t).get r = some k := by
    rw [ResponseKeys.get_put_ne _ t hne, ResponseKeys.get_put_self]
  refine ⟨?_, hget⟩
  rw [AndClause.verifies, all_eq_true]
  intro res' hmem
  rw [Bool.true_or, pure_eq, andThen_true]
  rcases List.mem_pair.mp hmem with rfl | rfl
  · rw [hget]
    exact h.verifies
  · rw [ResponseKeys.get_put_self]
    exact h'.verifies

/-- Two clauses of a promise, of which the challenge `c` of `a` is shared among the four
responses. -/
theorem clauses_verify {s1 c1 s2 c2 : Responses} {c x y z a : ℤ} {k k' t : ElGamalKey}
    {res : ResEncrypt} {m : List UInt8}
    (hs1 : s1.AcceptedAs .schnorr (Int.xor c (Int.xor y (Int.xor x z))) k res)
    (hc1 : c1.AcceptedAs .cce x t res) (hs2 : s2.AcceptedAs .schnorr y k' res)
    (hc2 : c2.AcceptedAs .cce z t res) (hc : sendChallenge hash m a = c) :
    OrClause.verifies hash ⟨[⟨res, (ResponseKeys.put [] s1 k).put c1 t, [s1, c1]⟩,
      ⟨res, (ResponseKeys.put [] s2 k').put c2 t, [s2, c2]⟩], a⟩ m = .ok true := by
  rw [OrClause.verifies_iff]
  refine ⟨?_, ?_⟩
  · intro and hand
    rcases List.mem_pair.mp hand with rfl | rfl
    · exact (clause_verifies hash hs1 hc1).1
    · exact (clause_verifies hash hs2 hc2).1
  · -- the four challenges fold to the challenge the first one was computed from
    have hfold : Int.xor (Int.xor (Int.xor (Int.xor 0 s1.challenge) c1.challenge) s2.challenge)
        c2.challenge = c := by
      rw [hs1.challenge, hc1.challenge, hs2.challenge, hc2.challenge, BigInteger.zero_xor,
        BigInteger.xor_assoc, BigInteger.xor_assoc, BigInteger.xor_assoc, BigInteger.xor_comm y,
        BigInteger.xor_assoc x, BigInteger.xor_comm z, BigInteger.xor_left_comm x y,
        BigInteger.xor_self, BigInteger.xor_zero]
    exact beq_iff_eq.mpr (hfold.trans hc.symm)

/-- What the others see of a promise of `k` to `k'` on `m`. -/
structure OrClause.IsPromise (or : OrClause) (m : List UInt8) (k k' : ElGamalKey)
    (res : ResEncrypt) : Prop where
  verifies : or.verifies hash m = .ok true
  ands : ∃ and and' : AndClause, or.ands = [and, and'] ∧ and.resEncrypt = res ∧
    and'.resEncrypt = res ∧ and.firstKey = some k.getPublicKeys ∧ and'.firstKey = some k'

variable {q q' t : ℕ} [Fact q.Prime] [Fact q'.Prime] [Fact t.Prime]
variable {keys receiverK trentK : ElGamalKey} {x k : ℤ} {res : ResEncrypt}

/-- **An honest promise verifies**, whatever is drawn. -/
theorem createPcs_isPromise (hs : KeyOver q keys x) (hr : PublicOver q' receiverK)
    (ht : PublicOver t trentK) (ho : Opening t trentK res k) (m : List UInt8) (d : PCS.Draws) :
    ∃ or, PCS.createPcs hash keys trentK res k m receiverK d = .ok or ∧
      or.IsPromise hash m keys receiverK res := by
  obtain ⟨s2, hs2, as2⟩ := schnorr_fabric hr d.cSchnorr2 d.rSchnorr2 res
  obtain ⟨c2, hc2, ac2⟩ := cce_fabric ht ho d.cCce2 d.rCce2
  obtain ⟨c1, hc1, ac1⟩ := cce_proved hash m ht ho d.sCce1
  obtain ⟨mask, hmask, hanswer⟩ := schnorr_proved hs d.sSchnorr1
  obtain ⟨c, hc⟩ : ∃ c, sendChallenge hash m mask.a = c := ⟨_, rfl⟩
  obtain ⟨s1, hs1, as1⟩ :=
    hanswer (Int.xor c (Int.xor s2.challenge (Int.xor c1.challenge c2.challenge))) res
  refine ⟨⟨[⟨res, _, [s1, c1]⟩, ⟨res, _, [s2, c2]⟩], mask.a⟩, ?_, ⟨?_, _, _, rfl, rfl, rfl,
    (clause_verifies hash as1 ac1).2, (clause_verifies hash as2 ac2).2⟩⟩
  · rw [PCS.createPcs, hs2, ok_bind, hc2, ok_bind, hc1, ok_bind, hmask, ok_bind]
    simp only [hc, hs1, ok_bind, pure_eq]
  · rw [ac1.challenge, as2.challenge, ac2.challenge] at as1
    exact clauses_verify hash as1 ac1 as2 ac2 hc

end

/-! ### Identities -/

/-- The number Trent decrypts to. -/
def identityValue (k : ElGamalKey) : Java ℤ := getIdentificationData k >>= ofBytes

/-- The encrypted identity has 125 bytes, and a first byte that is not zero. -/
theorem identification {k : ElGamalKey} (hk : 10 ^ 124 ≤ k.publicKey) :
    ∃ (data : List UInt8) (n : ℕ), getIdentificationData k = .ok data ∧ ofBytes data = .ok n ∧
      magnitude data = n ∧ data.length = 125 ∧ 48 * 256 ^ 124 ≤ n ∧ n < 256 ^ 125 := by
  have h0 : 0 ≤ k.publicKey := le_trans (by positivity) hk
  have hlen := (lt_length_decimal_iff h0 (by decide)).mpr hk
  have htake : ((decimal k.publicKey).toList.take 125).length = 125 := by
    rw [List.length_take, String.length_toList]
    omega
  have hdigits : ∀ c ∈ (decimal k.publicKey).toList.take 125, c.isDigit := by
    intro c hc
    have hmem := List.mem_of_mem_take hc
    rw [decimal_toList h0] at hmem
    exact Nat.isDigit_of_mem_toDigits (by decide) (by decide) hmem
  obtain ⟨n, hn, hmag, hlow, hupp⟩ := ofBytes_digits hdigits (by
    intro hnil
    rw [hnil] at htake
    exact absurd htake (by decide))
  refine ⟨_, n, ?_, hn, hmag, ?_, ?_, ?_⟩
  · rw [getIdentificationData, substring, if_neg (by omega), pure_eq, ok_bind, pure_eq]
  · rw [getBytes_digits hdigits, List.length_map, htake]
  · rwa [htake] at hlow
  · rwa [htake] at hupp

theorem identity_fits {p : ℤ} {n : ℕ} (hn : 48 * 256 ^ 124 ≤ n) (hp : (n : ℤ) < p) :
    125 ≤ (bitLength p + 6) / 8 := by
  have hpow : (2 : ℕ) ^ 997 ≤ 48 * 256 ^ 124 := by decide +kernel
  have hnp : n ≤ p.toNat := by omega
  have hlow : 2 ^ 997 ≤ p.toNat := hpow.trans (hn.trans hnp)
  have hsize : 997 < p.toNat.size := Nat.lt_size.mpr hlow
  rw [bitLength]
  omega

/-! ### Signatures -/

structure ElGamalKey.Valid (k : ElGamalKey) : Prop where
  prime : k.p.toNat.Prime
  g_pos : 0 < k.g
  g_lt : k.g < k.p
  publicKey : ∃ x, modPow k.g x k.p = .ok k.publicKey

/-- The owner of the key has its private part. -/
def ElGamalKey.Owned (k : ElGamalKey) : Prop :=
  ∃ x, k.privateKey = some x ∧ modPow k.g x k.p = .ok k.publicKey

theorem ElGamalKey.Valid.getPublicKeys {k : ElGamalKey} (h : k.Valid) : k.getPublicKeys.Valid :=
  ⟨h.prime, h.g_pos, h.g_lt, h.publicKey⟩

theorem ElGamalKey.Valid.of_getPublicKeys {k : ElGamalKey} (h : k.getPublicKeys.Valid) : k.Valid :=
  ⟨h.prime, h.g_pos, h.g_lt, h.publicKey⟩

theorem ElGamalKey.Valid.cast_p {k : ElGamalKey} (h : k.Valid) :
    ((k.p.toNat : ℕ) : ℤ) = k.p :=
  Int.toNat_of_nonneg (le_of_lt (h.g_pos.trans h.g_lt))

theorem ElGamalKey.Valid.cast_g {k : ElGamalKey} (h : k.Valid) : (k.g : ZMod k.p.toNat) ≠ 0 := by
  rw [Ne, ZMod.intCast_zmod_eq_zero_iff_dvd, h.cast_p]
  intro hd
  exact absurd h.g_lt (not_lt.mpr (Int.le_of_dvd h.g_pos hd))

theorem ElGamalKey.Valid.cast_publicKey {k : ElGamalKey} (h : k.Valid) [Fact k.p.toNat.Prime]
    {x : ℤ} (hx : modPow k.g x k.p = .ok k.publicKey) :
    (k.publicKey : ZMod k.p.toNat) = (k.g : ZMod k.p.toNat) ^ x := by
  rw [← h.cast_p, modPow_eq h.cast_g, Except.ok.injEq] at hx
  rw [← hx, cast_val]

theorem ElGamalKey.Valid.publicOver {k : ElGamalKey} (h : k.Valid) [Fact k.p.toNat.Prime] :
    PublicOver k.p.toNat k := by
  obtain ⟨x, hx⟩ := h.publicKey
  refine ⟨h.cast_p.symm, h.cast_g, ?_⟩
  rw [h.cast_publicKey hx]
  exact zpow_ne_zero x h.cast_g

theorem ElGamalKey.Valid.keyOver {k : ElGamalKey} (h : k.Valid) (ho : k.Owned)
    [Fact k.p.toNat.Prime] : ∃ x, KeyOver k.p.toNat k x := by
  obtain ⟨x, hx, hy⟩ := ho
  exact ⟨x, h.publicOver, hx, h.cast_publicKey hy⟩

/-- Trent can encrypt and decrypt the identity of the party `k`. -/
structure Registered (t k : ElGamalKey) : Prop where
  party : k.Valid
  digits : 10 ^ 124 ≤ k.publicKey
  trent : t.Valid
  fits : ∀ n, identityValue k = .ok n → n < t.p

/-- The plaintext of a ciphertext is the identity of `k`, a number below the
modulus of `t`. -/
structure ResEncrypt.Carries (res : ResEncrypt) (k t : ElGamalKey) : Prop where
  plain : getIdentificationData k = .ok res.M
  value : ∃ n : ℕ, ofBytes res.M = .ok n ∧ (n : ℤ) < t.p

theorem Registered.encrypt {t k : ElGamalKey} (h : Registered t k) [Fact t.p.toNat.Prime]
    (nonce : ℤ) : ∃ (data : List UInt8) (e : ElGamalEncrypt),
      getIdentificationData k = .ok data ∧ encryptForContract t data nonce = .ok e ∧
      (e.resEncrypt data).Carries k t ∧ Opening t.p.toNat t (e.resEncrypt data) nonce ∧
      modPow t.g nonce t.p = .ok e.u := by
  obtain ⟨data, n, hdata, hn, hmag, hlen, hlow, -⟩ := identification h.digits
  have hlt : (n : ℤ) < t.p := h.fits n (by rw [identityValue, hdata, ok_bind, hn])
  obtain ⟨e, he, ho, hu⟩ := encrypt_opening h.trent.publicOver hn (by
    have h : (0 : ℕ) < 48 * 256 ^ 124 := by norm_num
    omega) (by rw [hlen]; exact identity_fits hlow hlt) (by rw [hmag]; exact hlt) nonce
  exact ⟨data, e, hdata, he, ⟨hdata, n, hn, hlt⟩, ho, hu⟩

theorem ElGamalKey.Valid.publicKey_nonneg {k : ElGamalKey} (h : k.Valid) : 0 ≤ k.publicKey := by
  have : Fact k.p.toNat.Prime := ⟨h.prime⟩
  obtain ⟨x, hx⟩ := h.publicKey
  rw [← h.cast_p, modPow_eq h.cast_g, Except.ok.injEq] at hx
  rw [← hx]
  exact Int.natCast_nonneg _

/-- An identity is cut out of a public key of at least 125 characters. -/
theorem length_of_identification {k : ElGamalKey} {data : List UInt8}
    (h : getIdentificationData k = .ok data) : 125 ≤ (decimal k.publicKey).length := by
  by_contra hlt
  rw [getIdentificationData, substring, if_pos (by omega)] at h
  exact absurd h (by simp)

theorem identity_exists {k : ElGamalKey} (h : 125 ≤ (decimal k.publicKey).length) :
    ∃ (data : List UInt8) (n : ℕ), getIdentificationData k = .ok data ∧ ofBytes data = .ok n := by
  cases hl : (decimal k.publicKey).toList with
  | nil =>
    rw [← String.length_toList, hl] at h
    exact absurd h (by decide)
  | cons c l =>
    obtain ⟨n, hn⟩ := ofBytes_ascii (decimal_ascii hl) (l.take 124)
    refine ⟨_, n, ?_, hn⟩
    rw [getIdentificationData, substring, if_neg (by omega), hl, pure_eq, ok_bind, pure_eq,
      List.take_succ_cons]

theorem identityValue_nonneg {k : ElGamalKey} {n : ℤ} (h : identityValue k = .ok n) : 0 ≤ n := by
  obtain ⟨data, hdata, hn⟩ := bind_eq_ok.mp h
  obtain ⟨data', n', hdata', hn'⟩ := identity_exists (length_of_identification hdata)
  obtain rfl : data' = data := Except.ok.inj (hdata'.symm.trans hdata)
  rw [hn', Except.ok.injEq] at hn
  omega

theorem digits_of_identification {k : ElGamalKey} (h0 : 0 ≤ k.publicKey) {data : List UInt8}
    (h : getIdentificationData k = .ok data) : 10 ^ 124 ≤ k.publicKey :=
  (lt_length_decimal_iff h0 (by decide)).mp (length_of_identification h)

/-- A promise is made only under a key that Trent can encrypt the identity of. -/
theorem registered_of_getPcs {hash : List UInt8 → Digest} {t k k' : ElGamalKey} (hk : k.Valid)
    (ht : t.Valid) {m : List UInt8} {nonce : ℤ} {d : PCS.Draws} {o : OrClause}
    (h : PCS.getPcs hash k t m k' nonce d = .ok o) : Registered t k := by
  unfold PCS.getPcs at h
  obtain ⟨b, hb, h⟩ := bind_eq_ok.mp h
  obtain ⟨e, he, -⟩ := bind_eq_ok.mp h
  have hdigits := digits_of_identification (k := k.getPublicKeys) hk.publicKey_nonneg hb
  refine ⟨hk, hdigits, ht, ?_⟩
  intro n hn
  obtain ⟨data, n', hdata, hn', hmag, -⟩ := identification (k := k) hdigits
  obtain rfl : data = b := Except.ok.inj (hdata.symm.trans hb)
  rw [identityValue, hdata, ok_bind, hn', Except.ok.injEq] at hn
  unfold encryptForContract at he
  split at he
  · exact absurd he (by simp)
  · split at he
    · exact absurd he (by simp)
    · omega

/-- The keys a signer has set are the sender's and Trent's. -/
structure SigmaSigner.Agrees (s : SigmaSigner) (k t : ElGamalKey) : Prop where
  receiver : ∀ r, s.receiverK = some r → r.publicKey = k.publicKey
  trent : ∀ r, s.trentK = some r → r.publicKey = t.publicKey

theorem SigmaSigner.Agrees.checksReceiver {s : SigmaSigner} {k t : ElGamalKey} (h : s.Agrees k t)
    {res : ResEncrypt} (hid : res.Carries k t) : s.checksReceiver t res = .ok true := by
  obtain ⟨n, hn, hlt⟩ := hid.value
  rw [SigmaSigner.checksReceiver]
  cases hr : s.receiverK with
  | none => rfl
  | some r =>
    have hsame : getIdentificationData r = .ok res.M := by
      rw [← hid.plain, getIdentificationData, getIdentificationData, h.receiver r hr]
    have hmod : mod (n : ℤ) t.p = .ok (n : ℤ) := by
      rw [mod, if_neg (by omega), Int.emod_eq_of_lt (by omega) hlt, pure_eq]
    simp only [hn, ok_bind, hmod, hsame, pure_eq, beq_self_eq_true]

theorem SigmaSigner.Agrees.checksTrent {s : SigmaSigner} {k t : ElGamalKey} (h : s.Agrees k t) :
    s.checksTrent t = true := by
  rw [SigmaSigner.checksTrent]
  cases ht : s.trentK with
  | none => rfl
  | some r => exact beq_iff_eq.mpr (h.trent r ht)

section

variable (hash : List UInt8 → Digest) {k k' t : ElGamalKey}

/-- A promise and a revealer about its ciphertext make a signature. -/
theorem verify_of_promise {or : OrClause} {rpcs : Responses} {m : List UInt8} {res : ResEncrypt}
    (hp : or.IsPromise hash m k k' res) (hid : res.Carries k t)
    (hr : rpcs.verifies (some t) res = .ok true) {s : SigmaSigner} (hs : s.Agrees k t) :
    s.verify hash m ⟨or, rpcs, t⟩ = .ok true := by
  obtain ⟨and0, and1, hands, hres, -, -, -⟩ := hp.ands
  subst hres
  refine (SigmaSigner.verify_iff hash).mpr ⟨and0, ?_, hs.checksReceiver hid, hp.verifies, hr,
    hs.checksTrent⟩
  rw [hands]
  rfl

theorem getPcs_isPromise (h : Registered t k) (hk : k.Owned) (h' : k'.Valid) [Fact t.p.toNat.Prime]
    (m : List UInt8) (nonce : ℤ) (d : PCS.Draws) :
    ∃ or res, PCS.getPcs hash k t m k' nonce d = .ok or ∧ or.IsPromise hash m k k' res ∧
      res.Carries k t ∧ Opening t.p.toNat t res nonce ∧ modPow t.g nonce t.p = .ok res.u := by
  have : Fact k.p.toNat.Prime := ⟨h.party.prime⟩
  have : Fact k'.p.toNat.Prime := ⟨h'.prime⟩
  obtain ⟨x, hx⟩ := h.party.keyOver hk
  obtain ⟨data, e, hdata, he, hid, ho, hu⟩ := h.encrypt nonce
  obtain ⟨or, hor, hp⟩ := createPcs_isPromise hash hx h'.publicOver h.trent.publicOver ho m d
  have hdata' : getIdentificationData k.getPublicKeys = .ok data := hdata
  refine ⟨or, _, ?_, hp, hid, ho, hu⟩
  rw [PCS.getPcs, hdata', ok_bind, he, ok_bind, hor]

/-- **An honest signature is accepted** by every signer whose keys agree. -/
theorem sign_accepted (h : Registered t k) (hk : k.Owned) (h' : k'.Valid) (m : List UInt8)
    (nonce sCce : ℤ) (d : PCS.Draws) :
    ∃ sign, SigmaSigner.sign hash ⟨some t, some k'⟩ k m nonce sCce d = .ok sign ∧
      ∀ s : SigmaSigner, s.Agrees k t → s.verify hash m sign = .ok true := by
  have : Fact k.p.toNat.Prime := ⟨h.party.prime⟩
  have : Fact k'.p.toNat.Prime := ⟨h'.prime⟩
  have : Fact t.p.toNat.Prime := ⟨h.trent.prime⟩
  obtain ⟨x, hx⟩ := h.party.keyOver hk
  obtain ⟨data, e, hdata, he, hid, ho, -⟩ := h.encrypt nonce
  obtain ⟨or, hor, hp⟩ := createPcs_isPromise hash hx h'.publicOver h.trent.publicOver ho m d
  obtain ⟨rpcs, hrpcs, hacc⟩ := cce_proved hash m h.trent.publicOver ho sCce
  refine ⟨⟨or, rpcs, t⟩, ?_, ?_⟩
  · simp only [SigmaSigner.sign]
    rw [hdata, ok_bind, he, ok_bind, hrpcs, ok_bind, hor, ok_bind, pure_eq]
  · intro s hs
    exact verify_of_promise hash hp hid hacc.verifies hs

end

/-! ### Keys of the size the service makes -/

@[irreducible] def samplePrime : ℕ := 13 * 2 ^ 1000 + 1

theorem samplePrime_prime : samplePrime.Prime :=
  prime_of_powMod 6 1000 13 (by decide +kernel) (by decide) (by decide +kernel) (by decide +kernel)
    (by decide +kernel)

/-- The key pair with the private key `x`; `6` generates the whole group. -/
def sampleKey (x : ℕ) : ElGamalKey := ⟨powMod samplePrime x.size 6 x, samplePrime, 6, some x⟩

theorem sampleKey_modPow (x : ℕ) : modPow 6 x samplePrime = .ok (sampleKey x).publicKey := by
  exact modPow_natCast (by decide +kernel) 6 x

theorem sampleKey_valid (x : ℕ) : (sampleKey x).getPublicKeys.Valid where
  prime := samplePrime_prime
  g_pos := show (0 : ℤ) < 6 by decide
  g_lt := show (6 : ℤ) < samplePrime by decide +kernel
  publicKey := ⟨x, sampleKey_modPow x⟩

theorem sampleKey_owned (x : ℕ) : (sampleKey x).Owned := ⟨x, rfl, sampleKey_modPow x⟩

theorem sampleKey_registered {x : ℕ} (y : ℕ) (hx : 10 ^ 124 ≤ (sampleKey x).publicKey) :
    Registered (sampleKey y).getPublicKeys (sampleKey x) := by
  refine ⟨(sampleKey_valid x).of_getPublicKeys, hx, sampleKey_valid y, ?_⟩
  intro n hn
  obtain ⟨data, m, hdata, hm, -, -, -, hlt⟩ := identification hx
  rw [identityValue, hdata, ok_bind, hm, Except.ok.injEq] at hn
  have hpow : 256 ^ 125 < samplePrime := by decide +kernel
  have hmp : m < samplePrime := hlt.trans hpow
  show n < (samplePrime : ℤ)
  omega

end SXP.Sigma
