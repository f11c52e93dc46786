import SXP.Sigma.Completeness

/-!
# What a promise says and what it shows

An honest promise verifies on its own message, and on any other message exactly
if the two have the same challenge (`getPcs_complete`).  This is what a promise
says.

Who made it should not be seen: either of the two parties could have made a
promise to the other.  But the identity that is encrypted for Trent also stands
next to the ciphertext, as the plaintext that the equations are checked with.
So a promise of one party is never one that the other could have made, and the
two sets of promises agree only when both are empty
(`promises_indistinguishable_iff`).
-/

namespace SXP.Sigma

open SXP.Lib SXP.Lib.Java SXP.Lib.BigInteger SXP.Lib.Text

/-! ### The shape of a promise -/

/-- The four responses of a promise, under the keys they are checked with. -/
structure OrClause.Shape (o : OrClause) (k k' t : ElGamalKey) (res : ResEncrypt)
    (s1 c1 s2 c2 : Responses) : Prop where
  schnorr1 : s1.kind = .schnorr
  cce1 : c1.kind = .cce
  schnorr2 : s2.kind = .schnorr
  cce2 : c2.kind = .cce
  ands : o.ands = [⟨res, (ResponseKeys.put [] s1 k.getPublicKeys).put c1 t, [s1, c1]⟩,
    ⟨res, (ResponseKeys.put [] s2 k').put c2 t, [s2, c2]⟩]

section

variable {hash : List UInt8 → Digest} {k k' t : ElGamalKey} {m : List UInt8} {nonce : ℤ}
variable {d : PCS.Draws} {o : OrClause}

theorem createPcs_shape {res : ResEncrypt}
    (h : PCS.createPcs hash k t res nonce m k' d = .ok o) :
    ∃ s1 c1 s2 c2, o.Shape k k' t res s1 c1 s2 c2 := by
  unfold PCS.createPcs at h
  obtain ⟨s2, hs2, h⟩ := bind_eq_ok.mp h
  obtain ⟨c2, hc2, h⟩ := bind_eq_ok.mp h
  obtain ⟨c1, hc1, h⟩ := bind_eq_ok.mp h
  obtain ⟨mask, -, h⟩ := bind_eq_ok.mp h
  obtain ⟨s1, hs1, h⟩ := bind_eq_ok.mp h
  refine ⟨s1, c1, s2, c2, ?_, ?_, ?_, ?_, ?_⟩
  · obtain ⟨x, -, hx⟩ := bind_eq_ok.mp hs1
    rw [← Except.ok.inj hx]
  · obtain ⟨x, -, hx⟩ := bind_eq_ok.mp hc1
    rw [← Except.ok.inj hx]
  · obtain ⟨x, -, hx⟩ := bind_eq_ok.mp hs2
    rw [← Except.ok.inj hx]
  · obtain ⟨x, -, hx⟩ := bind_eq_ok.mp hc2
    rw [← Except.ok.inj hx]
  · rw [← Except.ok.inj h]

/-- Both clauses of a promise carry one encryption of the identity of its maker. -/
theorem getPcs_shape (h : PCS.getPcs hash k t m k' nonce d = .ok o) :
    ∃ b e s1 c1 s2 c2, getIdentificationData k = .ok b ∧ encryptForContract t b nonce = .ok e ∧
      o.Shape k k' t (e.resEncrypt b) s1 c1 s2 c2 := by
  unfold PCS.getPcs at h
  obtain ⟨b, hb, h⟩ := bind_eq_ok.mp h
  obtain ⟨e, he, h⟩ := bind_eq_ok.mp h
  obtain ⟨s1, c1, s2, c2, hshape⟩ := createPcs_shape h
  exact ⟨b, e, s1, c1, s2, c2, hb, he, hshape⟩

theorem OrClause.Shape.head {res : ResEncrypt} {s1 c1 s2 c2 : Responses}
    (h : o.Shape k k' t res s1 c1 s2 c2) : o.ands.head? =
      some ⟨res, (ResponseKeys.put [] s1 k.getPublicKeys).put c1 t, [s1, c1]⟩ := by
  rw [h.ands, List.head?_cons]

theorem OrClause.Shape.plaintext {res : ResEncrypt} {s1 c1 s2 c2 : Responses}
    (h : o.Shape k k' t res s1 c1 s2 c2) : o.ands.map (·.resEncrypt.M) = [res.M, res.M] := by
  rw [h.ands]
  rfl

end

/-! ### Completeness and binding -/

/-- The identity of `k` is a number that can be encrypted under `t`. -/
def Encodable (t k : ElGamalKey) : Prop := ∃ n, identityValue k = .ok n ∧ n < t.p

theorem registered_iff {t k : ElGamalKey} (hk : k.Valid) (ht : t.Valid) :
    Registered t k ↔ Encodable t k := by
  constructor
  · intro h
    obtain ⟨data, n, hdata, hn, -⟩ := identification h.digits
    have hv : identityValue k = .ok (n : ℤ) := by rw [identityValue, hdata, ok_bind, hn]
    exact ⟨n, hv, h.fits n hv⟩
  · rintro ⟨n, hn, hlt⟩
    obtain ⟨data, hdata, -⟩ := bind_eq_ok.mp hn
    refine ⟨hk, digits_of_identification hk.publicKey_nonneg hdata, ht, ?_⟩
    intro n' hn'
    rw [hn, Except.ok.injEq] at hn'
    rwa [← hn']

section

variable (hash : List UInt8 → Digest)

/-- What verifies on one message is judged on every other by the challenge alone. -/
theorem OrClause.verifies_of_verifies {o : OrClause} {m : List UInt8}
    (h : o.verifies hash m = .ok true) (m' : List UInt8) :
    o.verifies hash m' = .ok (decide (sendChallenge hash m' o.a = sendChallenge hash m o.a)) := by
  obtain ⟨hands, hm⟩ := (OrClause.verifies_iff hash).mp h
  rw [OrClause.verifies, all_eq_true.mpr hands, andThen_true, pure_eq, verifiesChallenges,
    beq_iff_eq.mp hm, Except.ok.injEq, Bool.eq_iff_iff, beq_iff_eq, decide_eq_true_eq]
  exact eq_comm

/-- **Promises are complete and bind their message**: a promise is made whenever the
identity of the sender can be encrypted, it verifies whatever was drawn, and it does not
verify on a message with another challenge. -/
theorem getPcs_complete {k k' t : ElGamalKey} (hk : k.Valid) (ho : k.Owned)
    (hd : 10 ^ 124 ≤ k.publicKey) (hr : k'.Valid) (ht : t.Valid) (m : List UInt8) (nonce : ℤ)
    (d : PCS.Draws) :
    ((∃ o, PCS.getPcs hash k t m k' nonce d = .ok o) ↔ ∀ n, identityValue k = .ok n → n < t.p) ∧
    ∀ o, PCS.getPcs hash k t m k' nonce d = .ok o → o.verifies hash m = .ok true ∧
      ∀ m', sendChallenge hash m' o.a ≠ sendChallenge hash m o.a →
        o.verifies hash m' = .ok false := by
  have : Fact t.p.toNat.Prime := ⟨ht.prime⟩
  refine ⟨⟨?_, ?_⟩, ?_⟩
  · rintro ⟨o, h⟩
    exact (registered_of_getPcs hk ht h).fits
  · intro hfits
    obtain ⟨o, -, h, -⟩ := getPcs_isPromise hash ⟨hk, hd, ht, hfits⟩ ho hr m nonce d
    exact ⟨o, h⟩
  · intro o h
    obtain ⟨o', res, h', hp, -⟩ :=
      getPcs_isPromise hash (registered_of_getPcs hk ht h) ho hr m nonce d
    obtain rfl : o' = o := Except.ok.inj (h'.symm.trans h)
    refine ⟨hp.verifies, ?_⟩
    intro m' hne
    rw [OrClause.verifies_of_verifies hash hp.verifies, decide_eq_false hne]

end

/-- One party's promise to another, both with keys of 303 digits. -/
theorem getPcs_complete_sample : ∃ o,
    PCS.getPcs sha256 (sampleKey 1000) (sampleKey 1002).getPublicKeys (getBytes "contract")
      (sampleKey 1001).getPublicKeys 7 ⟨1, 2, 3, 4, 5, 6⟩ = .ok o ∧
    o.verifies sha256 (getBytes "contract") = .ok true ∧
    ∀ m', sendChallenge sha256 m' o.a ≠ sendChallenge sha256 (getBytes "contract") o.a →
      o.verifies sha256 m' = .ok false := by
  have hreg := sampleKey_registered (x := 1000) 1002 (by decide +kernel)
  have h := getPcs_complete sha256 hreg.party (sampleKey_owned 1000) hreg.digits
    (sampleKey_valid 1001) hreg.trent (getBytes "contract") 7 ⟨1, 2, 3, 4, 5, 6⟩
  obtain ⟨o, ho⟩ := h.1.mpr hreg.fits
  exact ⟨o, ho, h.2 o ho⟩

/-! ### Who made it -/

/-- The numbers that `Utils.rand(bitLength, p)` returns. -/
def Rand (bitLength : ℕ) (p s : ℤ) : Prop :=
  if p ≤ 0 ∨ bitLength = 0 then s = 0 else 1 ≤ s ∧ s ≤ p ∧ s < 2 ^ bitLength

structure PCS.Drawn (keys trentK receiverK : ElGamalKey) (nonce : ℤ) (d : PCS.Draws) : Prop where
  nonce : 1 ≤ nonce ∧ nonce ≤ trentK.p - 2
  cSchnorr2 : Rand 160 receiverK.p d.cSchnorr2
  rSchnorr2 : Rand 160 receiverK.p d.rSchnorr2
  cCce2 : Rand 160 trentK.p d.cCce2
  rCce2 : Rand 160 trentK.p d.rCce2
  sCce1 : Rand 1024 trentK.p d.sCce1
  sSchnorr1 : Rand 1024 keys.p d.sSchnorr1

def promises (hash : List UInt8 → Digest) (t : ElGamalKey) (m : List UInt8) (k k' : ElGamalKey) :
    Set OrClause :=
  { o | ∃ nonce d, PCS.Drawn k t k' nonce d ∧ PCS.getPcs hash k t m k' nonce d = .ok o }

def OrClause.swap (o : OrClause) : OrClause := { o with ands := o.ands.reverse }

/-- The same promises, up to the order of the clauses. -/
def SameUpToOrder (X Y : Set OrClause) : Prop :=
  (∀ o ∈ X, o ∈ Y ∨ o.swap ∈ Y) ∧ ∀ o ∈ Y, o ∈ X ∨ o.swap ∈ X

theorem rand_one {bitLength : ℕ} (hb : bitLength ≠ 0) {p : ℤ} (hp : 0 < p) : Rand bitLength p 1 := by
  rw [Rand, if_neg (by omega)]
  exact ⟨le_refl _, hp, one_lt_pow₀ (by decide) hb⟩

theorem drawn_one {k k' t : ElGamalKey} (hk : k.Valid) (hk' : k'.Valid) (ht : Registered t k) :
    PCS.Drawn k t k' 1 ⟨1, 1, 1, 1, 1, 1⟩ := by
  obtain ⟨n, hn, hlt⟩ := (registered_iff hk ht.trent).mp ht
  have h3 : 3 ≤ t.p := by
    obtain ⟨data, n', hdata, hn', -, -, hlow, -⟩ := identification ht.digits
    rw [identityValue, hdata, ok_bind, hn', Except.ok.injEq] at hn
    have hpow : 3 ≤ 48 * 256 ^ 124 := by norm_num
    omega
  have hp := hk.g_pos.trans hk.g_lt
  have hp' := hk'.g_pos.trans hk'.g_lt
  have ht0 : 0 < t.p := by omega
  exact ⟨⟨le_refl _, by omega⟩, rand_one (by decide) hp', rand_one (by decide) hp',
    rand_one (by decide) ht0, rand_one (by decide) ht0, rand_one (by decide) ht0,
    rand_one (by decide) hp⟩

section

variable {hash : List UInt8 → Digest} {A B t : ElGamalKey} {m : List UInt8}

/-- Every promise of the set shows the identity of its maker, in whatever order. -/
theorem plaintext_of_mem {o : OrClause} (h : o ∈ promises hash t m A B ∨ o.swap ∈ promises hash t m A B) :
    ∃ M, o.ands.map (·.resEncrypt.M) = [M, M] ∧ getIdentificationData A = .ok M := by
  rcases h with ⟨nonce, d, -, h⟩ | ⟨nonce, d, -, h⟩
  · obtain ⟨b, e, s1, c1, s2, c2, hb, -, hshape⟩ := getPcs_shape h
    exact ⟨b, hshape.plaintext, hb⟩
  · obtain ⟨b, e, s1, c1, s2, c2, hb, -, hshape⟩ := getPcs_shape h
    have hswap := hshape.plaintext
    rw [OrClause.swap, List.map_reverse, List.reverse_eq_iff] at hswap
    exact ⟨b, hswap, hb⟩

theorem not_mem_of_mem (hne : getIdentificationData A ≠ getIdentificationData B) {o : OrClause}
    (h : o ∈ promises hash t m A B) : ¬ (o ∈ promises hash t m B A ∨ o.swap ∈ promises hash t m B A) := by
  intro h'
  obtain ⟨M, hM, hA⟩ := plaintext_of_mem (Or.inl h)
  obtain ⟨M', hM', hB⟩ := plaintext_of_mem h'
  rw [hM, List.cons.injEq] at hM'
  exact hne (by rw [hA, hB, hM'.1])

theorem promises_eq_empty (hA : A.Valid) (hoA : A.Owned) (hB : B.Valid) (ht : t.Valid) :
    promises hash t m A B = ∅ ↔ ¬ Encodable t A := by
  rw [Set.eq_empty_iff_forall_notMem, ← registered_iff hA ht]
  constructor
  · intro h hreg
    have : Fact t.p.toNat.Prime := ⟨ht.prime⟩
    obtain ⟨o, -, ho, -⟩ := getPcs_isPromise hash hreg hoA hB m 1 ⟨1, 1, 1, 1, 1, 1⟩
    exact h o ⟨1, _, drawn_one hA hB hreg, ho⟩
  · rintro hreg o ⟨nonce, d, -, ho⟩
    exact hreg (registered_of_getPcs hA ht ho)

end

/-- **The two parties can make the same promises** only when neither can make any: when
the identity of neither can be encrypted under Trent's key. -/
theorem promises_indistinguishable_iff (hash : List UInt8 → Digest) {A B t : ElGamalKey}
    (hne : getIdentificationData A ≠ getIdentificationData B) (m : List UInt8) :
    (SameUpToOrder (promises hash t m A B) (promises hash t m B A) ↔
      promises hash t m A B = ∅ ∧ promises hash t m B A = ∅) ∧
    (A.Valid → A.Owned → B.Valid → B.Owned → t.Valid →
      (SameUpToOrder (promises hash t m A B) (promises hash t m B A) ↔
        ¬ Encodable t A ∧ ¬ Encodable t B)) := by
  have hempty : SameUpToOrder (promises hash t m A B) (promises hash t m B A) ↔
      promises hash t m A B = ∅ ∧ promises hash t m B A = ∅ := by
    constructor
    · rintro ⟨hAB, hBA⟩
      refine ⟨Set.eq_empty_iff_forall_notMem.mpr ?_, Set.eq_empty_iff_forall_notMem.mpr ?_⟩
      · exact fun o ho => not_mem_of_mem hne ho (hAB o ho)
      · exact fun o ho => not_mem_of_mem hne.symm ho (hBA o ho)
    · rintro ⟨hA, hB⟩
      rw [hA, hB]
      exact ⟨fun o ho => absurd ho (Set.notMem_empty o), fun o ho => absurd ho (Set.notMem_empty o)⟩
  refine ⟨hempty, ?_⟩
  intro hA hoA hB hoB ht
  rw [hempty, promises_eq_empty hA hoA hB ht, promises_eq_empty hB hoB hA ht]

/-! ### Two keys of the size the service makes -/

theorem identity_ne {k k' : ElGamalKey} (h0 : 0 ≤ k.publicKey) (h0' : 0 ≤ k'.publicKey)
    (hlen : 10 ^ 124 ≤ k.publicKey) (hne : (Nat.toDigits 10 k.publicKey.toNat).take 125 ≠
      (Nat.toDigits 10 k'.publicKey.toNat).take 125) :
    getIdentificationData k ≠ getIdentificationData k' := by
  intro h
  obtain ⟨data, -, hdata, -⟩ := identification hlen
  have hlen' := length_of_identification (h.symm.trans hdata)
  have hlen := length_of_identification hdata
  rw [getIdentificationData, getIdentificationData, substring, substring, if_neg (by omega),
    if_neg (by omega), decimal_toList h0, decimal_toList h0'] at h
  have hbytes := congrArg newString (Except.ok.inj h)
  rw [newString_getBytes, newString_getBytes] at hbytes
  exact hne (String.ofList_injective hbytes)

theorem sampleKey_identity_ne :
    getIdentificationData (sampleKey 1000) ≠ getIdentificationData (sampleKey 1001) :=
  identity_ne (sampleKey_valid 1000).publicKey_nonneg (sampleKey_valid 1001).publicKey_nonneg
    (by decide +kernel) (by decide +kernel)

theorem promises_indistinguishable_sample :
    ¬ SameUpToOrder
      (promises sha256 (sampleKey 1002) (getBytes "contract") (sampleKey 1000) (sampleKey 1001))
      (promises sha256 (sampleKey 1002) (getBytes "contract") (sampleKey 1001) (sampleKey 1000)) := by
  have hreg := sampleKey_registered (x := 1000) 1002 (by decide +kernel)
  have hT := (sampleKey_valid 1002).of_getPublicKeys
  intro h
  have hempty := ((promises_indistinguishable_iff sha256 sampleKey_identity_ne
    (getBytes "contract")).2 hreg.party (sampleKey_owned 1000)
    (sampleKey_valid 1001).of_getPublicKeys (sampleKey_owned 1001) hT).mp h
  exact hempty.1 ((registered_iff hreg.party hT).mp ⟨hreg.party, hreg.digits, hT, hreg.fits⟩)

/-- A promise of the first key to the second, with all draws `1`, is one that the second
cannot make. -/
theorem promise_shows_maker : ∃ o,
    PCS.getPcs sha256 (sampleKey 1000) (sampleKey 1002) (getBytes "contract") (sampleKey 1001) 1
      ⟨1, 1, 1, 1, 1, 1⟩ = .ok o ∧
    getIdentificationData (sampleKey 1000) ≠ getIdentificationData (sampleKey 1001) ∧
    o ∈ promises sha256 (sampleKey 1002) (getBytes "contract") (sampleKey 1000) (sampleKey 1001) ∧
    ¬ SameUpToOrder
      (promises sha256 (sampleKey 1002) (getBytes "contract") (sampleKey 1000) (sampleKey 1001))
      (promises sha256 (sampleKey 1002) (getBytes "contract") (sampleKey 1001) (sampleKey 1000)) := by
  have hreg := sampleKey_registered (x := 1000) 1002 (by decide +kernel)
  have hreg' : Registered (sampleKey 1002) (sampleKey 1000) :=
    ⟨hreg.party, hreg.digits, hreg.trent.of_getPublicKeys, hreg.fits⟩
  have hB := (sampleKey_valid 1001).of_getPublicKeys
  have : Fact (sampleKey 1002).p.toNat.Prime := ⟨samplePrime_prime⟩
  obtain ⟨o, -, ho, -⟩ := getPcs_isPromise sha256 hreg' (sampleKey_owned 1000) hB
    (getBytes "contract") 1 ⟨1, 1, 1, 1, 1, 1⟩
  have hmem : o ∈ promises sha256 (sampleKey 1002) (getBytes "contract") (sampleKey 1000)
      (sampleKey 1001) := ⟨1, _, drawn_one hreg.party hB hreg', ho⟩
  exact ⟨o, ho, sampleKey_identity_ne, hmem,
    fun h => not_mem_of_mem sampleKey_identity_ne hmem (h.1 o hmem)⟩

end SXP.Sigma
