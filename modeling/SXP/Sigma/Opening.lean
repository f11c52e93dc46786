import SXP.Sigma.Promise
import SXP.Sigma.Trent

/-!
# What Trent can open

The peers check a ciphertext with a division: `v` divided by the plaintext `M`,
without the remainder, has to be the mask.  Trent decrypts modulo `p`, and what
he gets is `M` and the remainder of that division, multiplied by the inverse of
the mask (`decryption_eq`).  So the two agree exactly when there is no
remainder, and what the peers accept need not open (`verifiesRes_iff`).

Honest parties encrypt without a remainder.  Then every promise of a claim
opens, and Trent's response to its ciphertext makes it a signature that is
accepted (`honest_claim_opens`).
-/

namespace SXP.Sigma

open SXP.Lib SXP.Lib.Java SXP.Lib.BigInteger SXP.Lib.Text SXP.Lib.SigmaProtocol

namespace TrentService

/-! ### Decryption -/

section

variable {q : ℕ} [Fact q.Prime] {T : TrentService} {x : ℤ}

/-- **Decryption gives the plaintext and what the division left over.** -/
theorem decryption_eq (hT : KeyOver q T.keys x) {res : ResEncrypt} {k M w : ℤ}
    (hu : (res.u : ZMod q) = (T.keys.g : ZMod q) ^ k) (hw : divide res.v M = .ok w)
    (hwk : (w : ZMod q) = (T.keys.publicKey : ZMod q) ^ k) : T.decryption res =
      .ok ((((M : ZMod q) + (res.v.tmod M : ZMod q) * ((T.keys.publicKey : ZMod q) ^ k)⁻¹).val : ℕ)
        : ℤ) := by
  have hg := hT.publicOver.g
  have hu0 : (res.u : ZMod q) ≠ 0 := by
    rw [hu]
    exact zpow_ne_zero k hg
  have hy : (T.keys.publicKey : ZMod q) ^ k ≠ 0 := zpow_ne_zero k hT.publicOver.publicKey
  have hv : (res.v : ZMod q) = (M : ZMod q) * (T.keys.publicKey : ZMod q) ^ k
      + (res.v.tmod M : ZMod q) := by
    rw [divide] at hw
    split at hw
    · exact absurd hw (by simp)
    · rw [pure_eq, Except.ok.injEq] at hw
      rw [← hwk, ← Int.cast_mul, ← Int.cast_add, ← hw, Int.mul_tdiv_add_tmod]
  have hpower : (res.u : ZMod q) ^ ((q : ℤ) - 1 - x) = ((T.keys.publicKey : ZMod q) ^ k)⁻¹ := by
    rw [hu, zpow_card_sub hg, ← hT.publicKey]
  rw [decryption, hT.privateKey, nonNull_some, ok_bind, hT.publicOver.p, modPow_eq hu0, ok_bind,
    mod_eq, hpower, Int.cast_mul, cast_val, hv, mul_add, mul_comm (M : ZMod q), ← mul_assoc,
    inv_mul_cancel₀ hy, one_mul, mul_comm (res.v.tmod M : ZMod q)]

/-- A number below the modulus is what Trent decrypts to exactly if it divides `v`. -/
theorem decryption_iff (hT : KeyOver q T.keys x) {res : ResEncrypt} {k w : ℤ} {M : ℕ}
    (hM : M < q) (hu : (res.u : ZMod q) = (T.keys.g : ZMod q) ^ k) (hw : divide res.v M = .ok w)
    (hwk : (w : ZMod q) = (T.keys.publicKey : ZMod q) ^ k) :
    T.decryption res = .ok (M : ℤ) ↔ (M : ℤ) ∣ res.v := by
  have hy : (T.keys.publicKey : ZMod q) ^ k ≠ 0 := zpow_ne_zero k hT.publicOver.publicKey
  have hMval : ((M : ℤ) : ZMod q).val = M := by
    rw [Int.cast_natCast, ZMod.val_cast_of_lt hM]
  have hM0 : (M : ℤ) ≠ 0 := by
    intro h0
    rw [divide, if_pos h0] at hw
    exact absurd hw (by simp)
  have hrem : ((res.v.tmod M : ℤ) : ZMod q) = 0 ↔ (M : ℤ) ∣ res.v := by
    rw [ZMod.intCast_zmod_eq_zero_iff_dvd, Int.dvd_iff_tmod_eq_zero (a := (M : ℤ))]
    constructor
    · -- the remainder is smaller than the modulus
      intro hd
      have hlt : (res.v.tmod M).natAbs < M := by
        rw [Int.natAbs_tmod, Int.natAbs_natCast]
        exact Nat.mod_lt _ (by omega)
      refine Int.eq_zero_of_dvd_of_natAbs_lt_natAbs hd ?_
      rw [Int.natAbs_natCast]
      omega
    · intro h
      rw [h]
      exact dvd_zero _
  rw [decryption_eq hT hu hw hwk, Except.ok.injEq, Nat.cast_inj, ← hrem]
  constructor
  · intro h
    have heq := h.trans hMval.symm
    have hsum := ZMod.val_injective q heq
    rw [add_eq_left] at hsum
    exact (mul_eq_zero.mp hsum).resolve_right (inv_ne_zero hy)
  · intro h
    rw [h, zero_mul, add_zero, hMval]

end

/-! ### What is opened -/

/-- The identity that the ciphertext of a clause is compared with: the one of the key of
its first response. -/
def firstIdentity (and : AndClause) : Java ℤ := do
  let response ← first and.responses
  let key ← nonNull (and.rK.get response)
  identityValue key

def Readable (T : TrentService) (and : AndClause) : Prop :=
  ∃ n h, firstIdentity and = .ok n ∧ T.decryption and.resEncrypt = .ok h

def Opens (T : TrentService) (and : AndClause) : Prop :=
  ∃ n, firstIdentity and = .ok n ∧ T.decryption and.resEncrypt = .ok n

theorem verifiesResLoop_iff {T : TrentService} {ands : List AndClause} {b : Bool} :
    T.verifiesResLoop b ands = .ok true ↔
      (∀ and ∈ ands, T.Readable and) ∧ (b = true ∨ ∃ and ∈ ands, T.Opens and) := by
  induction ands generalizing b with
  | nil => simp [verifiesResLoop]
  | cons a as ih =>
    have hstep : T.verifiesResLoop b (a :: as) = .ok true ↔ ∃ n h, firstIdentity a = .ok n ∧
        T.decryption a.resEncrypt = .ok h ∧ T.verifiesResLoop (b || h == n) as = .ok true := by
      rw [verifiesResLoop, firstIdentity]
      simp only [identityValue, bind_eq_ok]
      constructor
      · rintro ⟨r, hr, key, hkey, data, hdata, n, hn, h, hh, hloop⟩
        exact ⟨n, h, ⟨r, hr, key, hkey, data, hdata, hn⟩, hh, hloop⟩
      · rintro ⟨n, h, ⟨r, hr, key, hkey, data, hdata, hn⟩, hh, hloop⟩
        exact ⟨r, hr, key, hkey, data, hdata, n, hn, h, hh, hloop⟩
    rw [hstep, List.forall_mem_cons]
    constructor
    · rintro ⟨n, h, hn, hh, hloop⟩
      obtain ⟨hall, hor⟩ := ih.mp hloop
      refine ⟨⟨⟨n, h, hn, hh⟩, hall⟩, ?_⟩
      rcases hor with hb | ⟨and, hand, hopens⟩
      · rcases (Bool.or_eq_true _ _).mp hb with hb | hb
        · exact Or.inl hb
        · rw [beq_iff_eq.mp hb] at hh
          exact Or.inr ⟨a, List.mem_cons_self, n, hn, hh⟩
      · exact Or.inr ⟨and, List.mem_cons_of_mem a hand, hopens⟩
    · rintro ⟨⟨⟨n, h, hn, hh⟩, hall⟩, hor⟩
      refine ⟨n, h, hn, hh, ih.mpr ⟨hall, ?_⟩⟩
      rcases hor with hb | ⟨and, hand, hopens⟩
      · exact Or.inl (by rw [hb, Bool.true_or])
      · rcases List.mem_cons.mp hand with rfl | hand
        · obtain ⟨n', hn', hh'⟩ := hopens
          obtain rfl : n = n' := Except.ok.inj (hn.symm.trans hn')
          obtain rfl : h = n := Except.ok.inj (hh.symm.trans hh')
          exact Or.inl (by rw [beq_self_eq_true, Bool.or_true])
        · exact Or.inr ⟨and, hand, hopens⟩

/-- What the peers check of a promise, and that its first clause carries the identity of
its Schnorr key: `u` is a power of the generator and `v`, divided by the plaintext `M`, the
same power of the public key. -/
structure PeersAccept (T : TrentService) (o : OrClause) (m : List UInt8) (and0 : AndClause)
    (M : ℤ) : Prop where
  verifies : o.verifies T.hash m = .ok true
  trent : ∀ and ∈ o.ands, ∀ r ∈ and.responses, r.kind = .cce →
    ∃ t, and.rK.get r = some t ∧ t.equals T.keys = true
  first : o.ands.head? = some and0
  plain : ofBytes and0.resEncrypt.M = .ok M
  identity : ∃ key, schnorrKey and0 = some key ∧ identityValue key = .ok M
  below : M < T.keys.p
  masked : ∃ k w, modPow T.keys.g k T.keys.p = mod and0.resEncrypt.u T.keys.p ∧
    divide and0.resEncrypt.v M = .ok w ∧ modPow T.keys.publicKey k T.keys.p = mod w T.keys.p

theorem verifiesRes_eq_true {T : TrentService} {o : OrClause} {and0 : AndClause}
    (h : o.ands.head? = some and0) (s : ℤ) : T.verifiesRes o s = .ok true ↔
      (∀ and ∈ o.ands, T.Readable and) ∧ (T.Opens and0 ∨ ∃ and ∈ o.ands.tail, T.Opens and) := by
  obtain ⟨rest, hands⟩ := List.head?_eq_some_iff.mp h
  rw [verifiesRes, verifiesResLoop_iff, hands, List.tail_cons, List.exists_mem_cons_iff]
  simp only [Bool.false_eq_true, false_or]

/-- What the peers accept decrypts to its plaintext exactly if this divides `v`. -/
theorem PeersAccept.decryption_iff {T : TrentService} (ht : T.keys.Valid) (ho : T.keys.Owned)
    {o : OrClause} {m : List UInt8} {and0 : AndClause} {M : ℤ} (h : T.PeersAccept o m and0 M) :
    T.decryption and0.resEncrypt = .ok M ↔ M ∣ and0.resEncrypt.v := by
  have : Fact T.keys.p.toNat.Prime := ⟨ht.prime⟩
  obtain ⟨x, hx⟩ := ht.keyOver ho
  have hp := hx.publicOver.p
  obtain ⟨k, w, hu, hw, hwk⟩ := h.masked
  rw [hp, modPow_eq hx.publicOver.g, mod_eq, Except.ok.injEq, Nat.cast_inj] at hu
  rw [hp, modPow_eq hx.publicOver.publicKey, mod_eq, Except.ok.injEq, Nat.cast_inj] at hwk
  obtain ⟨key, -, hid⟩ := h.identity
  obtain ⟨n, rfl⟩ := Int.eq_ofNat_of_zero_le (identityValue_nonneg hid)
  exact TrentService.decryption_iff hx (by have := h.below; omega)
    (ZMod.val_injective _ hu).symm hw (ZMod.val_injective _ hwk).symm

theorem opens_iff {T : TrentService} {and : AndClause} {M : ℤ} (h : firstIdentity and = .ok M) :
    T.Opens and ↔ T.decryption and.resEncrypt = .ok M := by
  constructor
  · rintro ⟨n, hn, hopen⟩
    rw [h, Except.ok.injEq] at hn
    rwa [← hn] at hopen
  · intro hopen
    exact ⟨M, h, hopen⟩

/-- **What the peers accept, Trent opens** exactly if `v` is a multiple of the plaintext, no
clause throws, and the first key of the first clause is the one with the identity (or another
clause opens).  For a promise whose Schnorr response comes first, and whose other clauses do
not open by themselves, it is the multiple that decides. -/
theorem verifiesRes_iff {T : TrentService} (ht : T.keys.Valid) (ho : T.keys.Owned)
    {o : OrClause} {m : List UInt8} {and0 : AndClause} {M : ℤ} (h : T.PeersAccept o m and0 M)
    (s : ℤ) :
    (T.verifiesRes o s = .ok true ∧ T.decryption and0.resEncrypt = .ok M ↔
      M ∣ and0.resEncrypt.v ∧ (∀ and ∈ o.ands, T.Readable and) ∧
        (firstIdentity and0 = .ok M ∨ ∃ and ∈ o.ands.tail, T.Opens and)) ∧
    (firstIdentity and0 = .ok M → (∀ and ∈ o.ands.tail, ¬ T.Opens and) →
      (T.verifiesRes o s = .ok true ↔
        M ∣ and0.resEncrypt.v ∧ ∀ and ∈ o.ands, T.Readable and)) := by
  have hdecrypt := h.decryption_iff ht ho
  rw [verifiesRes_eq_true h.first]
  refine ⟨?_, ?_⟩
  · rw [hdecrypt, and_comm]
    refine and_congr_right fun hdvd => and_congr_right fun _ => or_congr_left ?_
    constructor
    · rintro ⟨n, hn, hopen⟩
      rw [hdecrypt.mpr hdvd, Except.ok.injEq] at hopen
      rw [hn, hopen]
    · intro hfirst
      exact (opens_iff hfirst).mpr (hdecrypt.mpr hdvd)
  · intro hfirst hrest
    rw [opens_iff hfirst, hdecrypt, and_comm]
    refine and_congr_left fun _ => or_iff_left ?_
    rintro ⟨and, hand, hopen⟩
    exact hrest and hand hopen

/-! ### Honest claims -/

theorem encrypt_v {t : ElGamalKey} {data : List UInt8} {nonce : ℤ} {e : ElGamalEncrypt}
    (h : encryptForContract t data nonce = .ok e) : ∃ power M,
      modPow t.publicKey nonce t.p = .ok power ∧ ofBytes data = .ok M ∧ e.v = power * M := by
  unfold encryptForContract at h
  split at h
  · exact absurd h (by simp)
  · split at h
    · exact absurd h (by simp)
    · simp only [bind_eq_ok, pure_eq, Except.ok.injEq] at h
      obtain ⟨u, -, power, hpower, M, hM, rfl⟩ := h
      exact ⟨power, M, hpower, hM, rfl⟩

/-- **Trent's response is accepted**: he knows the logarithm of his key, and it is the one of
the mask to the base `u`. -/
theorem ccd_proved {q : ℕ} [Fact q.Prime] (hash : List UInt8 → Digest) (name : String)
    {t : ElGamalKey} {x nonce : ℤ} (ht : KeyOver q t x) {res : ResEncrypt} (ho : Opening q t res nonce) (s : ℕ) :
    ∃ resp, Trent.sendResponse hash t res name s = .ok resp ∧
      resp.verifies (some t.getPublicKeys) res = .ok true := by
  have hg := ht.publicOver.g
  have hu : (res.u : ZMod q) ≠ 0 := by
    rw [ho.u]
    exact zpow_ne_zero nonce hg
  obtain ⟨M, w, hM, hw, hwk⟩ := ho.plain
  have hwu : (w : ZMod q) = (res.u : ZMod q) ^ x := by
    rw [hwk, ht.publicKey, ho.u, ← zpow_mul, ← zpow_mul, mul_comm]
  let mask : Masks := ⟨((((t.g : ZMod q) ^ (s : ℤ)).val : ℕ) : ℤ),
    some ((((res.u : ZMod q) ^ (s : ℤ)).val : ℕ) : ℤ)⟩
  let c := Trent.sendChallenge hash name mask
  refine ⟨⟨.ccd, mask, c, respond x s c⟩, ?_, ?_⟩
  · rw [Trent.sendResponse, Trent.sendMasks, ht.publicOver.p, modPow_eq hg, modPow_eq hu, ok_bind,
      ok_bind, pure_eq, ok_bind]
    simp only [Trent.sendAnswer, ht.privateKey, nonNull_some, ok_bind, pure_eq]
    rfl
  · have h1 := equationHolds_true ht.publicOver.p hg ht.publicKey (zpow_ne_zero x hg)
      (cast_val ((t.g : ZMod q) ^ (s : ℤ))) (accepts_respond hg x s c)
    have h2 := equationHolds_true ht.publicOver.p hu hwu (zpow_ne_zero x hu)
      (cast_val ((res.u : ZMod q) ^ (s : ℤ))) (accepts_respond hu x s c)
    rw [Responses.verifies, nonNull_some, ok_bind]
    simp only [Responses.ccdVerifies, ElGamalKey.getPublicKeys]
    rw [h1, andThen_true, hM, ok_bind, hw, ok_bind, h2]

theorem firstIdentity_eq {and : AndClause} {key : ElGamalKey} (h : and.firstKey = some key) :
    firstIdentity and = identityValue key := by
  rw [AndClause.firstKey, Option.bind_eq_some_iff] at h
  obtain ⟨r, hr, hkey⟩ := h
  rw [firstIdentity, first_eq_ok.mpr hr, ok_bind, hkey, nonNull_some, ok_bind]

/-- The owner of the key `party` has made the promise on `data`, to somebody with an
identity. -/
def MadeBy (T : TrentService) (data : List UInt8) (party : ElGamalKey) (o : OrClause) : Prop :=
  ∃ (owner receiver : ElGamalKey) (nonce : ℤ) (d : PCS.Draws), owner.equals party = true ∧
    owner.Owned ∧ Registered T.keys owner ∧ receiver.Valid ∧ 10 ^ 124 ≤ receiver.publicKey ∧
    PCS.getPcs T.hash owner T.keys.getPublicKeys data receiver nonce d = .ok o

/-- The ciphertext of an honest promise is a multiple of the number of its identity. -/
theorem dvd_of_getPcs {hash : List UInt8 → Digest} {owner trent receiver : ElGamalKey}
    {data : List UInt8} {nonce : ℤ} {d : PCS.Draws} {o : OrClause} {and0 : AndClause} {n : ℕ}
    (hpcs : PCS.getPcs hash owner trent data receiver nonce d = .ok o)
    (hhead : o.ands.head? = some and0) (hn : ofBytes and0.resEncrypt.M = .ok (n : ℤ)) :
    (n : ℤ) ∣ and0.resEncrypt.v := by
  obtain ⟨b, e, s1, c1, s2, c2, -, he, hshape⟩ := getPcs_shape hpcs
  have hres : and0.resEncrypt = e.resEncrypt b := by
    rw [← Option.some.inj (hshape.head.symm.trans hhead)]
  obtain ⟨power, M, -, hM, hv⟩ := encrypt_v he
  rw [hres] at hn ⊢
  rw [show ofBytes b = .ok (n : ℤ) from hn, Except.ok.injEq] at hM
  exact ⟨power, by rw [ElGamalEncrypt.resEncrypt, hv, ← hM, mul_comm]⟩

/-- A ciphertext that is a multiple of its plaintext decrypts to it. -/
theorem decryption_of_dvd {T : TrentService} [Fact T.keys.p.toNat.Prime] {x nonce : ℤ}
    (hx : KeyOver T.keys.p.toNat T.keys x) {res : ResEncrypt}
    (hopen : Opening T.keys.p.toNat T.keys res nonce) {n : ℕ} (hn : ofBytes res.M = .ok (n : ℤ))
    (hlt : (n : ℤ) < T.keys.p) (hdvd : (n : ℤ) ∣ res.v) : T.decryption res = .ok (n : ℤ) := by
  obtain ⟨M, w, hM, hw, hwk⟩ := hopen.plain
  obtain rfl : (n : ℤ) = M := Except.ok.inj (hn.symm.trans hM)
  exact (decryption_iff hx (by omega) hopen.u hw hwk).mpr hdvd

/-- **An honest promise opens**, and with Trent's response it is a signature of its maker. -/
theorem promise_opens {T : TrentService} (ho : T.keys.Owned) {data : List UInt8}
    {party : ElGamalKey} {o : OrClause} (h : T.MadeBy data party o) :
    (∀ s : ℤ, T.verifiesRes o s = .ok true) ∧ ∀ (name : String) (s : ℕ), ∃ and0 rpcs,
      o.ands.head? = some and0 ∧
      Trent.sendResponse T.hash T.keys and0.resEncrypt name s = .ok rpcs ∧
      SigmaSigner.verify T.hash ⟨some T.keys, some party⟩ data ⟨o, rpcs, T.keys.getPublicKeys⟩
        = .ok true := by
  obtain ⟨owner, receiver, nonce, d, hequals, hown, hreg, hr, hrd, hpcs⟩ := h
  have : Fact T.keys.p.toNat.Prime := ⟨hreg.trent.prime⟩
  have : Fact T.keys.getPublicKeys.p.toNat.Prime := ⟨hreg.trent.prime⟩
  have hreg' : Registered T.keys.getPublicKeys owner :=
    ⟨hreg.party, hreg.digits, hreg.trent.getPublicKeys, hreg.fits⟩
  obtain ⟨x, hx⟩ := hreg.trent.keyOver ho
  obtain ⟨o', res, ho', hp, hid, hopen, -⟩ :=
    getPcs_isPromise T.hash hreg' hown hr data nonce d
  obtain rfl : o' = o := Except.ok.inj (ho'.symm.trans hpcs)
  have hopen' : Opening T.keys.p.toNat T.keys res nonce := ⟨hopen.u, hopen.plain⟩
  obtain ⟨and0, and1, hands, hres0, hres1, hkey0, hkey1⟩ := hp.ands
  obtain ⟨n, hn, hlt⟩ := hid.value
  have hdvd : (n : ℤ) ∣ res.v := by
    rw [← hres0] at hn ⊢
    exact dvd_of_getPcs hpcs (by rw [hands, List.head?_cons]) hn
  have hdecrypt := decryption_of_dvd hx hopen' hn hlt hdvd
  have hfirst0 : firstIdentity and0 = .ok (n : ℤ) := by
    have hplain : getIdentificationData owner.getPublicKeys = .ok res.M := hid.plain
    rw [firstIdentity_eq hkey0, identityValue, hplain, ok_bind, hn]
  obtain ⟨data', n', hdata', hn', -⟩ := identification hrd
  have hfirst1 : firstIdentity and1 = .ok (n' : ℤ) := by
    rw [firstIdentity_eq hkey1, identityValue, hdata', ok_bind, hn']
  refine ⟨?_, ?_⟩
  · intro s
    rw [verifiesRes, verifiesResLoop_iff, hands]
    refine ⟨?_, Or.inr ⟨and0, List.mem_cons_self, n, hfirst0, by rw [hres0, hdecrypt]⟩⟩
    intro and hand
    rcases List.mem_pair.mp hand with rfl | rfl
    · exact ⟨n, n, hfirst0, by rw [hres0, hdecrypt]⟩
    · exact ⟨n', n, hfirst1, by rw [hres1, hdecrypt]⟩
  · intro name s
    obtain ⟨rpcs, hrpcs, hverifies⟩ := ccd_proved T.hash name hx hopen' s
    refine ⟨and0, rpcs, by rw [hands, List.head?_cons], by rw [hres0, hrpcs], ?_⟩
    obtain ⟨-, -, hparty⟩ := ElGamalKey.equals_iff.mp hequals
    refine verify_of_promise T.hash hp hid hverifies ⟨?_, ?_⟩
    · rintro r ⟨⟩
      exact hparty.symm
    · rintro r ⟨⟩
      rfl

theorem openPromise_eq {A : Arbiter} {ors : List OrClause} {name : String} {s : ℕ → ℕ} {k : ℕ}
    (hk : k < ors.length) {and0 : AndClause} {rpcs : Responses}
    (hhead : ors[k].ands.head? = some and0)
    (hrpcs : Trent.sendResponse A.hash A.keys and0.resEncrypt name (s k) = .ok rpcs) :
    TrentSolver.openPromise A (some (ors.map some)) name s k
      = .ok ⟨ors[k], rpcs, A.keys.getPublicKeys⟩ := by
  rw [TrentSolver.openPromise, nonNull_some, ok_bind, List.getElem?_map,
    List.getElem?_eq_getElem hk]
  simp only [Option.map_some, nonNull_some, ok_bind, first_eq_ok.mpr hhead, hrpcs, pure_eq]

/-- **Every honest claim opens**: each of its promises passes Trent's test, and what he
hands out is a list of signatures of the parties, on the data followed by the round. -/
theorem honest_claim_opens (T : TrentService) (ho : T.keys.Owned) (c : SigmaContract) (round : ℤ)
    (ors : List OrClause) (hmade : List.Forall₂ (T.MadeBy (c.roundData round)) c.parties ors)
    (call : Call) (hm : T.toOrs call.m = some (ors.map some)) :
    (∀ o ∈ ors, ∀ s : ℤ, T.verifiesRes o s = .ok true) ∧
    ∃ sigs, TrentSolver.resolveToken (T.arbiter c) call = .ok sigs ∧
      List.Forall₂ (fun party sign => SigmaSigner.verify T.hash ⟨some T.keys, some party⟩
        (c.roundData round) sign = .ok true) c.parties sigs := by
  obtain ⟨hlen, hget⟩ := List.forall₂_iff_get.mp hmade
  refine ⟨?_, ?_⟩
  · intro o hmem s
    obtain ⟨k, hk, rfl⟩ := List.getElem_of_mem hmem
    exact (promise_opens ho (hget k (hlen ▸ hk) hk)).1 s
  · have hopen : ∀ (k : ℕ) (hk : k < c.parties.length), ∃ sign,
        TrentSolver.openPromise (T.arbiter c) (some (ors.map some)) call.name call.s k
          = .ok sign ∧
        SigmaSigner.verify T.hash ⟨some T.keys, some c.parties[k]⟩ (c.roundData round) sign
          = .ok true := by
      intro k hk
      have hk' : k < ors.length := hlen ▸ hk
      obtain ⟨and0, rpcs, hhead, hrpcs, hverify⟩ :=
        (promise_opens ho (hget k hk hk')).2 call.name (call.s k)
      exact ⟨_, openPromise_eq hk' hhead hrpcs, hverify⟩
    obtain ⟨sigs, hsigs⟩ := collect_total (l := List.range c.parties.length) fun k hk =>
      (hopen k (List.mem_range.mp hk)).imp fun _ h => h.1
    obtain ⟨hlen', hget'⟩ := List.forall₂_iff_get.mp (collect_eq_ok.mp hsigs)
    refine ⟨sigs, ?_, List.forall₂_iff_get.mpr ⟨?_, ?_⟩⟩
    · rw [TrentSolver.resolveToken, ← hsigs]
      exact congrArg (fun orT => collect (TrentSolver.openPromise (T.arbiter c) orT call.name
        call.s) (List.range c.parties.length)) hm
    · rw [← hlen', List.length_range]
    · intro k hk hk'
      obtain ⟨sign, hsign, hverify⟩ := hopen k hk
      have heq := hget' k (by rwa [List.length_range]) hk'
      rw [List.get_eq_getElem, List.getElem_range, hsign, Except.ok.injEq] at heq
      rwa [← heq]

theorem sampleTrent_registered {x : ℕ} (hx : 10 ^ 124 ≤ (sampleKey x).publicKey) :
    Registered sampleTrent.keys (sampleKey x) := by
  have hreg := sampleKey_registered 1002 hx
  exact ⟨hreg.party, hreg.digits, hreg.trent.of_getPublicKeys, hreg.fits⟩

theorem samplePromise_made {x : ℕ} (hx : 10 ^ 124 ≤ (sampleKey x).publicKey) {round : ℤ}
    {o : OrClause} (h : TrentSolver.samplePromise x round = .ok o) :
    sampleTrent.MadeBy (SigmaContract.sampleContract.roundData round) (sampleKey x).getPublicKeys
      o :=
  ⟨sampleKey x, (sampleKey 1000).getPublicKeys, 7, ⟨1, 2, 3, 4, 5, 6⟩,
    ElGamalKey.equals_iff.mpr ⟨rfl, rfl, rfl⟩, sampleKey_owned x, sampleTrent_registered hx,
    sampleKey_valid 1000, show 10 ^ 124 ≤ (sampleKey 1000).publicKey by decide +kernel, h⟩

theorem honest_claim_opens_sample : ∃ ors sigs,
    List.Forall₂ ({ sampleTrent with toOrs := TrentSolver.sampleReader 1 ors }.MadeBy
      (SigmaContract.sampleContract.roundData 1)) SigmaContract.sampleContract.parties ors ∧
    TrentSolver.resolveToken
      ({ sampleTrent with toOrs := TrentSolver.sampleReader 1 ors }.arbiter
        SigmaContract.sampleContract)
      (TrentSolver.sampleClaim 1 ors) = .ok sigs ∧
    List.Forall₂ (fun party sign => SigmaSigner.verify sha256
      ⟨some (sampleKey 1002), some party⟩ (SigmaContract.sampleContract.roundData 1) sign
        = .ok true) SigmaContract.sampleContract.parties sigs := by
  obtain ⟨or0, h0, -⟩ := TrentSolver.samplePromise_exists (x := 1000) (by decide +kernel) 1
  obtain ⟨or1, h1, -⟩ := TrentSolver.samplePromise_exists (x := 1001) (by decide +kernel) 1
  have hmade : List.Forall₂ ({ sampleTrent with
      toOrs := TrentSolver.sampleReader 1 [or0, or1] }.MadeBy
        (SigmaContract.sampleContract.roundData 1)) SigmaContract.sampleContract.parties
      [or0, or1] :=
    .cons (samplePromise_made (by decide +kernel) h0)
      (.cons (samplePromise_made (by decide +kernel) h1) .nil)
  obtain ⟨-, sigs, hsigs, hverify⟩ := honest_claim_opens { sampleTrent with
      toOrs := TrentSolver.sampleReader 1 [or0, or1] } (sampleKey_owned 1002)
    SigmaContract.sampleContract 1 [or0, or1] hmade (TrentSolver.sampleClaim 1 [or0, or1])
    (TrentSolver.sampleReader_text 1 [or0, or1])
  exact ⟨[or0, or1], sigs, hmade, hsigs, hverify⟩

/-! ### A remainder -/

/-- A promise about any ciphertext with an opening is one that the peers accept. -/
theorem createPcs_peersAccept {T : TrentService} {k k' : ElGamalKey} {res : ResEncrypt}
    {nonce : ℤ} (hreg : Registered T.keys k) (hk : k.Owned) (hk' : k'.Valid)
    [Fact T.keys.p.toNat.Prime] (hopen : Opening T.keys.p.toNat T.keys res nonce)
    (hid : res.Carries k T.keys) (m : List UInt8) (d : PCS.Draws) : ∃ o and0 and1 M,
      PCS.createPcs T.hash k T.keys.getPublicKeys res nonce m k' d = .ok o ∧
      o.ands = [and0, and1] ∧ and0.resEncrypt = res ∧ and1.resEncrypt = res ∧
      T.PeersAccept o m and0 M ∧ firstIdentity and0 = .ok M ∧
      firstIdentity and1 = identityValue k' := by
  have : Fact k.p.toNat.Prime := ⟨hreg.party.prime⟩
  have : Fact k'.p.toNat.Prime := ⟨hk'.prime⟩
  obtain ⟨x, hx⟩ := hreg.party.keyOver hk
  have ht := hreg.trent.publicOver
  have ht' : PublicOver T.keys.p.toNat T.keys.getPublicKeys := ⟨ht.p, ht.g, ht.publicKey⟩
  obtain ⟨o, ho, hp⟩ :=
    createPcs_isPromise T.hash hx hk'.publicOver ht' ⟨hopen.u, hopen.plain⟩ m d
  obtain ⟨n, hn, hlt⟩ := hid.value
  obtain ⟨s1, c1, s2, c2, hshape⟩ := createPcs_shape ho
  have hvalue : identityValue k.getPublicKeys = .ok (n : ℤ) := by
    have hplain : getIdentificationData k.getPublicKeys = .ok res.M := hid.plain
    rw [identityValue, hplain, ok_bind, hn]
  have hne : ∀ {s c : Responses}, s.kind = .schnorr → c.kind = .cce → s ≠ c := by
    rintro s c hs hc rfl
    rw [hs] at hc
    exact absurd hc (by decide)
  have hget1 : ((ResponseKeys.put [] s1 k.getPublicKeys).put c1 T.keys.getPublicKeys).get s1
      = some k.getPublicKeys := by
    rw [ResponseKeys.get_put_ne _ _ (hne hshape.schnorr1 hshape.cce1), ResponseKeys.get_put_self]
  have hget2 : ((ResponseKeys.put [] s2 k').put c2 T.keys.getPublicKeys).get s2 = some k' := by
    rw [ResponseKeys.get_put_ne _ _ (hne hshape.schnorr2 hshape.cce2), ResponseKeys.get_put_self]
  refine ⟨o, _, _, n, ho, hshape.ands, rfl, rfl, ⟨hp.verifies, ?_, hshape.head, hn, ?_, hlt, ?_⟩,
    ?_, ?_⟩
  · -- the responses about the ciphertext are checked under the key of Trent
    intro and hand r hr hkind
    rw [hshape.ands] at hand
    rcases List.mem_pair.mp hand with rfl | rfl
    · rcases List.mem_pair.mp hr with rfl | rfl
      · rw [hshape.schnorr1] at hkind
        exact absurd hkind (by decide)
      · exact ⟨_, ResponseKeys.get_put_self _ _ _, ElGamalKey.equals_iff.mpr ⟨rfl, rfl, rfl⟩⟩
    · rcases List.mem_pair.mp hr with rfl | rfl
      · rw [hshape.schnorr2] at hkind
        exact absurd hkind (by decide)
      · exact ⟨_, ResponseKeys.get_put_self _ _ _, ElGamalKey.equals_iff.mpr ⟨rfl, rfl, rfl⟩⟩
  · refine ⟨k.getPublicKeys, ?_, hvalue⟩
    rw [schnorrKey, List.find?_cons_of_pos (by rw [hshape.schnorr1]; rfl), Option.bind_some, hget1]
  · obtain ⟨M, w, hM, hw, hwk⟩ := hopen.plain
    obtain rfl : (n : ℤ) = M := Except.ok.inj (hn.symm.trans hM)
    exact ⟨nonce, w, by rw [ht.p, modPow_eq ht.g, mod_eq, hopen.u], hw,
      by rw [ht.p, modPow_eq ht.publicKey, mod_eq, hwk]⟩
  · refine (firstIdentity_eq ?_).trans hvalue
    exact hget1
  · refine firstIdentity_eq ?_
    exact hget2

theorem opening_shift {q : ℕ} [Fact q.Prime] {t : ElGamalKey} {res : ResEncrypt} {nonce M : ℤ}
    (ho : Opening q t res nonce) (hM : ofBytes res.M = .ok M) (h1 : 1 < M) (h0 : 0 ≤ res.v)
    (hd : M ∣ res.v) : Opening q t ⟨res.u, res.v + 1, res.M⟩ nonce := by
  obtain ⟨M', w, hM', hw, hwk⟩ := ho.plain
  obtain rfl : M = M' := Except.ok.inj (hM.symm.trans hM')
  refine ⟨ho.u, M, w, hM, ?_, hwk⟩
  have hquot : (res.v + 1).tdiv M = res.v.tdiv M := by
    rw [Int.tdiv_eq_ediv_of_nonneg h0, Int.tdiv_eq_ediv_of_nonneg (by omega),
      Int.add_ediv_of_dvd_left hd, Int.ediv_eq_zero_of_lt (by decide) h1, add_zero]
  rw [← hw, divide, divide, hquot]

theorem sampleMask_inv [Fact sampleTrent.keys.p.toNat.Prime] {z : ℕ}
    (hz : ((sampleTrent.keys.publicKey : ZMod sampleTrent.keys.p.toNat) ^ (7 : ℤ))⁻¹.val = z) :
    256 ^ 125 ≤ z ∧ z + 256 ^ 125 ≤ sampleTrent.keys.p.toNat := by
  have ht := (sampleTrent_registered (x := 1000) (by decide +kernel)).trent.publicOver
  have hmod : modPow sampleTrent.keys.publicKey (-7) sampleTrent.keys.p = .ok (z : ℤ) := by
    have hp : sampleTrent.keys.p = ((sampleTrent.keys.p.toNat : ℕ) : ℤ) := ht.p
    rw [hp, modPow_eq ht.publicKey, zpow_neg, hz]
  have hrun : (modPow sampleTrent.keys.publicKey (-7) sampleTrent.keys.p).toOption.all
      (fun z => decide (256 ^ 125 ≤ z ∧ z + 256 ^ 125 ≤ sampleTrent.keys.p)) = true := by
    decide +kernel
  rw [hmod, Except.toOption, Option.all_some, decide_eq_true_eq] at hrun
  omega

theorem sampleShifted_decryption {x : ℤ} {n : ℕ} [Fact sampleTrent.keys.p.toNat.Prime]
    (hx : KeyOver sampleTrent.keys.p.toNat sampleTrent.keys x) {u v : ℤ} {data : List UInt8}
    (ho : Opening sampleTrent.keys.p.toNat sampleTrent.keys ⟨u, v + 1, data⟩ 7)
    (hn : ofBytes data = .ok (n : ℤ)) (h1 : 1 < n) (hlt : n < 256 ^ 125) (h0 : 0 ≤ v)
    (hd : (n : ℤ) ∣ v) :
    ∃ h : ℤ, sampleTrent.decryption ⟨u, v + 1, data⟩ = .ok h ∧ 256 ^ 125 ≤ h := by
  obtain ⟨M, w, hM, hw, hwk⟩ := ho.plain
  obtain rfl : (n : ℤ) = M := Except.ok.inj (hn.symm.trans hM)
  obtain ⟨z, hz⟩ : ∃ z : ℕ, ((sampleTrent.keys.publicKey : ZMod sampleTrent.keys.p.toNat)
      ^ (7 : ℤ))⁻¹.val = z := ⟨_, rfl⟩
  obtain ⟨hlow, hupp⟩ := sampleMask_inv hz
  have hrem : (v + 1).tmod n = 1 := by
    rw [Int.tmod_eq_emod_of_nonneg (by omega), Int.add_emod, Int.emod_eq_zero_of_dvd hd, zero_add,
      Int.emod_emod, Int.emod_eq_of_lt (by decide) (by omega)]
  have hval : (((n : ℤ) : ZMod sampleTrent.keys.p.toNat)).val = n := by
    rw [Int.cast_natCast, ZMod.val_cast_of_lt (by omega)]
  refine ⟨_, decryption_eq hx ho.u hw hwk, ?_⟩
  rw [show (⟨u, v + 1, data⟩ : ResEncrypt).v.tmod n = 1 from hrem, Int.cast_one, one_mul,
    ZMod.val_add, hval, hz, Nat.mod_eq_of_lt (by omega)]
  push_cast
  omega

/-- The encryption with one added to `v`: the peers accept the promise and Trent does not
open it. -/
theorem unopened_promise : ∃ (data : List UInt8) (e : ElGamalEncrypt) (o : OrClause)
    (and0 : AndClause) (M : ℤ),
    getIdentificationData (sampleKey 1000) = .ok data ∧
    encryptForContract sampleTrent.keys data 7 = .ok e ∧
    PCS.createPcs sha256 (sampleKey 1000) sampleTrent.keys.getPublicKeys ⟨e.u, e.v + 1, data⟩ 7
      (getBytes "contract") (sampleKey 1001) ⟨1, 2, 3, 4, 5, 6⟩ = .ok o ∧
    sampleTrent.PeersAccept o (getBytes "contract") and0 M ∧
    ¬ sampleTrent.verifiesRes o (sampleKey 1000).publicKey = .ok true := by
  have hreg := sampleTrent_registered (x := 1000) (by decide +kernel)
  have : Fact sampleTrent.keys.p.toNat.Prime := ⟨hreg.trent.prime⟩
  obtain ⟨x, hx⟩ := hreg.trent.keyOver (sampleKey_owned 1002)
  obtain ⟨data, e, hdata, he, hid, hopen, -⟩ := hreg.encrypt 7
  obtain ⟨power, M, hpower, hM, hv⟩ := encrypt_v he
  obtain ⟨data', n, hdata', hn, -, -, hlow, hupp⟩ := identification hreg.digits
  obtain rfl : data' = data := Except.ok.inj (hdata'.symm.trans hdata)
  obtain rfl : (n : ℤ) = M := Except.ok.inj (hn.symm.trans hM)
  have h1 : 1 < (n : ℤ) := by
    have hpow : 1 < 48 * 256 ^ 124 := by norm_num
    omega
  have hpower0 : 0 ≤ power := by
    rw [hx.publicOver.p, modPow_eq hx.publicOver.publicKey, Except.ok.injEq] at hpower
    rw [← hpower]
    exact Int.natCast_nonneg _
  have hdvd : (n : ℤ) ∣ e.v := ⟨power, by rw [hv, mul_comm]⟩
  have hopen' : Opening sampleTrent.keys.p.toNat sampleTrent.keys ⟨e.u, e.v + 1, data'⟩ 7 :=
    opening_shift hopen hM h1 (by rw [ElGamalEncrypt.resEncrypt, hv]; positivity) hdvd
  obtain ⟨o, and0, and1, M', ho, hands, hres0, hres1, haccept, hfirst0, hfirst1⟩ :=
    createPcs_peersAccept hreg (sampleKey_owned 1000) (sampleKey_valid 1001).of_getPublicKeys
      hopen' ⟨hid.plain, hid.value⟩ (getBytes "contract") ⟨1, 2, 3, 4, 5, 6⟩
  obtain rfl : (n : ℤ) = M' := by
    have hplain := haccept.plain
    rw [hres0] at hplain
    exact Except.ok.inj (hM.symm.trans hplain)
  refine ⟨data', e, o, and0, n, hdata, he, ho, haccept, ?_⟩
  rw [verifiesRes_eq_true haccept.first]
  rintro ⟨-, hopen | ⟨and, hand, i, hi, hopens⟩⟩
  · rw [opens_iff hfirst0, haccept.decryption_iff hreg.trent (sampleKey_owned 1002), hres0] at hopen
    have hone : (n : ℤ) ∣ 1 := (Int.dvd_add_right hdvd).mp hopen
    have := Int.le_of_dvd (by decide) hone
    omega
  · rw [hands, List.tail_cons, List.mem_singleton] at hand
    obtain ⟨h, hh, hle⟩ := sampleShifted_decryption hx hopen' hM (by omega) hupp
      (by rw [hv]; positivity) hdvd
    rw [hand, hres1, hh, Except.ok.injEq] at hopens
    obtain ⟨data, i', hdata, hi', -, -, -, hlt⟩ :=
      identification (k := sampleKey 1001) (by decide +kernel)
    rw [hand, hfirst1, identityValue, hdata, ok_bind, hi', Except.ok.injEq] at hi
    omega

theorem verifiesRes_sample : ∃ (o : OrClause) (and0 : AndClause) (M : ℤ),
    sampleTrent.PeersAccept o (getBytes "contract") and0 M ∧ M ∣ and0.resEncrypt.v ∧
    sampleTrent.verifiesRes o (sampleKey 1000).publicKey = .ok true := by
  have hreg := sampleTrent_registered (x := 1000) (by decide +kernel)
  have : Fact sampleTrent.keys.p.toNat.Prime := ⟨hreg.trent.prime⟩
  obtain ⟨data, e, hdata, he, hid, hopen, -⟩ := hreg.encrypt 7
  obtain ⟨power, M, -, hM, hv⟩ := encrypt_v he
  obtain ⟨o, and0, and1, M', -, hands, hres0, hres1, haccept, hfirst0, hfirst1⟩ :=
    createPcs_peersAccept hreg (sampleKey_owned 1000) (sampleKey_valid 1001).of_getPublicKeys
      hopen hid (getBytes "contract") ⟨1, 2, 3, 4, 5, 6⟩
  obtain rfl : M = M' := by
    have hplain := haccept.plain
    rw [hres0] at hplain
    exact Except.ok.inj (hM.symm.trans hplain)
  have hdvd : M ∣ and0.resEncrypt.v := by
    rw [hres0, ElGamalEncrypt.resEncrypt, hv]
    exact ⟨power, mul_comm power M⟩
  have hdecrypt := (haccept.decryption_iff hreg.trent (sampleKey_owned 1002)).mpr hdvd
  refine ⟨o, and0, M, haccept, hdvd, ?_⟩
  refine (((verifiesRes_iff hreg.trent (sampleKey_owned 1002) haccept _).1).mpr
    ⟨hdvd, ?_, Or.inl hfirst0⟩).1
  intro and hand
  rw [hands] at hand
  rcases List.mem_pair.mp hand with rfl | rfl
  · exact ⟨M, M, hfirst0, hdecrypt⟩
  · obtain ⟨data', i, hdata', hi, -⟩ := identification (k := sampleKey 1001) (by decide +kernel)
    refine ⟨i, M, ?_, by rw [hres1, ← hres0, hdecrypt]⟩
    rw [hfirst1, identityValue, hdata', ok_bind, hi]

end TrentService

end SXP.Sigma
