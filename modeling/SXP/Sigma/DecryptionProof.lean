import SXP.Sigma.TrentSolver

/-!
# Trent's proof that he has decrypted

Trent answers a challenge that he derives from an array of bytes, and who has the array derives it
again.  The derivation prints the array, and what an array prints as is the identity of the object:
so the proof is accepted with the array that Trent had, and with a copy of it only by chance
(`verifies_copy_iff`).
-/

namespace SXP.Sigma

open SXP.Lib SXP.Lib.Java SXP.Lib.BigInteger SXP.Lib.Text SXP.Lib.SigmaProtocol

/-! ### Arrays -/

/-- An array as an object: `ref` is its identity. -/
structure ByteArrayObject where
  ref : ℕ
  bytes : List UInt8

namespace ByteArrayObject

/-- `toString` of an array, with the hash code that the platform gives to an object. -/
def toString (identityHashCode : ℕ → ℕ) (c : ByteArrayObject) : String :=
  "[B@" ++ String.ofList (Nat.toDigits 16 (identityHashCode c.ref))

abbrev Copy (c : ByteArrayObject) : Type := {c' : ByteArrayObject // c'.bytes = c.bytes}

end ByteArrayObject

/-- `Verifies` with a message: the challenge is derived again. -/
def Responses.ccdVerifiesMessage (hash : List UInt8 → Digest) (r : Responses) (tKeys : ElGamalKey)
    (res : ResEncrypt) (name : String) : Java Bool :=
  if !(r.challenge == Trent.sendChallenge hash name r.masks) then pure false
  else r.ccdVerifies tKeys res

/-! ### A key, and a block that was encrypted -/

structure TrentKey where
  p : ℕ
  prime : p.Prime
  g : ℤ
  x : ℤ
  y : ℤ
  power : modPow g x p = .ok y

namespace TrentKey

variable (T : TrentKey)

instance : Fact T.p.Prime := ⟨T.prime⟩

def keys : ElGamalKey := ⟨T.y, T.p, T.g, some T.x⟩

theorem p_pos : (0 : ℤ) < T.p := not_le.mp not_prime_le_zero

theorem power_exists : 0 ≤ T.x ∨ (T.g : ZMod T.p) ≠ 0 :=
  ((modPow_total T.p_pos).mp ⟨T.y, T.power⟩).imp_right gcd_eq_one_iff.mp

theorem y_cast : (T.y : ZMod T.p) = (T.g : ZMod T.p) ^ T.x := by
  have h := T.power
  rw [modPow_of_exists T.power_exists, Except.ok.injEq] at h
  rw [← h, Int.cast_natCast, ZMod.natCast_zmod_val]

/-- A block that `encryptForContract` takes, with the number that the engine has drawn. -/
structure Encrypted where
  data : List UInt8
  k : ℕ
  k_pos : 0 < k
  encrypt : ElGamalEncrypt
  accepted : encryptForContract T.keys data k = .ok encrypt

variable {T}

namespace Encrypted

variable (e : T.Encrypted)

def res : ResEncrypt := e.encrypt.resEncrypt e.data

def M : ℤ := signedValue e.data

theorem u_cast : (e.res.u : ZMod T.p) = (T.g : ZMod T.p) ^ (e.k : ℤ) := by
  have h := e.accepted
  rw [encryptForContract] at h
  split_ifs at h
  obtain ⟨u, hu, h⟩ := bind_eq_ok.mp h
  obtain ⟨power, -, h⟩ := bind_eq_ok.mp h
  obtain ⟨m, -, h⟩ := bind_eq_ok.mp h
  have hu' : e.res.u = u := by
    rw [res, ← Except.ok.inj h]
    rfl
  rw [keys, modPow_of_exists (Or.inl (Int.natCast_nonneg _)), Except.ok.injEq] at hu
  rw [hu', ← hu, Int.cast_natCast, ZMod.natCast_zmod_val]

theorem ofBytes_data : ofBytes e.data = .ok e.M := by
  have h := e.accepted
  rw [encryptForContract] at h
  split_ifs at h
  obtain ⟨u, -, h⟩ := bind_eq_ok.mp h
  obtain ⟨power, -, h⟩ := bind_eq_ok.mp h
  obtain ⟨m, hm, -⟩ := bind_eq_ok.mp h
  exact ofBytes_eq_ok.mpr ⟨(ofBytes_eq_ok.mp hm).1, rfl⟩

/-- What is multiplied with the number: the mask of the public key. -/
theorem v_eq : ∃ w : ℤ, e.res.v = w * e.M ∧
    (w : ZMod T.p) = ((T.g : ZMod T.p) ^ (e.k : ℤ)) ^ T.x := by
  have h := e.accepted
  rw [encryptForContract] at h
  split_ifs at h
  obtain ⟨u, -, h⟩ := bind_eq_ok.mp h
  obtain ⟨power, hpower, h⟩ := bind_eq_ok.mp h
  obtain ⟨m, hm, h⟩ := bind_eq_ok.mp h
  refine ⟨power, ?_, ?_⟩
  · rw [res, ← Except.ok.inj h, ← Except.ok.inj (hm.symm.trans e.ofBytes_data)]
    rfl
  · rw [keys, modPow_of_exists (Or.inl (Int.natCast_nonneg _)), Except.ok.injEq] at hpower
    rw [← hpower, Int.cast_natCast, ZMod.natCast_zmod_val]
    change (T.y : ZMod T.p) ^ (e.k : ℤ) = _
    rw [T.y_cast, ← zpow_mul, ← zpow_mul, mul_comm]

theorem u_ne_zero (hg : (T.g : ZMod T.p) ≠ 0) : (e.res.u : ZMod T.p) ≠ 0 := by
  rw [e.u_cast]
  exact zpow_ne_zero _ hg

end Encrypted

/-! ### One equation -/

/-- No power of zero is asked for that does not exist. -/
def Answers (T : TrentKey) (c : ℤ) : Prop := ¬ (T.p : ℤ) ∣ T.g ∨ T.x = 0 ∨ 0 ≤ c

theorem answers_iff {c : ℤ} : T.Answers c ↔ (T.g : ZMod T.p) ≠ 0 ∨ T.x = 0 ∨ 0 ≤ c := by
  rw [Answers, not_congr (ZMod.intCast_zmod_eq_zero_iff_dvd T.g T.p).symm]

/-- **An equation of Trent's proof**, for a base that is zero only if the generator is. -/
theorem equationHolds_respond {c : ℤ} (h : T.Answers c) {base pub a : ℤ}
    (hbase : (T.g : ZMod T.p) ≠ 0 → (base : ZMod T.p) ≠ 0) {s : ℕ}
    (hpub : (pub : ZMod T.p) = (base : ZMod T.p) ^ T.x)
    (ha : (a : ZMod T.p) = (base : ZMod T.p) ^ (s : ℤ)) :
    equationHolds T.p base pub (some a) c (respond T.x s c) = .ok true := by
  by_cases hg : (T.g : ZMod T.p) = 0
  · -- the exponents are not negative, or the public key is one
    have hx : T.x = 0 ∨ 0 ≤ T.x ∧ 0 ≤ c :=
      ((answers_iff.mp h).resolve_left (not_not.mpr hg)).imp_right fun hc =>
        ⟨T.power_exists.resolve_right (not_not.mpr hg), hc⟩
    have hexists : 0 ≤ respond T.x s c ∧ (0 ≤ c ∨ (pub : ZMod T.p) ≠ 0) := by
      rcases hx with hx | ⟨hx, hc⟩
      · rw [hpub, hx, zpow_zero, respond, zero_mul, zero_add]
        exact ⟨Int.natCast_nonneg s, Or.inr one_ne_zero⟩
      · refine ⟨?_, Or.inl hc⟩
        rw [respond]
        have := mul_nonneg hx hc
        omega
    rw [equationHolds_of_exists (Or.inl hexists.1) hexists.2, hpub, ha,
      decide_eq_true (accepts_respond_of_nonneg _ hx s)]
  · have hb := hbase hg
    have hp : (pub : ZMod T.p) ≠ 0 := by
      rw [hpub]
      exact zpow_ne_zero _ hb
    rw [equationHolds_of_exists (Or.inr hb) (Or.inr hp), hpub, ha,
      decide_eq_true (accepts_respond hb T.x s c)]

/-! ### The proof -/

theorem modPow_mask (b : ℤ) (s : ℕ) : modPow b s T.p = .ok (b ^ s % T.p) := by
  rw [modPow_natCast T.p_pos, powMod_size]

theorem mask_cast (b : ℤ) (s : ℕ) :
    ((b ^ s % T.p : ℤ) : ZMod T.p) = (b : ZMod T.p) ^ (s : ℤ) := by
  rw [ZMod.intCast_mod, Int.cast_pow, zpow_natCast]

variable (T) in
def challenge (hash : List UInt8 → Digest) (identityHashCode : ℕ → ℕ) (s : ℕ)
    (c : ByteArrayObject) : ℤ :=
  Trent.sendChallenge hash (c.toString identityHashCode) ⟨T.g ^ s % T.p, none⟩

def Encrypted.response (e : T.Encrypted) (s : ℕ) (c : ℤ) : Responses :=
  ⟨.ccd, ⟨T.g ^ s % T.p, some (e.res.u ^ s % T.p)⟩, c, respond T.x s c⟩

theorem sendResponse_eq (hash : List UInt8 → Digest) (identityHashCode : ℕ → ℕ) (e : T.Encrypted)
    (s : ℕ) (c : ByteArrayObject) :
    Trent.sendResponse hash T.keys e.res (c.toString identityHashCode) s =
      .ok (e.response s (T.challenge hash identityHashCode s c)) := by
  unfold Trent.sendResponse Trent.sendMasks Trent.sendAnswer keys
  dsimp only
  rw [modPow_mask, ok_bind, modPow_mask, ok_bind, pure_eq, ok_bind, nonNull_some, ok_bind, pure_eq,
    ok_bind, pure_eq]
  rfl

theorem Encrypted.ccdVerifies_eq (e : T.Encrypted) (s : ℕ) (c : ℤ) {w : ℤ}
    (hw : divide e.res.v e.M = .ok w) : (e.response s c).ccdVerifies T.keys e.res =
      andThen (equationHolds T.p T.g T.y (some (T.g ^ s % T.p)) c (respond T.x s c))
        (equationHolds T.p e.res.u w (some (e.res.u ^ s % T.p)) c (respond T.x s c)) := by
  have hM : ofBytes e.res.M = .ok e.M := e.ofBytes_data
  unfold Responses.ccdVerifies
  rw [hM, ok_bind, hw, ok_bind]
  rfl

/-- **When the equations hold.** -/
theorem Encrypted.ccdVerifies_iff (e : T.Encrypted) (s : ℕ) (c : ℤ) :
    (e.response s c).ccdVerifies T.keys e.res = .ok true ↔ e.M ≠ 0 ∧ T.Answers c := by
  constructor
  · intro h
    unfold Responses.ccdVerifies at h
    obtain ⟨hfirst, hsecond⟩ := andThen_eq_true.mp h
    constructor
    · intro hzero
      have hM : ofBytes e.res.M = .ok e.M := e.ofBytes_data
      rw [hM, ok_bind, divide, if_pos hzero] at hsecond
      exact absurd hsecond (by simp)
    · -- the power of the public key exists
      have hexists : 0 ≤ c ∨ (T.y : ZMod T.p) ≠ 0 := (exists_of_equationHolds hfirst).2
      refine answers_iff.mpr (or_iff_not_imp_left.mpr fun hg => ?_)
      rw [T.y_cast, not_not.mp hg] at hexists
      rcases hexists with hc | hne
      · exact Or.inr hc
      · exact Or.inl (by_contra fun hx => hne (zero_zpow _ hx))
  · rintro ⟨hM, hc⟩
    obtain ⟨w, hv, hw⟩ := e.v_eq
    rw [e.ccdVerifies_eq s c (by rw [hv, divide_mul_cancel w hM]), andThen_eq_true]
    constructor
    · exact equationHolds_respond hc id T.y_cast (mask_cast T.g s)
    · exact equationHolds_respond hc e.u_ne_zero (e.u_cast ▸ hw) (mask_cast e.res.u s)

theorem Encrypted.ccdVerifiesMessage_response (hash : List UInt8 → Digest)
    (identityHashCode : ℕ → ℕ) (e : T.Encrypted) (s : ℕ) (c : ℤ) (c' : ByteArrayObject) :
    (e.response s c).ccdVerifiesMessage hash T.keys e.res (c'.toString identityHashCode) =
      if !(c == T.challenge hash identityHashCode s c') then pure false
      else (e.response s c).ccdVerifies T.keys e.res := rfl

/-- **A copy of the array** is accepted when what it prints as gives the same challenge; moreover
the number that was encrypted must not be `0`. -/
theorem verifies_copy_iff (hash : List UInt8 → Digest) (identityHashCode : ℕ → ℕ) (T : TrentKey)
    (e : T.Encrypted) (s : ℕ) (c : ByteArrayObject) (c' : c.Copy) :
    (∃ response,
      Trent.sendResponse hash T.keys e.res (c.toString identityHashCode) s = .ok response ∧
      response.ccdVerifiesMessage hash T.keys e.res (c'.val.toString identityHashCode) =
        .ok true) ↔
      (T.challenge hash identityHashCode s c = T.challenge hash identityHashCode s c'.val ∧
        e.M ≠ 0) ∧ T.Answers (T.challenge hash identityHashCode s c) := by
  rw [sendResponse_eq, and_assoc, ← e.ccdVerifies_iff s]
  constructor
  · rintro ⟨response, heq, h⟩
    obtain rfl := Except.ok.inj heq
    rw [e.ccdVerifiesMessage_response] at h
    split at h
    · exact absurd h (by simp)
    · next hsame => exact ⟨by simpa using hsame, h⟩
  · rintro ⟨hsame, h⟩
    refine ⟨_, rfl, ?_⟩
    rw [e.ccdVerifiesMessage_response, if_neg (by simpa using hsame), h]

theorem verifies_same (hash : List UInt8 → Digest) (identityHashCode : ℕ → ℕ) (e : T.Encrypted)
    (s : ℕ) (c : ByteArrayObject) (hM : e.M ≠ 0) (hg : ¬ (T.p : ℤ) ∣ T.g) :
    (e.response s (T.challenge hash identityHashCode s c)).ccdVerifiesMessage hash T.keys e.res
      (c.toString identityHashCode) = .ok true := by
  have hequations := (e.ccdVerifies_iff s (T.challenge hash identityHashCode s c)).mpr
    ⟨hM, Or.inl hg⟩
  rw [e.ccdVerifiesMessage_response, if_neg (by simp), hequations]

end TrentKey

/-! ### Two arrays -/

theorem prime_small : Nat.Prime 23 := by decide

theorem power_small : modPow 5 7 (23 : ℕ) = .ok 17 := by decide

def smallTrent : TrentKey := ⟨23, prime_small, 5, 7, 17, power_small⟩

/-- The block `10`, with the number `3`. -/
def smallBlock : smallTrent.Encrypted := ⟨[10], 3, by decide, ⟨10, 140, 3⟩, by decide⟩

/-- **A copy is refused**: the second of two equal arrays prints as another object. -/
theorem verifies_small :
    Trent.sendResponse sha256 smallTrent.keys smallBlock.res
        ((⟨1, [1, 2]⟩ : ByteArrayObject).toString id) 4 =
      .ok (smallBlock.response 4 (smallTrent.challenge sha256 id 4 ⟨1, [1, 2]⟩)) ∧
    (smallBlock.response 4 (smallTrent.challenge sha256 id 4 ⟨1, [1, 2]⟩)).ccdVerifiesMessage sha256
      smallTrent.keys smallBlock.res ((⟨2, [1, 2]⟩ : ByteArrayObject).toString id) = .ok false := by
  refine ⟨TrentKey.sendResponse_eq sha256 id smallBlock 4 ⟨1, [1, 2]⟩, ?_⟩
  have hdiffer : (smallTrent.challenge sha256 id 4 ⟨1, [1, 2]⟩ ==
      smallTrent.challenge sha256 id 4 ⟨2, [1, 2]⟩) = false := by
    decide +kernel
  rw [smallBlock.ccdVerifiesMessage_response, hdiffer]
  rfl

end SXP.Sigma
