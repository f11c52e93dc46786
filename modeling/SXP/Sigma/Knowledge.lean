import SXP.Sigma.Promise
import SXP.Sigma.Revealer

/-!
# What a promise proves

Whoever can answer two challenges to one mask knows the exponent that the mask
hides.  For a Schnorr response this is a private key, for a response about the
ciphertext the nonce with which it was made.  A promise shares one challenge
among its responses, so two promises with the same masks, on messages with
different challenges, differ in the challenge of some response, and there the
exponent comes out (`promise_knowledge`).

An honest sender that draws the same numbers for two messages makes two such
promises.  Its private key is then a quotient of numbers that everybody sees
(`reused_draws`).
-/

namespace SXP.Sigma

open SXP.Lib SXP.Lib.Java SXP.Lib.BigInteger SXP.Lib.Text SXP.Lib.SigmaProtocol

/-! ### One response -/

/-- The plaintext divided out of the ciphertext, to the power `e`, is `base` to the power
`z`. -/
def ResEncrypt.LinksPlain {q : ℕ} [Fact q.Prime] (res : ResEncrypt) (base : ZMod q) (e z : ℤ) :
    Prop :=
  ∃ M w : ℤ, ofBytes res.M = .ok M ∧ divide res.v M = .ok w ∧ (w : ZMod q) ^ e = base ^ z

/-- What a response of the class is about: its public numbers to the power `e` are their bases
to the power `z`.  For `e = 1` the number `z` is the private key, or the nonce. -/
def ResponsesKind.Links (q : ℕ) [Fact q.Prime] (key : ElGamalKey) (res : ResEncrypt) (e z : ℤ) :
    ResponsesKind → Prop
  | .schnorr => (key.publicKey : ZMod q) ^ e = (key.g : ZMod q) ^ z
  | .cce => (res.u : ZMod q) ^ e = (key.g : ZMod q) ^ z ∧
      res.LinksPlain (key.publicKey : ZMod q) e z
  | .ccd => (key.publicKey : ZMod q) ^ e = (key.g : ZMod q) ^ z ∧
      res.LinksPlain (res.u : ZMod q) e z

structure ResponsesKind.Based (kind : ResponsesKind) (q : ℕ) (key : ElGamalKey)
    (res : ResEncrypt) : Prop where
  key : PublicOver q key
  u : kind = .ccd → (res.u : ZMod q) ≠ 0

/-- Two responses of one class with one mask, both accepted, and their challenges differ. -/
structure Responses.Rewound (r r' : Responses) (key : ElGamalKey) (res : ResEncrypt) : Prop where
  kind : r.kind = r'.kind
  masks : r.masks = r'.masks
  verifies : r.verifies (some key) res = .ok true
  verifies' : r'.verifies (some key) res = .ok true
  challenge : r.challenge ≠ r'.challenge

section

variable {q : ℕ} [Fact q.Prime] {base pub c c' r r' : ℤ} {a : Option ℤ} {res : ResEncrypt}

theorem equationHolds_links (hb : (base : ZMod q) ≠ 0)
    (h : equationHolds q base pub a c r = .ok true)
    (h' : equationHolds q base pub a c' r' = .ok true) (hc : c ≠ c') :
    (pub : ZMod q) ≠ 0 ∧ (pub : ZMod q) ^ (c - c') = (base : ZMod q) ^ (r - r') := by
  cases a with
  | none =>
    rw [equationHolds] at h
    obtain ⟨_, _, h⟩ := bind_eq_ok.mp h
    obtain ⟨_, _, h⟩ := bind_eq_ok.mp h
    exact absurd h (by simp)
  | some a =>
    have haccepts : ∀ {c r}, equationHolds q base pub (some a) c r = .ok true →
        Accepts (base : ZMod q) (pub : ZMod q) (a : ZMod q) c r := by
      intro c r h
      obtain ⟨hr, hc⟩ := exists_of_equationHolds h
      rw [equationHolds_of_exists hr hc, Except.ok.injEq, decide_eq_true_eq] at h
      exact h
    exact ⟨(ne_zero_of_accepts hb (haccepts h) (haccepts h') hc).1,
      zpow_sub_of_accepts hb (haccepts h) (haccepts h') hc⟩

theorem link_extract {y g : ZMod q} {e z : ℤ} (hy : y ≠ 0) (h : y ^ e = g ^ z)
    (hcop : IsCoprime e ((q : ℤ) - 1)) : y ^ (1 : ℤ) = g ^ extract (q - 1) e z := by
  have hone : y ^ ((q : ℤ) - 1) = 1 := by
    have hunit := unit_zpow_sub_one (Units.mk0 y hy)
    rw [← Units.val_inj, Units.val_zpow_eq_zpow_val] at hunit
    exact hunit
  rw [zpow_one]
  exact eq_zpow_extract hy hone h hcop

/-- An equation that two answers satisfy links its numbers, and gives the logarithm. -/
theorem links_of_equations (hb : (base : ZMod q) ≠ 0)
    (h : equationHolds q base pub a c r = .ok true)
    (h' : equationHolds q base pub a c' r' = .ok true) (hc : c ≠ c') :
    (pub : ZMod q) ^ (c - c') = (base : ZMod q) ^ (r - r') ∧
      (IsCoprime (c - c') ((q : ℤ) - 1) →
        (pub : ZMod q) ^ (1 : ℤ) = (base : ZMod q) ^ extract (q - 1) (c - c') (r - r')) := by
  obtain ⟨hpub, hlink⟩ := equationHolds_links hb h h' hc
  exact ⟨hlink, link_extract hpub hlink⟩

/-- The same for the equation in which the plaintext is divided out. -/
theorem links_of_plain (hb : (base : ZMod q) ≠ 0)
    (h : (do
      let M ← ofBytes res.M
      let vDivM ← divide res.v M
      equationHolds q base vDivM a c r) = .ok true)
    (h' : (do
      let M ← ofBytes res.M
      let vDivM ← divide res.v M
      equationHolds q base vDivM a c' r') = .ok true) (hc : c ≠ c') :
    res.LinksPlain (base : ZMod q) (c - c') (r - r') ∧
      (IsCoprime (c - c') ((q : ℤ) - 1) →
        res.LinksPlain (base : ZMod q) 1 (extract (q - 1) (c - c') (r - r'))) := by
  obtain ⟨M, hM, h⟩ := bind_eq_ok.mp h
  obtain ⟨w, hw, h⟩ := bind_eq_ok.mp h
  rw [hM, ok_bind, hw, ok_bind] at h'
  obtain ⟨hlink, hextract⟩ := links_of_equations hb h h' hc
  exact ⟨⟨M, w, hM, hw, hlink⟩, fun hcop => ⟨M, w, hM, hw, hextract hcop⟩⟩

end

/-- **One response**: two answers to one mask link the numbers that it is about, and give the
exponent that the prover had to know. -/
theorem Responses.Rewound.links {q : ℕ} [Fact q.Prime] {r r' : Responses} {key : ElGamalKey}
    {res : ResEncrypt} (h : r.Rewound r' key res) (hb : r.kind.Based q key res) :
    r.kind.Links q key res (r.challenge - r'.challenge) (r.response - r'.response) ∧
      (IsCoprime (r.challenge - r'.challenge) ((q : ℤ) - 1) →
        r.kind.Links q key res 1
          (extract (q - 1) (r.challenge - r'.challenge) (r.response - r'.response))) := by
  obtain ⟨kind, masks, c, z⟩ := r
  obtain ⟨kind', masks', c', z'⟩ := r'
  obtain ⟨hkind, hmasks, hv, hv', hc⟩ := h
  dsimp only at hkind hmasks hc
  subst hkind hmasks
  have hp := hb.key.p
  rw [Responses.verifies, nonNull_some, ok_bind] at hv hv'
  cases kind with
  | schnorr =>
    simp only [Responses.schnorrVerifies, hp] at hv hv'
    exact links_of_equations hb.key.g hv hv' hc
  | cce =>
    simp only [Responses.cceVerifies, hp, andThen_eq_true] at hv hv'
    obtain ⟨hlink, hextract⟩ := links_of_equations hb.key.g hv.1 hv'.1 hc
    obtain ⟨hplain, hplain'⟩ := links_of_plain hb.key.publicKey hv.2 hv'.2 hc
    exact ⟨⟨hlink, hplain⟩, fun hcop => ⟨hextract hcop, hplain' hcop⟩⟩
  | ccd =>
    simp only [Responses.ccdVerifies, hp, andThen_eq_true] at hv hv'
    obtain ⟨hlink, hextract⟩ := links_of_equations hb.key.g hv.1 hv'.1 hc
    obtain ⟨hplain, hplain'⟩ := links_of_plain (hb.u rfl) hv.2 hv'.2 hc
    exact ⟨⟨hlink, hplain⟩, fun hcop => ⟨hextract hcop, hplain' hcop⟩⟩

/-! ### A promise -/

/-- Two promises with the same masks: each response has its class, its mask and its key in
both, and each clause its ciphertext. -/
structure OrClause.SameMasks (o o' : OrClause) : Prop where
  a : o.a = o'.a
  ands : List.Forall₂ (fun and and' : AndClause => and.resEncrypt = and'.resEncrypt ∧
    List.Forall₂ (fun r r' : Responses => r.kind = r'.kind ∧ r.masks = r'.masks ∧
      and.rK.get r = and'.rK.get r') and.responses and'.responses) o.ands o'.ands

/-- Every response is checked under a key over a prime. -/
def OrClause.Based (o : OrClause) : Prop :=
  ∀ and ∈ o.ands, ∀ r ∈ and.responses, ∀ key, and.rK.get r = some key →
    ∃ q : ℕ, q.Prime ∧ r.kind.Based q key and.resEncrypt

/-- Where two lists come to different lists, some of their elements do. -/
theorem exists_of_flatMap_ne {α β γ : Type*} {R : α → β → Prop} {f : α → List γ} {f' : β → List γ}
    {l : List α} {l' : List β} (h : List.Forall₂ R l l') (hne : l.flatMap f ≠ l'.flatMap f') :
    ∃ x ∈ l, ∃ y ∈ l', R x y ∧ f x ≠ f' y := by
  induction h with
  | nil => exact absurd rfl hne
  | @cons x y l l' hxy _ ih =>
    by_cases hf : f x = f' y
    · rw [List.flatMap_cons, List.flatMap_cons, hf] at hne
      obtain ⟨x', hx', y', hy', h⟩ := ih fun h => hne (congrArg _ h)
      exact ⟨x', List.mem_cons_of_mem x hx', y', List.mem_cons_of_mem y hy', h⟩
    · exact ⟨x, List.mem_cons_self, y, List.mem_cons_self, hxy, hf⟩

theorem AndClause.verifies_of_mem {hash : List UInt8 → Digest} {and : AndClause} {or : Bool}
    (h : and.verifies hash or = .ok true) {r : Responses} (hr : r ∈ and.responses) :
    ∃ key, and.rK.get r = some key ∧ r.verifies (some key) and.resEncrypt = .ok true := by
  rw [AndClause.verifies, all_eq_true] at h
  have hv := (andThen_eq_true.mp (h r hr)).2
  cases hkey : and.rK.get r with
  | none =>
    rw [hkey, Responses.verifies, nonNull_none, error_bind] at hv
    exact absurd hv (by simp)
  | some key => exact ⟨key, rfl, hkey ▸ hv⟩

/-- **Two promises with the same masks** have a response that is rewound. -/
theorem OrClause.SameMasks.rewound {hash : List UInt8 → Digest} {o o' : OrClause}
    (hsame : o.SameMasks o') {m m' : List UInt8} (h : o.verifies hash m = .ok true)
    (h' : o'.verifies hash m' = .ok true)
    (hne : sendChallenge hash m o.a ≠ sendChallenge hash m' o.a) :
    ∃ and ∈ o.ands, ∃ r ∈ and.responses, ∃ and' ∈ o'.ands, ∃ r' ∈ and'.responses, ∃ key,
      and.rK.get r = some key ∧ r.Rewound r' key and.resEncrypt := by
  obtain ⟨hands, hm⟩ := (OrClause.verifies_iff hash).mp h
  obtain ⟨hands', hm'⟩ := (OrClause.verifies_iff hash).mp h'
  have hchallenges : o.challenges ≠ o'.challenges := by
    intro heq
    rw [verifiesChallenges, beq_iff_eq] at hm hm'
    rw [← heq, ← hsame.a] at hm'
    exact hne (hm.symm.trans hm')
  obtain ⟨and, hand, and', hand', ⟨hres, hresponses⟩, hdiffer⟩ :=
    exists_of_flatMap_ne hsame.ands hchallenges
  rw [List.map_eq_flatMap, List.map_eq_flatMap] at hdiffer
  obtain ⟨r, hr, r', hr', ⟨hkind, hmasks, hkeys⟩, hc⟩ := exists_of_flatMap_ne hresponses hdiffer
  obtain ⟨key, hkey, hv⟩ := AndClause.verifies_of_mem (hands and hand) hr
  obtain ⟨key', hkey', hv'⟩ := AndClause.verifies_of_mem (hands' and' hand') hr'
  rw [hkey, hkey', Option.some.injEq] at hkeys
  subst hkeys
  exact ⟨and, hand, r, hr, and', hand', r', hr', key, hkey, hkind, hmasks, hv, hres ▸ hv',
    fun heq => hc (congrArg (fun c => [c]) heq)⟩

/-- **Promises prove knowledge**: two promises with the same masks, accepted on messages with
different challenges, give for one of their responses the exponent that it is about, a
private key or the nonce of the ciphertext, as soon as the difference of its two challenges
has an inverse. -/
theorem promise_knowledge {hash : List UInt8 → Digest} {o o' : OrClause} (hsame : o.SameMasks o')
    (hbased : o.Based) {m m' : List UInt8} (h : o.verifies hash m = .ok true)
    (h' : o'.verifies hash m' = .ok true)
    (hne : sendChallenge hash m o.a ≠ sendChallenge hash m' o.a) :
    ∃ and ∈ o.ands, ∃ r ∈ and.responses, ∃ and' ∈ o'.ands, ∃ r' ∈ and'.responses,
      ∃ (key : ElGamalKey) (q : ℕ) (_ : Fact q.Prime), and.rK.get r = some key ∧ key.p = q ∧
        r.challenge ≠ r'.challenge ∧
        r.kind.Links q key and.resEncrypt (r.challenge - r'.challenge) (r.response - r'.response) ∧
        (IsCoprime (r.challenge - r'.challenge) ((q : ℤ) - 1) →
          r.kind.Links q key and.resEncrypt 1
            (extract (q - 1) (r.challenge - r'.challenge) (r.response - r'.response))) := by
  obtain ⟨and, hand, r, hr, and', hand', r', hr', key, hkey, hrewound⟩ :=
    hsame.rewound h h' hne
  obtain ⟨q, hq, hb⟩ := hbased and hand r hr key hkey
  have : Fact q.Prime := ⟨hq⟩
  exact ⟨and, hand, r, hr, and', hand', r', hr', key, q, ⟨hq⟩, hkey, hb.key.p, hrewound.challenge,
    hrewound.links hb⟩

/-! ### The same draws for two messages -/

/-- What the responses of one sender to two challenges differ in. -/
theorem respond_sub (w s c c' : ℤ) : respond w s c - respond w s c' = w * (c - c') := by
  rw [respond, respond]
  ring

theorem clause_get {r r' : Responses} (hr : r.kind = .schnorr) (hr' : r'.kind = .cce)
    (k t : ElGamalKey) :
    ((ResponseKeys.put [] r k).put r' t).get r = some k ∧
      ((ResponseKeys.put [] r k).put r' t).get r' = some t := by
  have hne : r ≠ r' := by
    intro he
    rw [he, hr'] at hr
    exact absurd hr (by decide)
  exact ⟨by rw [ResponseKeys.get_put_ne _ t hne, ResponseKeys.get_put_self],
    ResponseKeys.get_put_self _ r' t⟩

section

variable {hash : List UInt8 → Digest} {k k' t : ElGamalKey} {res : ResEncrypt} {nonce : ℤ}
variable {d : PCS.Draws} {o o' : OrClause} {m m' : List UInt8}

/-- Two promises of one shape have the same masks when their responses have. -/
theorem OrClause.Shape.sameMasks {s1 c1 s2 c2 s1' c1' s2' c2' : Responses}
    (h : o.Shape k k' t res s1 c1 s2 c2) (h' : o'.Shape k k' t res s1' c1' s2' c2')
    (ha : o.a = o'.a) (hs1 : s1.masks = s1'.masks) (hc1 : c1.masks = c1'.masks)
    (hs2 : s2.masks = s2'.masks) (hc2 : c2.masks = c2'.masks) : o.SameMasks o' := by
  have hclause : ∀ {s c s' c' : Responses} (key : ElGamalKey), s.kind = .schnorr →
      c.kind = .cce → s'.kind = .schnorr → c'.kind = .cce → s.masks = s'.masks →
      c.masks = c'.masks → List.Forall₂ (fun r r' : Responses => r.kind = r'.kind ∧
        r.masks = r'.masks ∧ ((ResponseKeys.put [] s key).put c t).get r =
          ((ResponseKeys.put [] s' key).put c' t).get r') [s, c] [s', c'] := by
    intro s c s' c' key hs hc hs' hc' hsm hcm
    obtain ⟨hkey, htrent⟩ := clause_get hs hc key t
    obtain ⟨hkey', htrent'⟩ := clause_get hs' hc' key t
    exact .cons ⟨hs.trans hs'.symm, hsm, hkey.trans hkey'.symm⟩
      (.cons ⟨hc.trans hc'.symm, hcm, htrent.trans htrent'.symm⟩ .nil)
  refine ⟨ha, ?_⟩
  rw [h.ands, h'.ands]
  exact .cons ⟨rfl, hclause _ h.schnorr1 h.cce1 h'.schnorr1 h'.cce1 hs1 hc1⟩
    (.cons ⟨rfl, hclause _ h.schnorr2 h.cce2 h'.schnorr2 h'.cce2 hs2 hc2⟩ .nil)

theorem createPcs_reused (h : PCS.createPcs hash k t res nonce m k' d = .ok o)
    (h' : PCS.createPcs hash k t res nonce m' k' d = .ok o') :
    o.SameMasks o' ∧ ∃ s1 c1 s2 c2 s1' c1' s2' c2' x, o.Shape k k' t res s1 c1 s2 c2 ∧
      o'.Shape k k' t res s1' c1' s2' c2' ∧ k.privateKey = some x ∧
      s1.response - s1'.response = x * (s1.challenge - s1'.challenge) ∧
      c1.response - c1'.response = nonce * (c1.challenge - c1'.challenge) := by
  unfold PCS.createPcs at h h'
  obtain ⟨s2, hs2, h⟩ := bind_eq_ok.mp h
  obtain ⟨c2, hc2, h⟩ := bind_eq_ok.mp h
  obtain ⟨c1, hc1, h⟩ := bind_eq_ok.mp h
  obtain ⟨mask, hmask, h⟩ := bind_eq_ok.mp h
  obtain ⟨s1, hs1, h⟩ := bind_eq_ok.mp h
  rw [hs2, ok_bind, hc2, ok_bind] at h'
  obtain ⟨c1', hc1', h'⟩ := bind_eq_ok.mp h'
  rw [hmask, ok_bind] at h'
  obtain ⟨s1', hs1', h'⟩ := bind_eq_ok.mp h'
  obtain ⟨_, -, hs2⟩ := bind_eq_ok.mp hs2
  obtain ⟨_, -, hc2⟩ := bind_eq_ok.mp hc2
  -- the masks of the proved responses are made before the challenges
  obtain ⟨x, hx, hs1⟩ := bind_eq_ok.mp hs1
  rw [Sender.sendResponseSchnorr, hx, ok_bind] at hs1'
  obtain ⟨maskC, hmaskC, hc1⟩ := bind_eq_ok.mp hc1
  rw [Sender.sendResponseCCE, hmaskC, ok_bind] at hc1'
  have hshape : o.Shape k k' t res s1 c1 s2 c2 := by
    refine ⟨?_, ?_, ?_, ?_, by rw [← Except.ok.inj h]⟩
    · rw [← Except.ok.inj hs1]
    · rw [← Except.ok.inj hc1]
    · rw [← Except.ok.inj hs2]
    · rw [← Except.ok.inj hc2]
  have hshape' : o'.Shape k k' t res s1' c1' s2 c2 := by
    refine ⟨?_, ?_, hshape.schnorr2, hshape.cce2, by rw [← Except.ok.inj h']⟩
    · rw [← Except.ok.inj hs1']
    · rw [← Except.ok.inj hc1']
  obtain rfl := Except.ok.inj hs1
  obtain rfl := Except.ok.inj hs1'
  obtain rfl := Except.ok.inj hc1
  obtain rfl := Except.ok.inj hc1'
  have ha : o.a = o'.a := by rw [← Except.ok.inj h, ← Except.ok.inj h']
  exact ⟨hshape.sameMasks hshape' ha rfl rfl rfl rfl, _, _, _, _, _, _, _, _, x, hshape, hshape',
    nonNull_eq_ok.mp hx, respond_sub x _ _ _, respond_sub nonce _ _ _⟩

theorem getPcs_reused (h : PCS.getPcs hash k t m k' nonce d = .ok o)
    (h' : PCS.getPcs hash k t m' k' nonce d = .ok o') :
    ∃ res, PCS.createPcs hash k t res nonce m k' d = .ok o ∧
      PCS.createPcs hash k t res nonce m' k' d = .ok o' := by
  unfold PCS.getPcs at h h'
  obtain ⟨b, hb, h⟩ := bind_eq_ok.mp h
  obtain ⟨e, he, h⟩ := bind_eq_ok.mp h
  rw [hb, ok_bind, he, ok_bind] at h'
  exact ⟨_, h, h'⟩

/-- **A sender that draws the same numbers twice** makes promises with the same masks, and its
private key and the nonce are quotients of what everybody sees. -/
theorem reused_draws (h : PCS.getPcs hash k t m k' nonce d = .ok o)
    (h' : PCS.getPcs hash k t m' k' nonce d = .ok o') :
    o.SameMasks o' ∧ ∃ res s1 c1 s2 c2 s1' c1' s2' c2' x, o.Shape k k' t res s1 c1 s2 c2 ∧
      o'.Shape k k' t res s1' c1' s2' c2' ∧ k.privateKey = some x ∧
      s1.response - s1'.response = x * (s1.challenge - s1'.challenge) ∧
      c1.response - c1'.response = nonce * (c1.challenge - c1'.challenge) := by
  obtain ⟨res, hcreated, hcreated'⟩ := getPcs_reused h h'
  obtain ⟨hsame, hreused⟩ := createPcs_reused hcreated hcreated'
  exact ⟨hsame, res, hreused⟩

/-- A promise among valid keys is checked under keys over primes. -/
theorem OrClause.Shape.based {s1 c1 s2 c2 : Responses} (h : o.Shape k k' t res s1 c1 s2 c2)
    (hk : k.Valid) (hk' : k'.Valid) (ht : t.Valid) : o.Based := by
  have hvalid : ∀ {key : ElGamalKey}, key.Valid → ∀ {kind : ResponsesKind}, kind ≠ .ccd →
      ∃ q : ℕ, q.Prime ∧ kind.Based q key res := by
    intro key hkey kind hkind
    have : Fact key.p.toNat.Prime := ⟨hkey.prime⟩
    exact ⟨key.p.toNat, hkey.prime, hkey.publicOver, fun h => absurd h hkind⟩
  have hclause : ∀ {s c : Responses} (key : ElGamalKey), key.Valid → s.kind = .schnorr →
      c.kind = .cce → ∀ r ∈ [s, c], ∀ key', ((ResponseKeys.put [] s key).put c t).get r = some key' →
        ∃ q : ℕ, q.Prime ∧ r.kind.Based q key' res := by
    intro s c key hkey hs hc r hr key' hget
    obtain ⟨hgets, hgetc⟩ := clause_get hs hc key t
    rcases List.mem_pair.mp hr with rfl | rfl
    · rw [hgets, Option.some.injEq] at hget
      exact hget ▸ hvalid hkey (by rw [hs]; decide)
    · rw [hgetc, Option.some.injEq] at hget
      exact hget ▸ hvalid ht (by rw [hc]; decide)
  intro and hand
  rw [h.ands] at hand
  rcases List.mem_pair.mp hand with rfl | rfl
  · exact hclause _ hk.getPublicKeys h.schnorr1 h.cce1
  · exact hclause _ hk' h.schnorr2 h.cce2

/-- What is hashed with the message is the mask of the sender's own proof. -/
theorem getPcs_a (h : PCS.getPcs hash k t m k' nonce d = .ok o) :
    modPow k.g d.sSchnorr1 k.p = .ok o.a := by
  unfold PCS.getPcs PCS.createPcs at h
  obtain ⟨_, -, h⟩ := bind_eq_ok.mp h
  obtain ⟨_, -, h⟩ := bind_eq_ok.mp h
  obtain ⟨_, -, h⟩ := bind_eq_ok.mp h
  obtain ⟨_, -, h⟩ := bind_eq_ok.mp h
  obtain ⟨_, -, h⟩ := bind_eq_ok.mp h
  obtain ⟨mask, hmask, h⟩ := bind_eq_ok.mp h
  obtain ⟨_, -, h⟩ := bind_eq_ok.mp h
  obtain ⟨a, ha, hmask⟩ := bind_eq_ok.mp hmask
  rw [ha, ← Except.ok.inj h, ← Except.ok.inj hmask]

end

def reusedPromise (m : List UInt8) : Java OrClause :=
  PCS.getPcs sha256 (sampleKey 1000) (sampleKey 1002).getPublicKeys m
    (sampleKey 1001).getPublicKeys 7 ⟨1, 2, 3, 4, 5, 6⟩

theorem reusedPromise_verifies (m : List UInt8) :
    ∃ o, reusedPromise m = .ok o ∧ o.verifies sha256 m = .ok true := by
  have hreg := sampleKey_registered (x := 1000) 1002 (by decide +kernel)
  have : Fact (sampleKey 1002).getPublicKeys.p.toNat.Prime := ⟨hreg.trent.prime⟩
  obtain ⟨o, res, ho, hpromise, -⟩ := getPcs_isPromise sha256 hreg (sampleKey_owned 1000)
    (sampleKey_valid 1001) m 7 ⟨1, 2, 3, 4, 5, 6⟩
  exact ⟨o, ho, hpromise.verifies⟩

theorem reused_draws_sample : ∃ (o o' : OrClause) (res : ResEncrypt)
    (s1 c1 s2 c2 s1' c1' s2' c2' : Responses),
    reusedPromise (getBytes "contract") = .ok o ∧ reusedPromise (getBytes "agreement") = .ok o' ∧
    o.SameMasks o' ∧
    o.Shape (sampleKey 1000) (sampleKey 1001).getPublicKeys (sampleKey 1002).getPublicKeys res
      s1 c1 s2 c2 ∧
    o'.Shape (sampleKey 1000) (sampleKey 1001).getPublicKeys (sampleKey 1002).getPublicKeys res
      s1' c1' s2' c2' ∧
    s1.response - s1'.response = 1000 * (s1.challenge - s1'.challenge) := by
  obtain ⟨o, ho, -⟩ := reusedPromise_verifies (getBytes "contract")
  obtain ⟨o', ho', -⟩ := reusedPromise_verifies (getBytes "agreement")
  obtain ⟨hsame, res, s1, c1, s2, c2, s1', c1', s2', c2', x, hshape, hshape', hx, hs1, -⟩ :=
    reused_draws ho ho'
  obtain rfl : (1000 : ℤ) = x := Option.some.inj hx
  exact ⟨o, o', res, s1, c1, s2, c2, s1', c1', s2', c2', ho, ho', hsame, hshape, hshape', hs1⟩

theorem promise_knowledge_sample : ∃ o o' : OrClause,
    reusedPromise (getBytes "contract") = .ok o ∧ reusedPromise (getBytes "agreement") = .ok o' ∧
    ∃ and ∈ o.ands, ∃ r ∈ and.responses, ∃ and' ∈ o'.ands, ∃ r' ∈ and'.responses,
      ∃ (key : ElGamalKey) (q : ℕ) (_ : Fact q.Prime), and.rK.get r = some key ∧ key.p = q ∧
        r.challenge ≠ r'.challenge ∧
        r.kind.Links q key and.resEncrypt (r.challenge - r'.challenge)
          (r.response - r'.response) := by
  obtain ⟨o, ho, hv⟩ := reusedPromise_verifies (getBytes "contract")
  obtain ⟨o', ho', hv'⟩ := reusedPromise_verifies (getBytes "agreement")
  obtain ⟨res, hcreated, hcreated'⟩ := getPcs_reused ho ho'
  obtain ⟨hsame, s1, c1, s2, c2, s1', c1', s2', c2', x, hshape, -⟩ :=
    createPcs_reused hcreated hcreated'
  have hreg := sampleKey_registered (x := 1000) 1002 (by decide +kernel)
  have ha : o.a = 46656 := by
    have hpow : modPow 6 6 samplePrime = .ok 46656 := by decide +kernel
    exact Except.ok.inj ((getPcs_a ho).symm.trans hpow)
  have hne : sendChallenge sha256 (getBytes "contract") o.a ≠
      sendChallenge sha256 (getBytes "agreement") o.a := by
    rw [ha, sendChallenge_getBytes sha256 "contract" (by decide),
      sendChallenge_getBytes sha256 "agreement" (by decide)]
    decide +kernel
  obtain ⟨and, hand, r, hr, and', hand', r', hr', key, q, hq, hkey, hp, hc, hlinks, -⟩ :=
    promise_knowledge hsame (hshape.based hreg.party (sampleKey_valid 1001) hreg.trent) hv hv' hne
  exact ⟨o, o', ho, ho', and, hand, r, hr, and', hand', r', hr', key, q, hq, hkey, hp, hc, hlinks⟩

end SXP.Sigma
