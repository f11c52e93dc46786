import SXP.Sigma.Kept
import SXP.Sigma.Promise
import SXP.Sigma.Trent

/-!
# Whose promise is stored

The listener stores a promise under the round that the message names and the
party that sent it, if the promise verifies.  The keys it is verified with come
with the promise, and nobody compares them with the keys of the contract.

`stored_keyed_iff` says for which messages the promise that is stored is one of
the sender, to this party, under the key of Trent: those whose promise has these
keys or does not verify.  As long as a cell is empty, there are messages that
put something else there.
-/

namespace SXP.Sigma

open SXP.Lib SXP.Lib.Java SXP.Lib.Text

/-- The key of the response of a clause about the encrypted identity. -/
def cceKey (and : AndClause) : Option ElGamalKey :=
  (and.responses.find? fun r => r.kind == .cce).bind and.rK.get

/-- A promise of `maker` to `receiver` that Trent can open. -/
def OrClause.Keyed (o : OrClause) (maker receiver trentK : ElGamalKey) : Prop :=
  ∃ and and' rest, o.ands = and :: and' :: rest ∧
    (∃ k, TrentService.schnorrKey and = some k ∧ k.equals maker = true) ∧
    (∃ k, TrentService.schnorrKey and' = some k ∧ k.equals receiver = true) ∧
    ∀ a ∈ [and, and'], ∃ k, cceKey a = some k ∧ k.equals trentK = true

theorem clause_keys {r r' : Responses} (k t : ElGamalKey) (res : ResEncrypt)
    (h : r.kind = .schnorr) (h' : r'.kind = .cce) :
    TrentService.schnorrKey ⟨res, (ResponseKeys.put [] r k).put r' t, [r, r']⟩ = some k ∧
      cceKey ⟨res, (ResponseKeys.put [] r k).put r' t, [r, r']⟩ = some t := by
  have hne : r ≠ r' := by
    rintro rfl
    rw [h] at h'
    exact absurd h' (by decide)
  constructor
  · rw [TrentService.schnorrKey, List.find?_cons_of_pos (by rw [h]; rfl), Option.bind_some,
      ResponseKeys.get_put_ne _ t hne, ResponseKeys.get_put_self]
  · rw [cceKey, List.find?_cons_of_neg (by rw [h]; decide),
      List.find?_cons_of_pos (by rw [h']; rfl), Option.bind_some, ResponseKeys.get_put_self]

/-- **What is made for a receiver under Trent's key has the keys**; so has nothing that is
made with another key. -/
theorem OrClause.Shape.keyed_iff {o : OrClause} {k k' t : ElGamalKey} {res : ResEncrypt}
    {s1 c1 s2 c2 : Responses} (h : o.Shape k k' t res s1 c1 s2 c2)
    (maker receiver trentK : ElGamalKey) :
    o.Keyed maker receiver trentK ↔
      k.equals maker = true ∧ k'.equals receiver = true ∧ t.equals trentK = true := by
  obtain ⟨hs1, hc1⟩ := clause_keys k.getPublicKeys t res h.schnorr1 h.cce1
  obtain ⟨hs2, hc2⟩ := clause_keys k' t res h.schnorr2 h.cce2
  constructor
  · rintro ⟨and, and', rest, hands, ⟨k₁, hk₁, hmaker⟩, ⟨k₂, hk₂, hreceiver⟩, hcce⟩
    rw [h.ands] at hands
    obtain ⟨rfl, htail⟩ := List.cons.inj hands
    obtain ⟨rfl, -⟩ := List.cons.inj htail
    obtain ⟨k₃, hk₃, htrent⟩ := hcce _ List.mem_cons_self
    rw [hs1, Option.some.injEq] at hk₁
    rw [hs2, Option.some.injEq] at hk₂
    rw [hc1, Option.some.injEq] at hk₃
    subst hk₁ hk₂ hk₃
    exact ⟨hmaker, hreceiver, htrent⟩
  · rintro ⟨hmaker, hreceiver, htrent⟩
    refine ⟨_, _, [], h.ands, ⟨_, hs1, hmaker⟩, ⟨_, hs2, hreceiver⟩, ?_⟩
    intro a ha
    rcases List.mem_pair.mp ha with rfl | rfl
    · exact ⟨t, hc1, htrent⟩
    · exact ⟨t, hc2, htrent⟩

/-- **What is made with `getPcs` has the keys that it was made with.** -/
theorem getPcs_keyed_iff {hash : List UInt8 → Digest} {k t k' : ElGamalKey} {m : List UInt8}
    {nonce : ℤ} {d : PCS.Draws} {o : OrClause} (h : PCS.getPcs hash k t m k' nonce d = .ok o)
    (maker receiver trentK : ElGamalKey) :
    o.Keyed maker receiver trentK ↔
      k.equals maker = true ∧ k'.equals receiver = true ∧ t.equals trentK = true := by
  obtain ⟨_, _, _, _, _, _, -, -, hshape⟩ := getPcs_shape h
  exact hshape.keyed_iff maker receiver trentK

/-! ### A promise of nobody -/

def looseKey (y : ℤ) : ElGamalKey := ⟨y, 2, 1, some 0⟩

def loosePromise (hash : List UInt8 → Digest) (m : List UInt8) (y : ℤ) : Java OrClause :=
  PCS.createPcs hash (looseKey y) (looseKey y) ⟨1, 1, [1]⟩ 0 m (looseKey y) ⟨0, 0, 0, 0, 0, 0⟩

theorem loosePromise_verifies (hash : List UInt8 → Digest) (m : List UInt8) {y : ℤ}
    (hy : (y : ZMod 2) = 1) : ∃ o, loosePromise hash m y = .ok o ∧ o.verifies hash m = .ok true ∧
      ∀ maker receiver trentK, o.Keyed maker receiver trentK → y = maker.publicKey := by
  have : Fact (Nat.Prime 2) := ⟨Nat.prime_two⟩
  have hpub : PublicOver 2 (looseKey y) := by
    refine ⟨rfl, ?_, ?_⟩
    · rw [looseKey, Int.cast_one]
      exact one_ne_zero
    · rw [looseKey, hy]
      exact one_ne_zero
  have hkey : KeyOver 2 (looseKey y) 0 := ⟨hpub, rfl, by rw [zpow_zero]; exact hy⟩
  have hopening : Opening 2 (looseKey y) ⟨1, 1, [1]⟩ 0 := by
    refine ⟨by rw [zpow_zero, Int.cast_one], 1, 1, by decide, by decide, ?_⟩
    rw [zpow_zero, Int.cast_one]
  obtain ⟨o, ho, hpromise⟩ := createPcs_isPromise hash hkey hpub hpub hopening m ⟨0, 0, 0, 0, 0, 0⟩
  refine ⟨o, ho, hpromise.verifies, ?_⟩
  intro maker receiver trentK hkeyed
  obtain ⟨_, _, _, _, hshape⟩ := createPcs_shape ho
  obtain ⟨hmaker, -, -⟩ := (hshape.keyed_iff maker receiver trentK).mp hkeyed
  exact (ElGamalKey.equals_iff.mp hmaker).2.2

/-! ### What the listener stores -/

namespace Party

variable {P : Platform} {p : Party} {message : SignMessage} {pubK k : ℤ} {i : ℕ} {o : OrClause}

/-- The cell was empty before the call and has the promise after it. -/
def Stores (P : Platform) (p : Party) (message : SignMessage) (pubK k : ℤ) (i : ℕ)
    (o : OrClause) : Prop :=
  p.roundReceived k i = none ∧
    ((ProtocolSign.verifyAndStoreSignature P message pubK).exec p).2.roundReceived k i = some o

/-- A message of another party has a promise for this one, of a round that has none yet. -/
structure Delivers (p : Party) (message : SignMessage) (pubK k : ℤ) (i : ℕ) (o : OrClause) :
    Prop where
  sender : p.indexOf pubK = .ok i
  other : pubK ≠ p.key.publicKey
  round : message.round = .ok k
  range : 0 ≤ k ∧ k < p.N + 2
  promise : message.promise p.key.publicKey = .ok (some o)
  empty : p.roundReceived k i = none

theorem receiveSignature_promises (P : Platform) (p : Party) (i : ℕ) (message : SignMessage) :
    ((ProtocolSign.receiveSignature P i message).exec p).2.roundReceived = p.roundReceived :=
  Adding.receiveSignature (R := fun p p' => p'.roundReceived = p.roundReceived)
    { refl := fun _ => rfl
      trans := fun _ _ _ h h' => h'.trans h
      signature := fun _ _ _ => rfl
      finalized := fun _ => rfl
      deaf := fun _ => rfl } i message p

theorem receivePromise_promises {i' : ℕ} {k' : ℤ} (hnone : p.roundReceived k i = none)
    (h : ((ProtocolSign.receivePromise P i' k' message).exec p).2.roundReceived k i = some o) :
    (k' = k ∧ i' = i) ∧ (0 ≤ k ∧ k < p.N + 2) ∧ message.promise p.key.publicKey = .ok (some o) ∧
      o.verifies P.hash (p.contract.roundData k) = .ok true := by
  have hsame : p.roundReceived k i ≠ some o := by
    rw [hnone]
    exact (Option.some_ne_none o).symm
  rcases receivePromise_state (P := P) p i' k' message with hp | ⟨o', hrange, -, hm, hv, hp⟩
  · rw [hp] at h
    exact absurd h hsame
  · rw [hp] at h
    dsimp only [setPromise] at h
    split at h
    · rename_i hki
      obtain ⟨rfl, rfl⟩ := hki
      obtain rfl := Option.some.inj h
      exact ⟨⟨rfl, rfl⟩, hrange, hm, hv⟩
    · exact absurd h hsame

/-- **A promise is stored when a message brings it and it verifies.** -/
theorem stores_iff : Stores P p message pubK k i o ↔
    Delivers p message pubK k i o ∧ o.verifies P.hash (p.contract.roundData k) = .ok true := by
  constructor
  · rintro ⟨hnone, h⟩
    have hsame : p.roundReceived k i ≠ some o := by
      rw [hnone]
      exact (Option.some_ne_none o).symm
    rcases hi : p.indexOf pubK with e | i'
    · unfold ProtocolSign.verifyAndStoreSignature at h
      rw [Act.exec_get_bind, hi, Act.exec_error_bind] at h
      exact absurd h hsame
    · rcases hk : message.round with e | k'
      · unfold ProtocolSign.verifyAndStoreSignature at h
        rw [Act.exec_get_bind, hi, Act.exec_ok_bind, hk, Act.exec_error_bind] at h
        exact absurd h hsame
      · by_cases hown : pubK = p.key.publicKey
        · unfold ProtocolSign.verifyAndStoreSignature at h
          rw [Act.exec_get_bind, hi, Act.exec_ok_bind, hk, Act.exec_ok_bind, if_pos hown] at h
          exact absurd h hsame
        · rw [exec_verifyAndStore hi hk hown] at h
          split at h
          · rw [receiveSignature_promises] at h
            exact absurd h hsame
          · obtain ⟨⟨rfl, rfl⟩, hrange, hpromise, hv⟩ := receivePromise_promises hnone h
            exact ⟨⟨hi, hown, hk, hrange, hpromise, hnone⟩, hv⟩
  · rintro ⟨h, hv⟩
    refine ⟨h.empty, ?_⟩
    rw [exec_verifyAndStore h.sender h.round h.other, if_neg (by have := h.range; omega),
      exec_receivePromise h.range h.promise hv, h.empty]
    exact if_pos ⟨rfl, rfl⟩

/-- The promise of a cell is the one of its party to this party. -/
def Rightful (p : Party) (i : ℕ) (o : OrClause) : Prop :=
  ∃ maker, p.contract.parties[i]? = some maker ∧ o.Keyed maker p.key p.trentK

theorem loosePromise_stored (P : Platform) {p : Party} {pubK k : ℤ} {i : ℕ} {y : ℤ}
    (hy : (y : ZMod 2) = 1) (hi : p.indexOf pubK = .ok i) (hne : pubK ≠ p.key.publicKey)
    (hk : 0 ≤ k ∧ k < p.N + 2) (hempty : p.roundReceived k i = none)
    (hmaker : ∀ maker, p.contract.parties[i]? = some maker → y ≠ maker.publicKey) :
    ∃ o, loosePromise P.hash (p.contract.roundData k) y = .ok o ∧
      Stores P p (.ofContent k [(p.key.publicKey, .promise o)]) pubK k i o ∧
      ¬ p.Rightful i o := by
  obtain ⟨o, ho, hv, hkeyed⟩ := loosePromise_verifies P.hash (p.contract.roundData k) hy
  refine ⟨o, ho, stores_iff.mpr ⟨⟨hi, hne, rfl, hk, ?_, hempty⟩, hv⟩, ?_⟩
  · simp [SignMessage.ofContent, entry]
  · rintro ⟨maker, hparty, hmade⟩
    exact hmaker maker hparty (hkeyed _ _ _ hmade)

/-- **No cell that is empty is safe from the others**: some message puts a promise there that is
not the sender's to this party.  The messages that do not are exactly those whose promise has the
three keys, does not verify or comes too late. -/
theorem stored_keyed_iff (P : Platform) :
    (∀ (p : Party) (pubK k : ℤ) (i : ℕ), p.indexOf pubK = .ok i → pubK ≠ p.key.publicKey →
      0 ≤ k ∧ k < p.N + 2 → p.roundReceived k i = none →
      ∃ message o, Stores P p message pubK k i o ∧ ¬ p.Rightful i o) ∧
    ∀ (p : Party) (message : SignMessage) (pubK : ℤ),
      (∀ k i o, Stores P p message pubK k i o → p.Rightful i o) ↔
        ∀ k i o, Delivers p message pubK k i o →
          o.verifies P.hash (p.contract.roundData k) = .ok true → p.Rightful i o := by
  constructor
  · intro p pubK k i hi hne hk hempty
    -- of the two odd numbers one is not the key of the party
    obtain ⟨y, hy, hmaker⟩ : ∃ y : ℤ, (y : ZMod 2) = 1 ∧
        ∀ maker, p.contract.parties[i]? = some maker → y ≠ maker.publicKey := by
      by_cases h1 : ∃ maker, p.contract.parties[i]? = some maker ∧ maker.publicKey = 1
      · obtain ⟨maker, hparty, hkey⟩ := h1
        refine ⟨3, by decide, ?_⟩
        intro maker' hparty'
        rw [hparty, Option.some.injEq] at hparty'
        rw [← hparty', hkey]
        decide
      · exact ⟨1, by decide, fun maker hparty hkey => h1 ⟨maker, hparty, hkey.symm⟩⟩
    obtain ⟨o, -, hstores, hright⟩ := loosePromise_stored P hy hi hne hk hempty hmaker
    exact ⟨_, o, hstores, hright⟩
  · intro p message pubK
    constructor
    · intro h k i o hdelivers hv
      exact h k i o (stores_iff.mpr ⟨hdelivers, hv⟩)
    · intro h k i o hstores
      obtain ⟨hdelivers, hv⟩ := stores_iff.mp hstores
      exact h k i o hdelivers hv

def sampleReceiver : Party :=
  created (sampleKey 1000) (sampleKey 1002).getPublicKeys SigmaContract.sampleContract 0

/-- The second party's message puts a promise under the key `1` modulo `2` where its own belongs. -/
theorem loose_promise_stored : ∃ o,
    loosePromise samplePlatform.hash (sampleReceiver.contract.roundData 1) 1 = .ok o ∧
    Stores samplePlatform sampleReceiver
      (.ofContent 1 [(sampleReceiver.key.publicKey, .promise o)]) (sampleKey 1001).publicKey 1 1 o ∧
    ¬ sampleReceiver.Rightful 1 o := by
  have hi : sampleReceiver.indexOf (sampleKey 1001).publicKey = .ok 1 := by decide +kernel
  have hne : (sampleKey 1001).publicKey ≠ sampleReceiver.key.publicKey := by decide +kernel
  refine loosePromise_stored samplePlatform (by decide) hi hne ⟨by decide, by decide⟩ rfl ?_
  intro maker hparty
  have hsecond : some (sampleKey 1001).getPublicKeys = some maker := hparty
  rw [← Option.some.inj hsecond]
  decide +kernel

end Party

end SXP.Sigma
