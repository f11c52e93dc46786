import SXP.Sigma.Exchange
import SXP.Sigma.Network

/-!
# A party is a member of the exchange

An honest party that does not refuse, and that hears from honest parties only,
does in the signing step what a member does in the exchange: a promise is there
where the member has it, and a signature is stored where the member has it.
What makes this so is that every promise and signature an honest party sends is
accepted by whoever receives it, so no message is dropped and none throws.
-/

namespace SXP.Sigma

open SXP.Lib SXP.Lib.Java

namespace Setting

open Exchange

variable {n : ℕ} (S : Setting n)

/-! ### What honest parties write -/

/-- A signature of `j` that is accepted under all keys that agree. -/
def Genuine (j : Fin n) (s : SigmaSignature) : Prop :=
  ∀ signer : SigmaSigner, signer.Agrees (S.keys j) S.trentK →
    signer.verify S.platform.hash (S.initial j).contract.getHashableData s = .ok true

/-- What a message of round `r` from `j` has for one receiver. -/
def Sound (j : Fin n) (r : ℕ) : Payload → Prop
  | .promise o => r ≤ n + 1 ∧
      o.verifies S.platform.hash ((S.initial j).contract.roundData r) = .ok true
  | .signature s => r = n + 2 ∧ S.Genuine j s

def Written (j : Fin n) (m : ℕ) (o : Outgoing) : Prop :=
  ∃ content, o = .signing (m + 1 : ℕ) content ∧
    ∀ k, ∃ payload, entry content (S.keys k).publicKey = some payload ∧ S.Sound j (m + 1) payload

structure HasSent (j : Fin n) (p : Party) (m : ℕ) : Prop where
  length : p.sent.length = m
  written : ∀ m' o, p.sent[m']? = some o → S.Written j m' o

/-- **The party does what the member does.**  The messages are apart (`HasSent`), because
the round is one ahead of them while a message is written. -/
structure Follows (j : Fin n) (p : Party) (q : Member n) : Prop where
  same : Party.Same (S.initial j) p
  wish : p.contract.wish ≠ .refuse
  phase : p.phase = if q.started then .running else .created
  round : p.round = q.round
  high : q.round ≤ n + 2
  got : ∀ (r : ℕ) (k : Fin n), q.got r k = (p.roundReceived r k).isSome
  signed : ∀ k, q.signed k = (p.contract.signatures (S.keys k).getPublicKeys).isSome
  genuine : ∀ k s, p.contract.signatures (S.keys k).getPublicKeys = some s → S.Genuine k s
  listening : q.listening = p.listening
  status : p.contract.status = if q.finalized then .finalized else .signing

variable {S}

/-! ### The data is the same for all -/

theorem hashableData_of_same {p : Party} {j : Fin n} (h : Party.Same (S.initial j) p) (i : Fin n) :
    p.contract.getHashableData = (S.initial i).contract.getHashableData :=
  SigmaContract.getHashableData_congr ((parties_of_same h).trans (S.parties i).symm)
    (h.clauses.trans (S.clauses j i))

theorem roundData_of_same {p : Party} {j : Fin n} (h : Party.Same (S.initial j) p) (i : Fin n)
    (r : ℤ) : p.contract.roundData r = (S.initial i).contract.roundData r := by
  rw [SigmaContract.roundData, SigmaContract.roundData, hashableData_of_same h i]

theorem mem_parties {p : Party} {j : Fin n} (h : Party.Same (S.initial j) p) (k : Fin n) :
    p.contract.parties[k.val]? = some (S.keys k).getPublicKeys :=
  (getElem?_of_same h).mpr ⟨k, rfl, rfl⟩

theorem equals_iff (S : Setting n) {k k' : Fin n} :
    (S.keys k).getPublicKeys.equals (S.keys k').getPublicKeys = true ↔ k' = k := by
  constructor
  · intro h
    exact S.distinct (ElGamalKey.equals_iff.mp h).2.2.symm
  · rintro rfl
    exact ElGamalKey.equals_refl _

theorem putSignature_apply (c : SigmaContract) (k k' : Fin n) (s : SigmaSignature) :
    (c.putSignature (S.keys k).getPublicKeys s).signatures (S.keys k').getPublicKeys =
      if k' = k then some s else c.signatures (S.keys k').getPublicKeys := by
  unfold SigmaContract.putSignature
  by_cases hk : k' = k
  · rw [if_pos hk]
    exact if_pos ((equals_iff S).mpr hk)
  · rw [if_neg hk]
    exact if_neg fun h => hk ((equals_iff S).mp h)

theorem HasSent.send {j : Fin n} {p p' : Party} {m : ℕ} {o : Outgoing} (h : S.HasSent j p m)
    (hsent : p'.sent = p.sent) (ho : S.Written j m o) : S.HasSent j (p'.send o) (m + 1) := by
  refine ⟨?_, ?_⟩
  · show (p'.sent ++ [o]).length = m + 1
    rw [List.length_append, hsent, h.length, List.length_singleton]
  · intro m' o' ho'
    change (p'.sent ++ [o])[m']? = some o' at ho'
    rw [hsent] at ho'
    rcases lt_or_ge m' p.sent.length with hlt | hge
    · rw [List.getElem?_append_left hlt] at ho'
      exact h.written m' o' ho'
    · rw [List.getElem?_append_right hge, List.getElem?_singleton,
        Option.ite_none_right_eq_some] at ho'
      obtain ⟨h0, ho'⟩ := ho'
      have hm : m' = m := by
        have := h.length
        omega
      rw [hm, ← Option.some.inj ho']
      exact ho

/-! ### Storing -/

namespace Follows

variable {j : Fin n} {p : Party} {q : Member n}

theorem N_eq (h : S.Follows j p q) : p.N = n := N_of_same h.same

theorem last_iff (h : S.Follows j p q) : p.round = p.N + 2 ↔ q.round = n + 2 := by
  rw [h.round, h.N_eq]
  omega

theorem indexOf (h : S.Follows j p q) (k : Fin n) : p.indexOf (S.keys k).publicKey = .ok k.val :=
  (indexOf_of_same h.same).mpr ⟨k, rfl, rfl⟩

theorem publicKey_iff (h : S.Follows j p q) {k : Fin n} :
    (S.keys k).publicKey = p.key.publicKey ↔ k = j := by
  rw [h.same.key]
  exact S.distinct.eq_iff

theorem setPromise (h : S.Follows j p q) (r : ℕ) (k : Fin n) (o : OrClause) :
    S.Follows j (p.setPromise r k o) (q.promise r k) := by
  refine ⟨⟨h.same.key, h.same.trentK, h.same.parties, h.same.clauses, h.same.contractTrentK⟩,
    h.wish, h.phase, h.round, h.high, ?_, h.signed, h.genuine, h.listening, h.status⟩
  intro r' k'
  rw [Bool.eq_iff_iff, promise_got, h.got]
  unfold Party.setPromise
  by_cases hr : r' = r ∧ k' = k
  · obtain ⟨rfl, rfl⟩ := hr
    simp
  · have hr' : ¬ ((r' : ℤ) = r ∧ k'.val = k.val) := fun ⟨h1, h2⟩ =>
      hr ⟨Int.ofNat_inj.mp h1, Fin.ext h2⟩
    simp only [if_neg hr']
    exact or_iff_right hr

theorem deaf (h : S.Follows j p q) :
    S.Follows j { p with listening := false } { q with listening := false } :=
  ⟨⟨h.same.key, h.same.trentK, h.same.parties, h.same.clauses, h.same.contractTrentK⟩,
    h.wish, h.phase, h.round, h.high, h.got, h.signed, h.genuine, rfl, h.status⟩

theorem send (h : S.Follows j p q) (o : Outgoing) : S.Follows j (p.send o) q :=
  ⟨⟨h.same.key, h.same.trentK, h.same.parties, h.same.clauses, h.same.contractTrentK⟩,
    h.wish, h.phase, h.round, h.high, h.got, h.signed, h.genuine, h.listening, h.status⟩

theorem start (h : S.Follows j p q) :
    S.Follows j { p with phase := .running } { q with started := true } :=
  ⟨⟨h.same.key, h.same.trentK, h.same.parties, h.same.clauses, h.same.contractTrentK⟩,
    h.wish, rfl, h.round, h.high, h.got, h.signed, h.genuine, h.listening, h.status⟩

theorem enter (h : S.Follows j p q) (hr : q.round ≤ n + 1) :
    S.Follows j { p with round := p.round + 1 } { q with round := q.round + 1 } :=
  ⟨⟨h.same.key, h.same.trentK, h.same.parties, h.same.clauses, h.same.contractTrentK⟩,
    h.wish, h.phase, by rw [h.round]; rfl, Nat.succ_le_succ hr, h.got, h.signed, h.genuine,
    h.listening, h.status⟩

end Follows

variable [NeZero n]

theorem isFinalized_of_genuine {c : SigmaContract}
    (hp : c.parties = List.ofFn fun j => (S.keys j).getPublicKeys) (ht : c.trentK = some S.trentK)
    (hd : c.getHashableData = (S.initial 0).contract.getHashableData)
    (hg : ∀ s, c.signatures (S.keys 0).getPublicKeys = some s → S.Genuine 0 s) :
    c.isFinalized S.platform.hash
      = .ok (c.signatures (S.keys 0).getPublicKeys).isSome := by
  obtain ⟨m, rfl⟩ := Nat.exists_eq_succ_of_ne_zero (NeZero.ne n)
  rw [List.ofFn_succ] at hp
  cases hs : c.signatures (S.keys 0).getPublicKeys with
  | none => exact SigmaContract.isFinalized_of_none _ hp hs
  | some s =>
    refine SigmaContract.isFinalized_of_clear _ ht hp hs ?_
    rw [SigmaContract.verifiesClear, SigmaContract.clearData_eq, hd]
    refine hg s hs _ ⟨?_, ?_⟩
    · rintro r ⟨⟩
      rfl
    · intro r hr
      rw [← Option.some.inj (ht.symm.trans hr)]

namespace Follows

variable {j : Fin n} {p : Party} {q : Member n}

/-- A signature is put, and the contract is finalized when it is the first party's or this
one has signed before. -/
theorem sign (h : S.Follows j p q) {k : Fin n} {s : SigmaSignature} (hs : S.Genuine k s) :
    (p.contract.putSignature (S.keys k).getPublicKeys s).isFinalized S.platform.hash
        = .ok ((q.sign k).signed 0) ∧
      S.Follows j (p.setContract { p.contract.putSignature (S.keys k).getPublicKeys s with
        status := if (q.sign k).signed 0 then .finalized else p.contract.status }) (q.sign k) := by
  have hsigned : ∀ k', (q.sign k).signed k' = ((p.contract.putSignature (S.keys k).getPublicKeys
      s).signatures (S.keys k').getPublicKeys).isSome := by
    intro k'
    rw [putSignature_apply]
    by_cases hk : k' = k
    · rw [if_pos hk]
      exact sign_signed.mpr (Or.inl hk)
    · rw [if_neg hk, ← h.signed]
      simp [Member.sign, hk]
  have hgenuine : ∀ k' s', (p.contract.putSignature (S.keys k).getPublicKeys s).signatures
      (S.keys k').getPublicKeys = some s' → S.Genuine k' s' := by
    intro k' s' hs'
    rw [putSignature_apply] at hs'
    by_cases hk : k' = k
    · rw [if_pos hk] at hs'
      obtain rfl := Option.some.inj hs'
      rw [hk]
      exact hs
    · rw [if_neg hk] at hs'
      exact h.genuine k' s' hs'
  refine ⟨?_, ⟨h.same.key, h.same.trentK, h.same.parties, h.same.clauses, h.same.contractTrentK⟩,
    h.wish, h.phase, h.round, h.high, h.got, hsigned, hgenuine, h.listening, ?_⟩
  · rw [hsigned 0]
    exact isFinalized_of_genuine (parties_of_same h.same) h.same.contractTrentK
      (hashableData_of_same h.same 0) (hgenuine 0)
  · show (if (q.sign k).signed 0 = true then Status.finalized else p.contract.status) = _
    rw [h.status]
    cases h0 : (q.sign k).signed 0 with
    | true =>
      have hfin : (q.sign k).finalized = true := by
        rcases sign_signed.mp h0 with hk | h0
        · exact sign_finalized.mpr (Or.inr (Or.inl hk))
        · exact sign_finalized.mpr (Or.inr (Or.inr h0))
      rw [hfin, if_pos rfl, if_pos rfl]
    | false =>
      have hfin : (q.sign k).finalized = q.finalized := by
        have hnot : ¬ (0 = k ∨ q.signed 0 = true) := by
          rw [← sign_signed, h0]
          decide
        rw [Bool.eq_iff_iff, sign_finalized]
        exact or_iff_left hnot
      rw [hfin, if_neg (by decide)]

theorem exec_addSignature (h : S.Follows j p q) {k : Fin n} {s : SigmaSignature}
    (hs : S.Genuine k s) : ∃ p',
      (Party.addSignature S.platform (S.keys k).getPublicKeys s).exec p = (.ok (), p') ∧
        p'.sent = p.sent ∧ S.Follows j p' (q.sign k) := by
  obtain ⟨hfin, hfollows⟩ := h.sign hs
  rw [Party.exec_addSignature, SigmaContract.addSignature_of_mem _
    (List.mem_of_getElem? (mem_parties h.same k)), hfin]
  cases h0 : (q.sign k).signed 0 with
  | true =>
    rw [h0, if_pos rfl] at hfollows
    exact ⟨_, rfl, rfl, hfollows⟩
  | false =>
    rw [h0, if_neg (by decide)] at hfollows
    exact ⟨_, rfl, rfl, hfollows⟩

/-! ### Sending -/

/-- What one receiver gets is sound, and the party keeps what it sends to itself. -/
theorem exec_payload (h : S.Follows j p q) (hj : S.honest j = true)
    (hreg : Registered S.trentK (S.keys j)) (d : Draws) {k : Fin n} (hk : S.honest k = true) :
    ∃ payload p', (ProtocolSign.payload S.platform d ((S.keys k).getPublicKeys, k.val)).exec p
        = (.ok ((S.keys k).publicKey, payload), p') ∧
      p'.sent = p.sent ∧ S.Follows j p' (if k = j then q.send j else q) ∧
      S.Sound j q.round payload := by
  have hkey : p.key = S.keys j := h.same.key
  have htrent : p.trentK = S.trentK := h.same.trentK
  have hreceiver := (S.valid k hk).getPublicKeys
  have hsender : ((S.keys k).getPublicKeys.publicKey == p.key.publicKey) = decide (k = j) := by
    rw [Bool.eq_iff_iff, beq_iff_eq, decide_eq_true_iff]
    exact h.publicKey_iff
  unfold ProtocolSign.payload Member.send
  rw [Act.exec_get_bind]
  dsimp only
  rw [hsender]
  by_cases hr : q.round = n + 2
  · -- a clear signature
    rw [if_pos (h.last_iff.mpr hr), if_pos hr, hkey, htrent]
    obtain ⟨s, hs, haccepted⟩ := sign_accepted S.platform.hash hreg (S.owned j hj) hreceiver
      p.contract.getHashableData (d.sign p.round k.val).1 (d.sign p.round k.val).2.1
      (d.sign p.round k.val).2.2
    have hgenuine : S.Genuine j s := by
      intro signer hsigner
      rw [← hashableData_of_same h.same j]
      exact haccepted signer hsigner
    rw [hs, Act.exec_ok_bind]
    by_cases hkj : k = j
    · obtain ⟨p', hp', hsent, hfollows⟩ := h.exec_addSignature hgenuine
      rw [if_pos (decide_eq_true hkj), if_pos hkj, hkj, Act.exec_bind_ok hp']
      exact ⟨.signature s, p', rfl, hsent, hfollows, hr, hgenuine⟩
    · rw [if_neg (by simpa using hkj), if_neg hkj]
      exact ⟨.signature s, p, rfl, rfl, h, hr, hgenuine⟩
  · -- a promise
    rw [if_neg (mt h.last_iff.mp hr), if_neg hr, hkey, htrent]
    have : Fact S.trentK.p.toNat.Prime := ⟨S.trent.prime⟩
    obtain ⟨o, res, ho, hpromise, -⟩ := getPcs_isPromise S.platform.hash hreg (S.owned j hj)
      hreceiver (p.contract.roundData p.round) (d.sign p.round k.val).1
      (d.sign p.round k.val).2.2
    have hv := hpromise.verifies
    rw [roundData_of_same h.same j, h.round] at hv
    have hlow : q.round ≤ n + 1 := by
      have := h.high
      omega
    rw [ho, Act.exec_ok_bind]
    by_cases hkj : k = j
    · rw [if_pos (decide_eq_true hkj), if_pos hkj, hkj, Act.exec_modify_bind, h.round]
      exact ⟨.promise o, _, rfl, rfl, h.setPromise q.round j o, hlow, hv⟩
    · rw [if_neg (by simpa using hkj), if_neg hkj]
      exact ⟨.promise o, p, rfl, rfl, h, hlow, hv⟩

/-- What all receivers get.  The own index is the one at which the party keeps something. -/
theorem exec_payloads (h : S.Follows j p q) (hh : ∀ k, S.honest k = true)
    (hreg : Registered S.trentK (S.keys j)) (d : Draws) : ∃ content p',
      (p.contract.parties.zipIdx.mapM (ProtocolSign.payload S.platform d)).exec p
          = (.ok content, p') ∧
        p'.sent = p.sent ∧ S.Follows j p' (q.send j) ∧
        ∀ k, ∃ payload, entry content (S.keys k).publicKey = some payload ∧
          S.Sound j q.round payload := by
  obtain ⟨content, p', hexec, ⟨hfollows, hsent⟩, hall, hany⟩ := Act.mapM_ok
    (f := ProtocolSign.payload S.platform d) (l := p.contract.parties.zipIdx)
    (I := fun k p' => S.Follows j p' (if j.val < k then q.send j else q) ∧ p'.sent = p.sent)
    (R := fun rk e => e.1 = rk.1.publicKey ∧ S.Sound j q.round e.2) (s := p) (by
      rintro i ⟨key, i'⟩ hi p' ⟨hp', hsent⟩
      rw [List.getElem?_zipIdx, Option.map_eq_some_iff] at hi
      obtain ⟨key', hkey, heq⟩ := hi
      obtain ⟨rfl, rfl⟩ := Prod.mk.inj heq
      obtain ⟨k, rfl, rfl⟩ := (getElem?_of_same h.same).mp hkey
      have hround : (if j.val < k.val then q.send j else q).round = q.round := by
        split
        · exact send_round q j
        · rfl
      obtain ⟨payload, p'', hexec, hsent', hfollows, hsound⟩ := hp'.exec_payload (hh j) hreg d (hh k)
      rw [hround] at hsound
      refine ⟨_, p'', by rw [Nat.zero_add]; exact hexec, ⟨?_, hsent'.trans hsent⟩, rfl, hsound⟩
      by_cases hkj : k = j
      · subst hkj
        rw [if_pos rfl, if_neg (lt_irrefl _)] at hfollows
        rwa [if_pos (Nat.lt_succ_self _)]
      · have hlt : j.val < k.val + 1 ↔ j.val < k.val := by
          have : j.val ≠ k.val := fun h => hkj (Fin.ext h.symm)
          omega
        rw [if_neg hkj] at hfollows
        rwa [if_congr hlt rfl rfl])
    ⟨by rwa [if_neg (Nat.not_lt_zero _)], rfl⟩
  rw [List.length_zipIdx, show p.contract.parties.length = n from h.N_eq, if_pos j.isLt] at hfollows
  refine ⟨content, p', hexec, hsent, hfollows, fun k => entry_of_mem ?_ ?_⟩
  · obtain ⟨e, he, hkey, -⟩ := hall ((S.keys k).getPublicKeys, k.val)
      (List.mem_zipIdx_iff_getElem?.mpr (mem_parties h.same k))
    exact ⟨e, he, hkey⟩
  · intro e he
    obtain ⟨-, -, -, hsound⟩ := hany e he
    exact hsound

/-- **A message of the current round is sent**, and it has something for everybody. -/
theorem exec_sendMessage (h : S.Follows j p q) (hh : ∀ k, S.honest k = true)
    (hreg : Registered S.trentK (S.keys j)) (d : Draws) {m : ℕ} (hsent : S.HasSent j p m)
    (hm : q.round = m + 1) : ∃ p',
      (ProtocolSign.sendMessage S.platform d).exec p = (.ok (), p') ∧
        S.Follows j p' (q.send j) ∧ S.HasSent j p' (m + 1) := by
  obtain ⟨content, p', hcontent, hsent', hfollows, hall⟩ := h.exec_payloads hh hreg d
  have hround : p'.round = (m + 1 : ℕ) := by rw [hfollows.round, send_round, hm]
  have hindex := hfollows.indexOf j
  rw [← show p'.key = S.keys j from hfollows.same.key] at hindex
  unfold ProtocolSign.sendMessage
  rw [Act.exec_get_bind, if_neg h.wish, Act.exec_bind_ok hcontent, Act.exec_get_bind, hindex,
    Act.exec_ok_bind, Act.exec_modify]
  refine ⟨_, rfl, hfollows.send _, hsent.send hsent' ⟨content, by rw [hround], ?_⟩⟩
  intro k
  obtain ⟨payload, hpayload, hsound⟩ := hall k
  exact ⟨payload, hpayload, hm ▸ hsound⟩

/-! ### Receiving -/

theorem exec_verifyAndStore (h : S.Follows j p q) {i : Fin n} {m : ℕ}
    {content : List (ℤ × Payload)} {payload : Payload}
    (hentry : entry content (S.keys j).publicKey = some payload) (hsound : S.Sound i (m + 1) payload) :
    ∃ p', (ProtocolSign.verifyAndStoreSignature S.platform (.ofContent (m + 1 : ℕ) content)
        (S.keys i).publicKey).exec p = (.ok (), p') ∧
      p'.sent = p.sent ∧ S.Follows j p' (q.store j i (m + 1)) := by
  have hkey : p.key = S.keys j := h.same.key
  have htrent : p.trentK = S.trentK := h.same.trentK
  unfold Member.store
  by_cases hi : i = j
  · rw [if_pos hi]
    unfold ProtocolSign.verifyAndStoreSignature
    rw [Act.exec_get_bind, h.indexOf i, Act.exec_ok_bind]
    refine ⟨p, ?_, rfl, h⟩
    show (if _ then _ else _ : Act Party Unit).exec p = _
    rw [if_pos (h.publicKey_iff.mpr hi), Act.exec_pure]
  rw [if_neg hi, Party.exec_verifyAndStore (h.indexOf i) rfl (mt h.publicKey_iff.mp hi)]
  have hlast : ((m + 1 : ℕ) : ℤ) = p.N + 2 ↔ m + 1 = n + 2 := by
    rw [h.N_eq]
    omega
  rw [← hkey] at hentry
  cases payload with
  | signature s =>
    obtain ⟨hr, hgenuine⟩ := hsound
    rw [if_pos (hlast.mpr hr), if_pos hr]
    obtain ⟨hfin, hfollows⟩ := h.sign hgenuine
    have hverify : SigmaSigner.verify S.platform.hash ⟨some p.trentK, none⟩
        p.contract.getHashableData s = .ok true := by
      rw [hashableData_of_same h.same i]
      refine hgenuine _ ⟨?_, ?_⟩
      · exact fun r hr => absurd hr (by simp)
      · intro r hr
        rw [← htrent, Option.some.inj hr]
    have hindex := h.indexOf j
    rw [← hkey] at hindex
    rw [Party.exec_receiveSignature (mem_parties h.same i) (by simp [SignMessage.ofContent, hentry])
      hverify, hfin, hindex]
    cases h0 : (q.sign i).signed 0 with
    | true =>
      rw [h0, if_pos rfl] at hfollows
      exact ⟨_, rfl, rfl, hfollows.deaf⟩
    | false =>
      rw [h0, if_neg (by decide)] at hfollows
      exact ⟨_, rfl, rfl, hfollows⟩
  | promise o =>
    obtain ⟨hr, hv⟩ := hsound
    rw [if_neg (mt hlast.mp (by omega)), if_neg (by omega)]
    rw [← roundData_of_same h.same i] at hv
    rw [Party.exec_receivePromise ⟨Int.natCast_nonneg _, by rw [h.N_eq]; omega⟩
      (by simp [SignMessage.ofContent, hentry]) hv]
    cases hgot : p.roundReceived (m + 1 : ℕ) i.val with
    | some o' =>
      have hq : q.got (m + 1) i = true := by rw [h.got, hgot]; rfl
      rw [promise_of_got hq]
      exact ⟨p, rfl, rfl, h⟩
    | none => exact ⟨_, rfl, rfl, h.setPromise (m + 1) i o⟩

omit [NeZero n] in
theorem goesOn_iff (h : S.Follows j p q) :
    (p.round ≤ p.N + 1 ∧ p.claimFormed = true ∧ p.contract.status = .signing) ↔
      (q.round ≤ n + 1 ∧ q.complete = true ∧ q.finalized = false) := by
  have hround : p.round ≤ p.N + 1 ↔ q.round ≤ n + 1 := by
    rw [h.round, h.N_eq]
    omega
  rw [hround]
  refine and_congr_right fun hr => and_congr ?_ ?_
  · rw [Party.claimFormed_iff (hround.mpr hr), complete_iff, h.N_eq, h.round]
    constructor
    · intro hall k
      obtain ⟨o, ho⟩ := hall k.val k.isLt
      rw [h.got, ho]
      rfl
    · intro hall k hk
      exact Option.isSome_iff_exists.mp ((h.got q.round ⟨k, hk⟩).symm.trans (hall ⟨k, hk⟩))
  · rw [h.status]
    cases q.finalized <;> simp

/-- **The loop of the party is the loop of the member.** -/
theorem exec_sendRounds (hh : ∀ k, S.honest k = true) (hreg : Registered S.trentK (S.keys j))
    (d : Draws) (left : ℕ) (h : S.Follows j p q) (hsent : S.HasSent j p q.sent)
    (hidle : Idle j q) : ∃ p',
      (ProtocolSign.sendRounds S.platform d left).exec p = (.ok (), p') ∧
        S.Follows j p' (q.advance j left) ∧ S.HasSent j p' (q.advance j left).sent := by
  induction left generalizing p q with
  | zero => exact ⟨p, rfl, h, hsent⟩
  | succ left ih =>
    rw [ProtocolSign.sendRounds, Member.advance, Act.exec_get_bind]
    by_cases hc : q.round ≤ n + 1 ∧ q.complete = true ∧ q.finalized = false
    · rw [if_pos (h.goesOn_iff.mpr hc), if_pos hc, Act.exec_modify_bind]
      have hstarted := hidle.started hc.2.1
      rw [sent_of_started hstarted] at hsent
      obtain ⟨p', hp', hfollows, hsent'⟩ := (h.enter hc.1).exec_sendMessage hh hreg d
        ⟨hsent.length, hsent.written⟩ rfl
      have hstarted' : (Member.send { q with round := q.round + 1 } j).started = true :=
        (grows_send _ j).started hstarted
      rw [Act.exec_bind_ok hp']
      refine ih hfollows ?_ fun hs => absurd (hstarted'.symm.trans hs) (by decide)
      rw [sent_of_started hstarted', send_round]
      exact hsent'
    · rw [if_neg (mt h.goesOn_iff.mp hc), if_neg hc]
      exact ⟨p, rfl, h, hsent⟩

/-- **The listener of the party is the listener of the member.** -/
theorem exec_receive (h : S.Follows j p q) (hh : ∀ k, S.honest k = true)
    (hreg : Registered S.trentK (S.keys j)) (d : Draws) (hsent : S.HasSent j p q.sent)
    (hidle : Idle j q) {i : Fin n} {m : ℕ} {content : List (ℤ × Payload)} {payload : Payload}
    (hentry : entry content (S.keys j).publicKey = some payload) (hsound : S.Sound i (m + 1) payload) :
    ∃ p', (Party.handle S.platform (.receive (.ofContent (m + 1 : ℕ) content)
        (S.keys i).publicKey d)).exec p = (.ok (), p') ∧
      S.Follows j p' (q.receive j i (m + 1)) ∧ S.HasSent j p' (q.receive j i (m + 1)).sent := by
  unfold Member.receive
  rw [Party.handle, Act.exec_get_bind, h.listening]
  by_cases hl : p.listening = true
  · rw [if_pos hl, if_pos hl]
    obtain ⟨p', hp', hsent', hfollows⟩ := h.exec_verifyAndStore hentry hsound
    have hleft : (p'.N + 2 - p'.round).toNat = n + 2 - (q.store j i (m + 1)).round := by
      rw [hfollows.N_eq, hfollows.round]
      omega
    unfold ProtocolSign.received
    rw [Act.exec_bind_ok hp', Act.exec_get_bind, hleft]
    refine hfollows.exec_sendRounds hh hreg d _ ?_ hidle.store
    rw [store_sent]
    exact ⟨hsent' ▸ hsent.length, hsent' ▸ hsent.written⟩
  · rw [if_neg hl, if_neg hl]
    exact ⟨p, rfl, h, hsent⟩

theorem exec_start (h : S.Follows j p q) (hh : ∀ k, S.honest k = true)
    (hreg : Registered S.trentK (S.keys j)) (d : Draws) (hsent : S.HasSent j p q.sent)
    (hidle : Idle j q) : ∃ p', (Party.handle S.platform (.start d)).exec p = (.ok (), p') ∧
      S.Follows j p' (q.start j) ∧ S.HasSent j p' (q.start j).sent := by
  unfold Member.start
  rw [Party.handle, Act.exec_get_bind, h.phase]
  cases hs : q.started with
  | true => exact ⟨p, rfl, h, hsent⟩
  | false =>
    obtain ⟨hr, -⟩ := hidle hs
    have hsent0 : S.HasSent j { p with phase := .running } 0 := by
      refine ⟨?_, hsent.written⟩
      rw [← show q.sent = 0 from if_neg (by rw [hs]; decide)]
      exact hsent.length
    obtain ⟨p', hp', hfollows, hsent'⟩ := h.start.exec_sendMessage hh hreg d hsent0 hr
    have hstarted : (Member.send { q with started := true } j).started = true :=
      (grows_send _ j).started rfl
    rw [if_pos (show (if false = true then Phase.running else .created) = .created from rfl),
      if_neg (show ¬ (false = true) by decide), Act.exec_modify_bind]
    refine ⟨p', hp', hfollows, ?_⟩
    rw [sent_of_started hstarted, send_round, hr]
    exact hsent'

end Follows

end Setting

end SXP.Sigma
