import SXP.Lib.Numeral
import SXP.Sigma.Upright
import SXP.Sigma.Opening
import SXP.Sigma.StepChange
import Mathlib.Tactic.DeriveEncodable
import Mathlib.Logic.Equiv.List

/-!
# Resolution

Where all parties are honest, the claim of a request is one that Trent can open, and
the round it is of is one of those that every party tries.  The signatures that Trent
hands out then finalize the contract of whoever gets them, with a signature of
everybody (`resolution_finalizes`).
-/

instance encodableUInt8 : Encodable UInt8 :=
  Encodable.ofLeftInverse UInt8.toNat UInt8.ofNat fun _ => by simp

deriving instance Encodable for SXP.Sigma.ElGamalKey, SXP.Sigma.Masks, SXP.Sigma.ResponsesKind,
  SXP.Sigma.Responses, SXP.Sigma.ResEncrypt, SXP.Sigma.AndClause, SXP.Sigma.OrClause

namespace SXP.Sigma

open SXP.Lib SXP.Lib.Java SXP.Lib.Text Relation

theorem TrentService.resolveToken_made {T : TrentService} (ho : T.keys.Owned) {c : SigmaContract}
    {round : ℤ} {ors : List OrClause}
    (hmade : List.Forall₂ (T.MadeBy (c.roundData round)) c.parties ors) {call : Call}
    (hm : T.toOrs call.m = some (ors.map some)) :
    ∃ sigs, TrentSolver.resolveToken (T.arbiter c) call = .ok sigs ∧
      List.Forall₂ (fun party sign => SigmaSigner.verify T.hash ⟨some T.keys, some party⟩
        (c.roundData round) sign = .ok true) c.parties sigs := by
  have hclaim : (T.arbiter c).toOrs call.m = some (ors.map some) := hm
  rw [TrentSolver.resolveToken, hclaim]
  obtain ⟨hlen, hget⟩ := List.forall₂_iff_get.mp hmade
  refine exists_forall₂_collect (List.forall₂_iff_get.mpr ⟨List.length_range.symm, ?_⟩)
  intro k hk hk'
  obtain ⟨and0, rpcs, hhead, hrpcs, hverify⟩ :=
    (promise_opens ho (hget k hk (hlen ▸ hk))).2 call.name (call.s k)
  rw [List.get_eq_getElem, List.getElem_range]
  exact ⟨_, openPromise_eq (A := T.arbiter c) (hlen ▸ hk) hhead hrpcs, hverify⟩

namespace Setting

variable {n : ℕ} {S : Setting n}

open Party

/-! ### What Trent hands out -/

section

variable {j : Fin n} {p : Party} {c : ℤ} {sigs : List SigmaSignature}

structure Opened (S : Setting n) (j : Fin n) (c : ℤ) (sigs : List SigmaSignature) : Prop where
  length : sigs.length = n
  accepted : ∀ (k : Fin n) (s : SigmaSignature), sigs[k.val]? = some s →
    SigmaSigner.verify S.platform.hash ⟨some S.trentK, some (S.keys k).getPublicKeys⟩
      ((S.initial j).contract.roundData c) s = .ok true

theorem Upright.exec_addResolved (hp : S.Upright j p) (hj : S.honest j = true)
    (htrent : p.signer.trentK = some S.trentK) {round : ℤ}
    (hc : c ∈ [round, round - 1, round - 2]) {k : Fin n} {s : SigmaSignature}
    (hs : SigmaSigner.verify S.platform.hash ⟨some S.trentK, some (S.keys k).getPublicKeys⟩
      ((S.initial j).contract.roundData c) s = .ok true) :
    ∃ st, (ProtocolResolve.addResolved S.platform round (some s, k.val)).exec p = (.ok (),
        (p.setReceiverK (S.keys k).getPublicKeys).setContract
          { p.contract.putSignature (S.keys k).getPublicKeys s with status := st }) ∧
      S.Upright j ((p.setReceiverK (S.keys k).getPublicKeys).setContract
          { p.contract.putSignature (S.keys k).getPublicKeys s with status := st }) := by
  have htotal : ∀ r, SigmaSigner.verify S.platform.hash
      (p.setReceiverK (S.keys k).getPublicKeys).signer
      ((p.setReceiverK (S.keys k).getPublicKeys).contract.roundData r) s = .ok (verifiesChallenges
        S.platform.hash (p.contract.roundData r) s.pcs.a s.pcs.challenges) := by
    intro r
    have hsigner : (p.setReceiverK (S.keys k).getPublicKeys).signer =
        ⟨some S.trentK, some (S.keys k).getPublicKeys⟩ := by
      rw [← htrent]
      rfl
    rw [hsigner]
    exact SigmaSigner.verify_of_accepted S.platform.hash hs _
  have haccepts : ProtocolResolve.accepts S.platform
      (p.setReceiverK (S.keys k).getPublicKeys).signer
      (p.setReceiverK (S.keys k).getPublicKeys).contract round s = .ok true := by
    rw [ProtocolResolve.accepts, any_of_total fun r _ => htotal r, Except.ok.injEq,
      List.any_eq_true]
    refine ⟨c, hc, ?_⟩
    have hround := SigmaSigner.verify_of_accepted S.platform.hash hs (p.contract.roundData c)
    rw [roundData_of_same hp.same j, hs, Except.ok.injEq] at hround
    rw [roundData_of_same hp.same j]
    exact hround.symm
  obtain ⟨st, hexec, hupright⟩ :=
    (hp.setReceiverK hj (S.keys k).getPublicKeys).exec_addSignature hj ⟨_, hs⟩
  refine ⟨st, ?_, hupright⟩
  unfold ProtocolResolve.addResolved
  rw [Act.exec_get_bind, party_eq_ok.mpr (mem_parties hp.same k), Act.exec_ok_bind,
    Act.exec_modify_bind, Act.exec_get_bind, nonNull_some, Act.exec_ok_bind, haccepts,
    Act.exec_ok_bind, if_pos rfl, hexec]
  rfl

/-- A contract with a signature of everybody on one round passes the test. -/
theorem Upright.isFinalized (hp : S.Upright j p) (h1 : 1 ≤ c) (hcn : c ≤ n + 1)
    (hs : S.Opened j c sigs)
    (hstored : ∀ k : Fin n, p.contract.signatures (S.keys k).getPublicKeys = sigs[k.val]?) :
    p.contract.AllSigned S.platform.hash ∧ p.contract.isFinalized S.platform.hash = .ok true := by
  have hlen : p.contract.parties.length = n := N_of_same hp.same
  have htrent : p.contract.trentK = some S.trentK := hp.same.contractTrentK
  have hall : p.contract.AllSigned S.platform.hash := by
    intro key hkey
    rw [parties_of_same hp.same, List.mem_ofFn] at hkey
    obtain ⟨k, rfl⟩ := hkey
    have hlt : k.val < sigs.length := by
      rw [hs.length]
      exact k.isLt
    refine ⟨sigs[k.val], (hstored k).trans (List.getElem?_eq_getElem hlt), Or.inr ⟨c, h1, ?_, ?_⟩⟩
    · rw [hlen]
      exact hcn
    · rw [SigmaContract.verifiesRound, SigmaContract.signer, htrent, roundData_of_same hp.same j]
      exact hs.accepted k _ (List.getElem?_eq_getElem hlt)
  refine ⟨hall, (SigmaContract.isFinalized_iff S.platform.hash htrent).mpr ?_⟩
  refine SigmaContract.walk_of_all (fun hnil => ?_)
    ((SigmaContract.allSigned_iff S.platform.hash).mp hall)
  rw [SigmaContract.standings, List.map_eq_nil_iff] at hnil
  rw [hnil, List.length_nil] at hlen
  exact absurd j.isLt (by omega)

/-- **What Trent has opened finalizes the contract.** -/
theorem Upright.exec_resolved (hp : S.Upright j p) (hj : S.honest j = true)
    (hsigns : p.signs = true) (h1 : 1 ≤ c) (hcn : c ≤ n + 1)
    (hc : c ∈ [p.getRound, p.getRound - 1, p.getRound - 2]) (hs : S.Opened j c sigs) :
    ∃ p', (ProtocolResolve.resolved S.platform (some (sigs.map some))).exec p = (.ok (), p') ∧
      p'.contract.status = .finalized ∧ p'.contract.AllSigned S.platform.hash ∧
      p'.listening = false := by
  obtain ⟨q, hq, hupright, -, hqsigns, hstored⟩ := Act.forM_ok
    (f := ProtocolResolve.addResolved S.platform p.getRound) (l := (sigs.map some).zipIdx)
    (I := fun m q => S.Upright j q ∧ q.signer.trentK = some S.trentK ∧ q.signs = true ∧
      ∀ k : Fin n, k.val < m →
        q.contract.signatures (S.keys k).getPublicKeys = sigs[k.val]?) (s := p) (by
      rintro m ⟨s, m'⟩ hm q ⟨hq, htrent, hqsigns, hstored⟩
      rw [List.getElem?_zipIdx, Option.map_eq_some_iff] at hm
      obtain ⟨s', hs', heq⟩ := hm
      rw [List.getElem?_map, Option.map_eq_some_iff] at hs'
      obtain ⟨sig, hsig, rfl⟩ := hs'
      obtain ⟨rfl, rfl⟩ := Prod.mk.inj heq
      obtain ⟨hlt, -⟩ := List.getElem?_eq_some_iff.mp hsig
      rw [hs.length] at hlt
      obtain ⟨st, hexec, hnext⟩ := hq.exec_addResolved hj htrent hc (hs.accepted ⟨m, hlt⟩ sig hsig)
      refine ⟨_, by rw [Nat.zero_add]; exact hexec, hnext, htrent, hqsigns, fun k hk => ?_⟩
      have hput := putSignature_apply (S := S) q.contract ⟨m, hlt⟩ k sig
      refine hput.trans ?_
      by_cases hkm : k = ⟨m, hlt⟩
      · rw [if_pos hkm, hkm]
        exact hsig.symm
      · rw [if_neg hkm]
        refine hstored k ?_
        have hne : k.val ≠ m := fun h => hkm (Fin.ext h)
        omega)
    ⟨hp, hp.signed hsigns, hsigns, fun k hk => absurd hk (Nat.not_lt_zero _)⟩
  rw [List.length_zipIdx, List.length_map, hs.length] at hstored
  obtain ⟨hall, hfinal⟩ := hupright.isFinalized h1 hcn hs fun k => hstored k k.isLt
  refine ⟨(q.setStatus .finalized).stop, ?_, ?_, ?_, ?_⟩
  · unfold ProtocolResolve.resolved
    rw [Act.exec_get_bind, nonNull_some, Act.exec_ok_bind, Act.exec_bind_ok hq, Act.exec_get_bind,
      hfinal, Act.exec_ok_bind, if_pos rfl, Act.exec_modify_bind, Act.exec_modify]
  · rw [stop_contract]
    rfl
  · rw [stop_contract]
    exact hall
  · have hstop : (q.setStatus .finalized).stop = { q.setStatus .finalized with listening := false } :=
      if_pos hqsigns
    rw [hstop]

/-- The answer has the signatures, and it is Trent's. -/
structure Resolves (S : Setting n) (T : ElGamalKey) (p : Party) (a : TrentAnswer)
    (sigs : List SigmaSignature) : Prop where
  honest : a.dishonest = .ok false
  genuine : Party.Genuine S.platform T p.key a
  kind : a.kind = .ok "resolved"
  sigSign : a.sigSign = some (sigs.map some)

theorem Upright.next_resolves (hp : S.Upright j p) (hj : S.honest j = true)
    (hsigns : p.signs = true) (h1 : 1 ≤ c) (hcn : c ≤ n + 1)
    (hc : c ∈ [p.getRound, p.getRound - 1, p.getRound - 2]) (hs : S.Opened j c sigs)
    {T : ElGamalKey} (hT : T.Valid) (ho : T.Owned) (ht : S.trentK.publicKey = T.publicKey)
    (hexpects : p.Expects T) {a : TrentAnswer} (ha : S.Resolves T p a sigs) :
    ((Party.machine S.platform).next p (.answer a S.trentK.publicKey)).contract.status = .finalized ∧
    ((Party.machine S.platform).next p (.answer a S.trentK.publicKey)).contract.AllSigned
      S.platform.hash ∧
    ((Party.machine S.platform).next p (.answer a S.trentK.publicKey)).listening = false := by
  have htrent : p.trentK = S.trentK := hp.same.trentK
  have hkey : p.key.Valid := by
    rw [hp.same.key]
    exact S.valid j hj
  have hphase : p.phase ≠ .choosing := by
    intro hphase
    rw [Party.signs, hphase] at hsigns
    exact absurd hsigns (by decide)
  have hauthentic : Recognised S.platform p a := by
    refine (recognised_iff hT ho hkey ?_ ha.genuine).mpr hexpects
    rw [htrent]
    exact ht
  obtain ⟨p', hexec, hfinal⟩ := (hp.setTrentK hj).exec_resolved hj hsigns h1 hcn hc hs
  have hnext : (Party.machine S.platform).next p (.answer a S.trentK.publicKey) = p' := by
    change ((Party.handle S.platform (.answer a S.trentK.publicKey)).exec p).2 = p'
    rw [Party.handle, Act.exec_get_bind, if_pos hphase, ProtocolResolve.answered, Act.exec_get_bind,
      if_pos (congrArg _ htrent.symm), ha.honest, Act.exec_ok_bind]
    simp only [Bool.false_eq_true, if_false, Act.exec_modify_bind, Act.exec_get_bind]
    rw [show ProtocolResolve.authentic S.platform (p.setTrentK p.trentK) a = .ok true from hauthentic,
      Act.exec_ok_bind]
    simp only [if_true]
    rw [ProtocolResolve.verdict, ha.kind, Act.exec_ok_bind, if_neg (by decide), if_pos rfl,
      ha.sigSign, hexec]
  rw [hnext]
  exact hfinal

theorem next_resolve {P : Platform} (hsigns : p.signs = true) (d : SignDraws) :
    (Party.machine P).next p (.resolve d) = ((ProtocolResolve.sendMessage P d).exec p).2 := by
  change ((Party.handle P (.resolve d)).exec p).2 = _
  rw [Party.handle, Act.exec_get_bind, if_pos hsigns]

theorem Upright.exec_resolve (hp : S.Upright j p) (hj : S.honest j = true)
    (hreg : Registered S.trentK (S.keys j)) (hsigns : p.signs = true) (hn : p.round ≤ n + 2)
    (d : SignDraws) : ∃ text sign p',
      (ProtocolResolve.sendMessage S.platform d).exec p = (.ok (), p') ∧
        .request (p.round - 1) text sign ∈ p'.sent ∧ p'.signs = true ∧ p'.Waits := by
  have hkey : p.key = S.keys j := hp.same.key
  have htrent : p.trentK = S.trentK := hp.same.trentK
  have hN : p.N = n := N_of_same hp.same
  have hround : (p.setStatus .resolving).getRound = p.round := if_pos hsigns
  have hstop : (p.setStatus .resolving).stop =
      { p.setStatus .resolving with listening := false } := if_pos hsigns
  obtain ⟨text, hclaim⟩ :
      ∃ text, ProtocolResolve.claim S.platform (p.setStatus .resolving) p.round = .ok text := by
    rw [ProtocolResolve.claim]
    by_cases h1 : p.round ≤ 1
    · exact ⟨"ABORT", if_pos h1⟩
    · rw [if_neg h1, ProtocolResolve.row, show (p.setStatus .resolving).signs = true from hsigns,
        Bool.not_true, if_neg Bool.false_ne_true, show (p.setStatus .resolving).N = n from hN,
        if_neg (by omega)]
      exact ⟨_, rfl⟩
  obtain ⟨sign, hsign, -⟩ := sign_accepted S.platform.hash hreg (S.owned j hj) S.trent
    (getBytes text) d.1 d.2.1 d.2.2
  have hsigned : SigmaSigner.sign S.platform.hash ⟨p.signer.trentK, some p.trentK⟩ p.key
      (getBytes text) d.1 d.2.1 d.2.2 = .ok sign := by
    rw [hp.signed hsigns, htrent, hkey]
    exact hsign
  refine ⟨text, sign, (Party.setReceiverK { p.setStatus .resolving with listening := false }
    p.trentK).send (.request (p.round - 1) text sign), ?_,
    List.mem_append_right _ (List.mem_singleton_self _), hsigns, Or.inr rfl⟩
  unfold ProtocolResolve.sendMessage
  simp only [Act.exec_modify_bind, Act.exec_get_bind]
  rw [hround, hstop, hclaim, Act.exec_ok_bind, Act.exec_get_bind]
  refine Act.exec_bind_ok ?_
  rw [Act.exec_lift]
  exact congrArg (fun r => (r, _)) hsigned

end

/-- A request is of one of the three rounds that every party in the signing step tries. -/
theorem NetInv.asked {s : Fin n → Party} (hs : S.NetInv s) {i j : Fin n} {c : ℤ}
    (hi : S.honest i = true) (hj : S.honest j = true) {text : String} {sign : SigmaSignature}
    (h : .request c text sign ∈ (s i).sent) (hsigns : (s j).signs = true) :
    c ∈ [(s j).getRound, (s j).getRound - 1, (s j).getRound - 2] := by
  obtain ⟨hc, -⟩ := (hs.rounds i hi).request c text sign h
  have hij := hs.round_le hi hj
  have hji := hs.round_le hj hi
  have hround : (s j).getRound = (s j).round := if_pos hsigns
  rw [hround, List.mem_cons, List.mem_cons, List.mem_singleton]
  omega

/-! ### From a request to the end -/

/-- Trent signs with the key pair that the parties know. -/
structure Served (S : Setting n) (T : TrentService) : Prop where
  keys : S.trentK = T.keys.getPublicKeys
  owned : T.keys.Owned
  hash : T.hash = S.platform.hash
  read : ∀ ors, T.toOrs (S.platform.json ors) = some ors

theorem Served.valid {T : TrentService} (h : S.Served T) : T.keys.Valid := by
  have ht := S.trent
  rw [h.keys] at ht
  exact ht.of_getPublicKeys

theorem Served.verify {T : TrentService} (h : S.Served T) (r : Option ElGamalKey) (m : List UInt8)
    (s : SigmaSignature) : SigmaSigner.verify T.hash ⟨some T.keys, r⟩ m s =
      SigmaSigner.verify S.platform.hash ⟨some S.trentK, r⟩ m s := by
  rw [h.hash, h.keys]
  rfl

theorem registered_of_made {k j : Fin n} (hk : S.honest k = true) {c : ℤ} {o : OrClause}
    (h : S.Made k j c o) : Registered S.trentK (S.keys k) := by
  obtain ⟨nonce, d, ho⟩ := h
  exact registered_of_getPcs (S.valid k hk) S.trent ho

/-- What an honest party claims is made by the parties, on the data of the contract. -/
theorem Served.madeBy {T : TrentService} (h : S.Served T) (hh : ∀ k, S.honest k = true) {i : Fin n}
    {c : ℤ} {ors : Fin n → OrClause} (hmade : ∀ k, S.Made k i c (ors k)) :
    List.Forall₂ (T.MadeBy ((S.contract i).roundData c)) (S.contract i).parties (List.ofFn ors) := by
  have hsame : Same (S.initial i) (S.initial i) := ⟨rfl, rfl, rfl, rfl, rfl⟩
  have hdigits := (registered_of_made (hh i) (hmade i)).digits
  rw [S.parties i]
  refine List.forall₂_iff_get.mpr ⟨by simp, fun k hk hk' => ?_⟩
  rw [List.length_ofFn] at hk hk'
  simp only [List.get_eq_getElem, List.getElem_ofFn]
  obtain ⟨nonce, d, ho⟩ := hmade ⟨k, hk⟩
  have hreg := registered_of_made (hh ⟨k, hk⟩) (hmade ⟨k, hk⟩)
  rw [h.keys] at hreg
  refine ⟨S.keys ⟨k, hk⟩, (S.keys i).getPublicKeys, nonce, d, ElGamalKey.equals_iff.mpr
    ⟨rfl, rfl, rfl⟩, S.owned _ (hh _), ⟨hreg.party, hreg.digits, h.valid, hreg.fits⟩,
    (S.valid i (hh i)).getPublicKeys, hdigits, ?_⟩
  rw [← roundData_of_same hsame ⟨k, hk⟩ c, h.keys, ← h.hash] at ho
  exact ho

theorem Served.opens {T : TrentService} (h : S.Served T) (hh : ∀ k, S.honest k = true) {i : Fin n}
    {c : ℤ} {ors : Fin n → OrClause} (hmade : ∀ k, S.Made k i c (ors k)) {call : Call}
    (hm : T.toOrs call.m = some ((List.ofFn ors).map some)) :
    ∃ sigs, TrentSolver.resolveToken (T.arbiter (S.contract i)) call = .ok sigs ∧
      ∀ j, S.Opened j c sigs := by
  obtain ⟨sigs, hsigs, hverify⟩ :=
    TrentService.resolveToken_made h.owned (h.madeBy hh hmade) hm
  obtain ⟨hlen, hget⟩ := List.forall₂_iff_get.mp hverify
  rw [S.parties i, List.length_ofFn] at hlen
  refine ⟨sigs, hsigs, fun j => ⟨hlen.symm, fun k s hs => ?_⟩⟩
  have hsame : Same (S.initial i) (S.initial i) := ⟨rfl, rfl, rfl, rfl, rfl⟩
  obtain ⟨hlt, rfl⟩ := List.getElem?_eq_some_iff.mp hs
  have hk := hget k (by rw [S.parties i, List.length_ofFn]; exact k.isLt) hlt
  rw [h.verify] at hk
  simp only [S.parties i, List.get_eq_getElem, List.getElem_ofFn] at hk
  rw [← roundData_of_same hsame j]
  exact hk

/-- **What an honest party asks passes the checks of Trent**, with any copy of the contract. -/
theorem Served.checks_asked {T : TrentService} (h : S.Served T) (hh : ∀ k, S.honest k = true)
    {i : Fin n} {c : ℤ} {text : String} {sign : SigmaSignature} (hasked : S.Asked i c text sign)
    {contract : SigmaContract} (hparties : contract.parties = (S.contract i).parties)
    (hclauses : contract.clauses = (S.contract i).clauses) :
    T.checks ⟨c, contract, text, some sign⟩ (T.senderKey (S.keys i).publicKey) = .ok true := by
  refine TrentService.checks_iff.mpr ⟨fun h1 => ?_, sign, rfl, ?_⟩
  · obtain ⟨-, ors, hmade, rfl⟩ := hasked.claim h1
    refine ⟨_, h.read ((List.ofFn ors).map some), fun o ho => ?_⟩
    obtain ⟨o', ho', rfl⟩ := List.mem_map.mp ho
    obtain ⟨k, rfl⟩ := List.mem_ofFn.mp ho'
    obtain ⟨nonce, d, hpcs⟩ := hmade k
    have hsame : Same (S.initial k) (S.initial k) := ⟨rfl, rfl, rfl, rfl, rfl⟩
    have hv := getPcs_verifies (hh k) (hh i) hsame hpcs
    have hdata : (S.initial i).contract.roundData c = contract.roundData c := by
      rw [SigmaContract.roundData, SigmaContract.roundData,
        SigmaContract.getHashableData_congr hparties hclauses]
      rfl
    rw [roundData_of_same hsame i, hdata, ← h.hash] at hv
    have hk : k.val < (S.contract i).parties.length := by
      rw [S.parties i, List.length_ofFn]
      exact k.isLt
    have hopens := TrentService.promise_opens h.owned
      ((List.forall₂_iff_get.mp (h.madeBy hh hmade)).2 k.val hk (by simp))
    rw [List.get_eq_getElem, List.getElem_ofFn] at hopens
    exact ⟨ors k, rfl, hv, hopens.1 _⟩
  · obtain ⟨nonce, sCce, d, hsign⟩ := hasked.signed
    show SigmaSigner.verify T.hash ⟨some T.keys, some (T.senderKey (S.keys i).publicKey)⟩ _ sign = _
    rw [h.verify]
    refine verify_of_sign (S.valid i (hh i)) (S.owned i (hh i)) S.trent S.trent hsign ⟨?_, ?_⟩ <;>
      rintro r ⟨⟩ <;> rfl

/-- **From a complete claim everybody can finish**, in every run of honest parties: Trent
takes the request, opening it gives the signatures of all, and whoever is in the signing
step and gets them from Trent, before any other such answer, has a finalized contract that
all have signed. -/
theorem resolution_finalizes (S : Setting n) (hh : ∀ k, S.honest k = true) (hfresh : S.Unsigned)
    (T : TrentService) (hT : S.Served T) (es : List (NetEvent n)) {i : Fin n} {c : ℤ}
    {text : String} {sign : SigmaSignature}
    (hrequest : .request c text sign ∈ (S.machine.run S.initial es i).sent) (h1 : 1 ≤ c) :
    T.checks ⟨c, S.contract i, text, some sign⟩ (T.senderKey (S.keys i).publicKey) = .ok true ∧
    ∀ call : Call, call.m = text → ∃ sigs,
      TrentSolver.resolveToken (T.arbiter (S.contract i)) call = .ok sigs ∧
      ∀ j a, (S.machine.run S.initial es j).signs = true →
        (S.machine.run S.initial es j).Expects T.keys →
        S.Resolves T.keys (S.machine.run S.initial es j) a sigs →
        let p := S.machine.run S.initial (es ++ [.act j (.answer a T.keys.publicKey)]) j
        p.contract.status = .finalized ∧ p.contract.AllSigned S.platform.hash ∧
          p.listening = false := by
  have hupright := run_upright hh hfresh es
  have hasked := (hupright i).requests c text sign hrequest
  obtain ⟨hcn, ors, hmade, rfl⟩ := hasked.claim h1
  have hread := hT.read ((List.ofFn ors).map some)
  have hpk : S.trentK.publicKey = T.keys.publicKey := by
    rw [hT.keys]
    rfl
  refine ⟨hT.checks_asked hh hasked rfl rfl, ?_⟩
  intro call hcall
  have hm : T.toOrs call.m = some ((List.ofFn ors).map some) := by
    rw [hcall]
    exact hread
  obtain ⟨sigs, hsigs, hopens⟩ := hT.opens hh hmade hm
  refine ⟨sigs, hsigs, fun j a hsigns hexpects ha => ?_⟩
  have hopened := hopens j
  have hc := (run_netInv (S := S) es).asked (hh i) (hh j) hrequest hsigns
  have hnext := (hupright j).next_resolves (hh j) hsigns h1 hcn hc hopened hT.valid hT.owned hpk
    hexpects ha
  dsimp only
  rw [Machine.run_concat, next_of_some S (show S.localEvent _ (.act j (.answer a T.keys.publicKey))
    = some (j, .answer a T.keys.publicKey) from rfl), Function.update_self, ← hpk]
  exact hnext

/-! ### Two parties -/

def claimText (ors : List (Option OrClause)) : String := decimal (Encodable.encode ors)

def claimOf (text : String) : Option (List (Option OrClause)) :=
  match Numeral.ofText text with
  | .ok m => Encodable.decode m.toNat
  | .error _ => none

theorem claimOf_claimText (ors : List (Option OrClause)) : claimOf (claimText ors) = some ors := by
  rw [claimOf, claimText, Numeral.ofText_decimal]
  exact Encodable.encodek ors

/-- The two parties, and claims that can be read. -/
def servedSetting : Setting 2 := { sampleSetting with platform := ⟨sha256, claimText⟩ }

def sampleService : TrentService := ⟨sha256, sampleKey 1002, claimOf, fun _ => "answer"⟩

theorem servedSetting_served : servedSetting.Served sampleService where
  keys := rfl
  owned := sampleKey_owned 1002
  hash := rfl
  read := claimOf_claimText

theorem servedSetting_optimistic : servedSetting.Optimistic where
  honest _ := rfl
  wish _ := show Wish.accept ≠ .refuse by decide
  fresh _ _ := rfl

def sampleAsking (es : List (Exchange.Event 2 Draws)) : List (NetEvent 2) :=
  sampleCreated ++ es.map netEvent ++ [.act 0 (.resolve sampleDraws.resolve)]

theorem sampleCreated_exchange (es : List (Exchange.Event 2 Draws)) :
    servedSetting.machine.run servedSetting.initial (sampleCreated ++ es.map netEvent) =
      servedSetting.exchange.run servedSetting.created es := by
  rw [Machine.run_append, run_netEvent, run_sampleCreated]

theorem sampleAsking_run (es : List (Exchange.Event 2 Draws)) {r : ℕ}
    (hr : ((Exchange.machine 2 Draws).run (fun _ => Exchange.Member.initial) es 0).round = r)
    (h4 : r ≤ 4) : ∃ text sign, .request (r - 1) text sign ∈
        (servedSetting.machine.run servedSetting.initial (sampleAsking es) 0).sent ∧
      (servedSetting.machine.run servedSetting.initial (sampleAsking es) 0).Waits ∧
      ∀ j, (servedSetting.machine.run servedSetting.initial (sampleAsking es) j).signs = true := by
  have hS := servedSetting_optimistic
  have hfollows := (run_simulates hS sampleSetting_registered es).follows
  have hupright := run_upright hS.honest hS.fresh (sampleCreated ++ es.map netEvent) 0
  rw [sampleAsking, Machine.run_concat]
  rw [← sampleCreated_exchange] at hfollows
  generalize servedSetting.machine.run servedSetting.initial (sampleCreated ++ es.map netEvent) = s
    at hfollows hupright ⊢
  have hround : (s 0).round = r := by
    rw [(hfollows 0).round, hr]
  have hsigns : ∀ j, (s j).signs = true := by
    intro j
    rw [Party.signs, (hfollows j).phase]
    split <;> rfl
  obtain ⟨text, sign, p', hexec, hrequest, hsigns', hwaits⟩ := hupright.exec_resolve rfl
    (sampleSetting_registered 0) (hsigns 0) (by rw [hround]; push_cast; omega) sampleDraws.resolve
  have hnext : servedSetting.machine.next s (.act 0 (.resolve sampleDraws.resolve)) =
      Function.update s 0 p' := by
    rw [next_of_some servedSetting (show servedSetting.localEvent s
      (.act 0 (.resolve sampleDraws.resolve)) = some (0, .resolve sampleDraws.resolve) from rfl),
      next_resolve (hsigns 0), hexec]
  rw [hround] at hrequest
  rw [hnext, Function.update_self]
  refine ⟨text, sign, hrequest, hwaits, ?_⟩
  exact (Function.forall_update_iff s fun _ p => p.signs = true).mpr ⟨hsigns', fun j _ => hsigns j⟩

theorem sampleAsking_signed (es : List (Exchange.Event 2 Draws)) (k : Fin 2) :
    ((servedSetting.machine.run servedSetting.initial (sampleAsking es) 1).contract.signatures
      (servedSetting.keys k).getPublicKeys).isSome =
        ((Exchange.machine 2 Draws).run (fun _ => Exchange.Member.initial) es 1).signed k := by
  have hfollows := (run_simulates servedSetting_optimistic sampleSetting_registered es).follows 1
  rw [sampleAsking, Machine.run_concat, sampleCreated_exchange,
    next_of_some servedSetting (show servedSetting.localEvent _
      (.act 0 (.resolve sampleDraws.resolve)) = some (0, .resolve sampleDraws.resolve) from rfl),
    Function.update_of_ne (by decide)]
  exact (hfollows.signed k).symm

def sampleAsked : List (NetEvent 2) := sampleAsking sampleStart

/-- **The first party asks in the last round but one**, and gets a finalized contract. -/
theorem resolution_finalizes_sample : ∃ text sign a,
    .request 3 text sign ∈ (servedSetting.machine.run servedSetting.initial sampleAsked 0).sent ∧
    sampleService.checks ⟨3, servedSetting.contract 0, text, some sign⟩
      (sampleService.senderKey (servedSetting.keys 0).publicKey) = .ok true ∧
    (servedSetting.machine.run servedSetting.initial (sampleAsked ++
      [.act 0 (.answer a sampleService.keys.publicKey)]) 0).contract.status = .finalized := by
  have hS := servedSetting_optimistic
  have hround : ((Exchange.machine 2 Draws).run (fun _ => Exchange.Member.initial)
      sampleStart 0).round = 4 :=
    show _ = 4 by decide +kernel
  obtain ⟨text, sign, hrequest, hwaits, hsigns⟩ := sampleAsking_run sampleStart hround le_rfl
  rw [show ((4 : ℕ) : ℤ) - 1 = 3 by decide, ← sampleAsked] at hrequest
  rw [← sampleAsked] at hsigns hwaits
  obtain ⟨hchecks, hopens⟩ := resolution_finalizes servedSetting hS.honest hS.fresh sampleService
    servedSetting_served sampleAsked hrequest (by decide)
  obtain ⟨sigs, -, hfinal⟩ := hopens ⟨text, 3, ⟨0, ""⟩, "", fun _ => 0⟩ rfl
  obtain ⟨s, hs, -⟩ := sampleResolved_genuine
  have hsame := (run_upright hS.honest hS.fresh sampleAsked 0).same
  obtain ⟨a, ha⟩ : ∃ a : TrentAnswer, a = ⟨.ok false, .ok "resolved", .ok "answer",
    fun _ => .ok (some s), some (sigs.map some)⟩ := ⟨_, rfl⟩
  have hgenuine : Party.Genuine servedSetting.platform sampleService.keys (sampleKey 1000) a := by
    rw [ha]
    exact ⟨"answer", s, 7, 8, _, rfl, rfl, hs⟩
  have hkey : (servedSetting.machine.run servedSetting.initial sampleAsked 0).key = sampleKey 1000 :=
    hsame.key
  have htrent : (servedSetting.machine.run servedSetting.initial sampleAsked 0).trentK.publicKey =
      sampleService.keys.publicKey := by
    have hkeys : (servedSetting.initial 0).trentK = sampleService.keys.getPublicKeys :=
      servedSetting_served.keys
    rw [hsame.trentK, hkeys]
    rfl
  rw [← hkey] at hgenuine
  have hresolves : servedSetting.Resolves sampleService.keys _ a sigs :=
    ⟨by rw [ha], hgenuine, by rw [ha], by rw [ha]⟩
  obtain ⟨hstatus, -⟩ := hfinal 0 a (hsigns 0) (hwaits.expects htrent) hresolves
  exact ⟨text, sign, a, hrequest, hchecks, hstatus⟩

end Setting

end SXP.Sigma
