import SXP.Sigma.FirstRound
import SXP.Sigma.Recognition

/-!
# What honest parties have of each other

Where all parties are honest, what a party has of another one was made by it: its
promises, each on the data of its round, and its signatures.  What it has written is
of this kind again, and what it has asked Trent to open is what it has (`Upright`).
-/

namespace SXP.Sigma

open SXP.Lib SXP.Lib.Java SXP.Lib.Text Relation

namespace SigmaContract

variable {hash : List UInt8 → Digest} {c : SigmaContract}

/-- A stored signature that is accepted on some message throws on none. -/
theorem standing_ne_faulty {k : ElGamalKey}
    (h : ∀ s, c.signatures k = some s → ∃ m, (c.signer k).verify hash m s = .ok true) :
    c.standing hash k ≠ .faulty := by
  rw [standing]
  cases hs : c.signatures k with
  | none => simp
  | some s =>
    obtain ⟨m, hm⟩ := h s hs
    have htotal := SigmaSigner.verify_of_accepted hash hm
    have hrounds := any_of_total (p := c.verifiesRound hash k s) (l := c.rounds)
      fun r _ => htotal (c.roundData r)
    dsimp only
    rw [show c.verifiesClear hash k s = _ from htotal c.clearData, hrounds]
    cases verifiesChallenges hash c.clearData s.pcs.a s.pcs.challenges <;>
      cases c.rounds.any fun r => verifiesChallenges hash (c.roundData r) s.pcs.a
        s.pcs.challenges <;> simp

theorem isFinalized_total (h : ∀ k ∈ c.parties, c.standing hash k ≠ .faulty) :
    ∃ b, c.isFinalized hash = .ok b := by
  have hloop : ∀ ks : List ElGamalKey, (∀ k ∈ ks, c.standing hash k ≠ .faulty) →
      ∀ result, ∃ b, c.finalizedLoop hash result ks = .ok b := by
    intro ks
    induction ks with
    | nil => exact fun _ result => ⟨result, rfl⟩
    | cons k ks ih =>
      intro hall result
      have hk := hall k List.mem_cons_self
      have hks := ih fun k' hk' => hall k' (List.mem_cons_of_mem k hk')
      rw [finalizedLoop]
      rw [standing] at hk
      cases hs : c.signatures k with
      | none => exact ⟨false, rfl⟩
      | some s =>
        rw [hs] at hk
        dsimp only at hk ⊢
        rcases hclear : c.verifiesClear hash k s with e | _ | _
        · rw [hclear] at hk
          exact absurd rfl hk
        · rw [hclear] at hk
          rcases hany : Java.any (c.verifiesRound hash k s) c.rounds with e | b
          · rw [hany] at hk
            exact absurd rfl hk
          · simp only [ok_bind, Bool.false_eq_true, if_false]
            exact hks _
        · exact ⟨true, rfl⟩
  rw [isFinalized]
  cases c.trentK with
  | none => exact ⟨false, rfl⟩
  | some t => exact hloop c.parties h false

end SigmaContract

namespace Setting

variable {n : ℕ} {S : Setting n}

open Party

/-! ### What honest parties make -/

def Made (S : Setting n) (k j : Fin n) (round : ℤ) (o : OrClause) : Prop :=
  ∃ nonce d, PCS.getPcs S.platform.hash (S.keys k) S.trentK ((S.initial k).contract.roundData round)
    (S.keys j).getPublicKeys nonce d = .ok o

def Checked (S : Setting n) (k : Fin n) (s : SigmaSignature) : Prop :=
  ∃ m, SigmaSigner.verify S.platform.hash ⟨some S.trentK, some (S.keys k).getPublicKeys⟩ m s
    = .ok true

/-- What a message of the round has for one receiver. -/
def Proper (S : Setting n) (j k : Fin n) (round : ℤ) : Payload → Prop
  | .promise o => S.Made j k round o
  | .signature s => S.Checked j s

/-- A request of the party claims the promises of all for its round, or is an abort, and is
signed. -/
structure Asked (S : Setting n) (j : Fin n) (c : ℤ) (text : String) (s : SigmaSignature) : Prop where
  claim : 1 ≤ c → c ≤ n + 1 ∧ ∃ ors : Fin n → OrClause, (∀ k, S.Made k j c (ors k)) ∧
    text = S.platform.json ((List.ofFn ors).map some)
  abort : c < 1 → text = "ABORT"
  signed : ∃ nonce sCce d, SigmaSigner.sign S.platform.hash ⟨some S.trentK, some S.trentK⟩
    (S.keys j) (getBytes text) nonce sCce d = .ok s

/-- **What an honest party has of the others** was made by them. -/
structure Upright (S : Setting n) (j : Fin n) (p : Party) : Prop where
  same : Same (S.initial j) p
  ready : p.Ready
  rounds : RoundInv S.platform p
  signer : p.phase ≠ .choosing → p.signer.trentK = some S.trentK
  promises : ∀ (r : ℤ) (k : Fin n) (o : OrClause), p.roundReceived r k = some o → S.Made k j r o
  signatures : ∀ k s, p.contract.signatures (S.keys k).getPublicKeys = some s → S.Checked k s
  written : ∀ r content, .signing r content ∈ p.sent →
    ∀ e ∈ content, ∃ k, e.1 = (S.keys k).publicKey ∧ S.Proper j k r e.2
  requests : ∀ c text s, .request c text s ∈ p.sent → S.Asked j c text s

/-- No party has signed before the first step. -/
def Unsigned (S : Setting n) : Prop :=
  ∀ j k, (S.contract j).signatures (S.keys k).getPublicKeys = none

theorem initial_upright (hfresh : S.Unsigned) (j : Fin n) : S.Upright j (S.initial j) where
  same := ⟨rfl, rfl, rfl, rfl, rfl⟩
  ready h := absurd h Bool.false_ne_true
  rounds := initial_roundInv _ _ _ _
  signer h := absurd rfl h
  promises _ _ _ h := absurd h (by simp [initial, Party.initial])
  signatures k s h := by
    have hnone : (S.initial j).contract.signatures (S.keys k).getPublicKeys = none := hfresh j k
    rw [hnone] at h
    exact absurd h (by simp)
  written _ _ h := absurd h List.not_mem_nil
  requests _ _ _ h := absurd h List.not_mem_nil

section

variable {j : Fin n} {p p' : Party}

/-! ### Single writes -/

/-- A write that leaves promises, signatures and messages alone. -/
theorem Upright.write (hp : S.Upright j p) (hj : S.honest j = true)
    (h : Writes S.platform (fun _ _ => True) p p')
    (hsigner : p'.phase ≠ .choosing → p'.signer.trentK = some S.trentK)
    (hreceived : p'.roundReceived = p.roundReceived)
    (hsignatures : p'.contract.signatures = p.contract.signatures) (hsent : p'.sent = p.sent) :
    S.Upright j p' where
  same := hp.same.trans h.same
  ready := h.ready hp.ready
  rounds := h.roundInv (ownPromises hj hp.same) hp.rounds
  signer := hsigner
  promises := by
    rw [hreceived]
    exact hp.promises
  signatures := by
    rw [hsignatures]
    exact hp.signatures
  written := by
    rw [hsent]
    exact hp.written
  requests := by
    rw [hsent]
    exact hp.requests

theorem Upright.signed (hp : S.Upright j p) (h : p.signs = true) :
    p.signer.trentK = some S.trentK := by
  refine hp.signer fun hphase => ?_
  rw [Party.signs, hphase] at h
  exact absurd h (by decide)

theorem Upright.status (hp : S.Upright j p) (hj : S.honest j = true) {st : Status}
    (hst : st ≠ .signing) : S.Upright j (p.setStatus st) :=
  hp.write hj (.status p st hst) hp.signer rfl rfl rfl

theorem Upright.deaf (hp : S.Upright j p) (hj : S.honest j = true) :
    S.Upright j { p with listening := false } :=
  hp.write hj (.deaf p) hp.signer rfl rfl rfl

theorem Upright.stop (hp : S.Upright j p) (hj : S.honest j = true) : S.Upright j p.stop := by
  unfold Party.stop
  split
  · exact hp.deaf hj
  · exact hp

theorem Upright.setReceiverK (hp : S.Upright j p) (hj : S.honest j = true) (k : ElGamalKey) :
    S.Upright j (p.setReceiverK k) :=
  hp.write hj (.signer p ⟨p.signer.trentK, some k⟩) hp.signer rfl rfl rfl

theorem Upright.setTrentK (hp : S.Upright j p) (hj : S.honest j = true) :
    S.Upright j (p.setTrentK p.trentK) := by
  refine hp.write hj (.signer p ⟨some p.trentK, p.signer.receiverK⟩) (fun _ => ?_) rfl rfl rfl
  exact congrArg some hp.same.trentK

theorem Upright.setPromise (hp : S.Upright j p) {r : ℤ} {k : Fin n} {o : OrClause}
    (hv : o.verifies S.platform.hash (p.contract.roundData r) = .ok true) (ho : S.Made k j r o) :
    S.Upright j (p.setPromise r k o) where
  same := ⟨hp.same.key, hp.same.trentK, hp.same.parties, hp.same.clauses, hp.same.contractTrentK⟩
  ready := hp.ready
  rounds := hp.rounds.setPromise hv
  signer := hp.signer
  promises r' k' o' h := by
    rcases setPromise_cases h with ⟨rfl, hk, rfl⟩ | hold
    · rwa [Fin.ext hk]
    · exact hp.promises r' k' o' hold
  signatures := hp.signatures
  written := hp.written
  requests := hp.requests

theorem Upright.exec_addSignature (hp : S.Upright j p) (hj : S.honest j = true) {k : Fin n}
    {s : SigmaSignature} (hs : S.Checked k s) :
    ∃ st, (Party.addSignature S.platform (S.keys k).getPublicKeys s).exec p = (.ok (),
        p.setContract { p.contract.putSignature (S.keys k).getPublicKeys s with status := st }) ∧
      S.Upright j (p.setContract
        { p.contract.putSignature (S.keys k).getPublicKeys s with status := st }) := by
  have hsignatures : ∀ k' s', (p.contract.putSignature (S.keys k).getPublicKeys s).signatures
      (S.keys k').getPublicKeys = some s' → S.Checked k' s' := by
    intro k' s' hs'
    rw [putSignature_apply] at hs'
    by_cases hk : k' = k
    · rw [if_pos hk, Option.some.injEq] at hs'
      rw [hk, ← hs']
      exact hs
    · rw [if_neg hk] at hs'
      exact hp.signatures k' s' hs'
  obtain ⟨b, hb⟩ : ∃ b, (p.contract.putSignature (S.keys k).getPublicKeys s).isFinalized
      S.platform.hash = .ok b := SigmaContract.isFinalized_total (by
    intro key hkey
    have hmem : key ∈ p.contract.parties := hkey
    rw [parties_of_same hp.same, List.mem_ofFn] at hmem
    obtain ⟨k', rfl⟩ := hmem
    refine SigmaContract.standing_ne_faulty fun s' hs' => ?_
    have htrent : (p.contract.putSignature (S.keys k).getPublicKeys s).trentK = some S.trentK :=
      hp.same.contractTrentK
    rw [SigmaContract.signer, htrent]
    exact hsignatures k' s' hs')
  have hmem : (S.keys k).getPublicKeys ∈ p.contract.parties :=
    List.mem_of_getElem? (mem_parties hp.same k)
  have hexec := Party.exec_addSignature (P := S.platform) (S.keys k).getPublicKeys s p
  have hwrite : Writes S.platform (fun _ _ => True) p _ :=
    .signature p (S.keys k).getPublicKeys s
  rw [SigmaContract.addSignature_of_mem _ hmem, hb] at hexec hwrite
  have hupright : ∀ st, Writes S.platform (fun _ _ => True) p (p.setContract
      { p.contract.putSignature (S.keys k).getPublicKeys s with status := st }) →
      S.Upright j (p.setContract
        { p.contract.putSignature (S.keys k).getPublicKeys s with status := st }) := by
    intro st hw
    exact ⟨hp.same.trans hw.same, hw.ready hp.ready, hw.roundInv (ownPromises hj hp.same) hp.rounds,
      hp.signer, hp.promises, hsignatures, hp.written, hp.requests⟩
  cases b with
  | true => exact ⟨.finalized, hexec, hupright _ hwrite⟩
  | false => exact ⟨p.contract.status, hexec, hupright _ hwrite⟩

theorem Upright.send (hp : S.Upright j p) (hj : S.honest j = true) {m : Outgoing}
    (h : Writes S.platform (fun _ _ => True) p (p.send m))
    (hwritten : ∀ r content, m = .signing r content →
      ∀ e ∈ content, ∃ k, e.1 = (S.keys k).publicKey ∧ S.Proper j k r e.2)
    (hrequest : ∀ c text s, m = .request c text s → S.Asked j c text s) :
    S.Upright j (p.send m) where
  same := hp.same.trans h.same
  ready := h.ready hp.ready
  rounds := h.roundInv (ownPromises hj hp.same) hp.rounds
  signer := hp.signer
  promises := hp.promises
  signatures := hp.signatures
  written r content hmem := by
    rcases List.mem_append.mp hmem with hold | hnew
    · exact hp.written r content hold
    · exact hwritten r content (List.mem_singleton.mp hnew).symm
  requests c text s hmem := by
    rcases List.mem_append.mp hmem with hold | hnew
    · exact hp.requests c text s hold
    · exact hrequest c text s (List.mem_singleton.mp hnew).symm

/-! ### Requests -/

/-- The row of a round that is past has a promise of every party. -/
theorem Upright.row (hp : S.Upright j p) {c : ℤ} (h1 : 1 ≤ c) (hc : c < p.round) :
    ∃ ors : Fin n → OrClause, (∀ k, S.Made k j c (ors k)) ∧
      (List.range p.N).map (p.roundReceived c) = (List.ofFn ors).map some := by
  have hN := N_of_same hp.same
  have hsome : ∀ k : Fin n, ∃ o, p.roundReceived c k = some o :=
    fun k => hp.rounds.formed c h1 hc k (by rw [hN]; exact k.isLt)
  choose ors hors using hsome
  refine ⟨ors, fun k => hp.promises c k (ors k) (hors k), ?_⟩
  refine List.ext_getElem (by simp [hN]) fun i hi _ => ?_
  rw [List.length_map, List.length_range, hN] at hi
  simpa using hors ⟨i, hi⟩

/-- **What is claimed is made by the parties.** -/
theorem Upright.resolve_sendMessage (hp : S.Upright j p) (hj : S.honest j = true)
    (hs : p.signs = true) (d : SignDraws) :
    S.Upright j ((ProtocolResolve.sendMessage S.platform d).exec p).2 := by
  unfold ProtocolResolve.sendMessage
  simp only [Act.exec_modify_bind, Act.exec_get_bind]
  have hround : (p.setStatus .resolving).getRound = p.round := if_pos hs
  have hstop : (p.setStatus .resolving).stop =
      { p.setStatus .resolving with listening := false } := if_pos hs
  have hq := (hp.status hj (show Status.resolving ≠ .signing by decide)).stop hj
  rw [hround]
  rw [hstop] at hq ⊢
  have hsigner := hq.setReceiverK hj p.trentK
  apply Act.after_lift hsigner
  intro claimK hclaim
  apply Act.after_lift hsigner
  intro sigClaimK hsign
  rw [Act.exec_modify]
  refine hsigner.send hj (.request _ claimK sigClaimK hs rfl) (fun _ _ h => absurd h (by simp)) ?_
  intro c text s h
  obtain ⟨rfl, rfl, rfl⟩ := Outgoing.request.inj h
  refine ⟨fun h1 => ?_, fun h1 => ?_, ?_⟩
  · obtain ⟨ors, hmade, hrow⟩ := hp.row h1 (by omega)
    rw [ProtocolResolve.claim, if_neg (by omega), ProtocolResolve.row] at hclaim
    have hsigns : (p.setStatus .resolving).signs = true := hs
    have hN : p.N = n := N_of_same hp.same
    rw [hsigns, Bool.not_true, if_neg Bool.false_ne_true,
      show (p.setStatus .resolving).N = n from hN] at hclaim
    by_cases hrange : p.round - 1 < 0 ∨ (n : ℤ) + 2 ≤ p.round - 1
    · rw [if_pos hrange] at hclaim
      exact absurd hclaim (by simp)
    · rw [if_neg hrange] at hclaim
      rw [N_of_same hp.same] at hrow
      refine ⟨by omega, ors, hmade, ?_⟩
      rw [← hrow]
      exact (Except.ok.inj hclaim).symm
  · rw [ProtocolResolve.claim, if_pos (by omega)] at hclaim
    exact (Except.ok.inj hclaim).symm
  · have hkey : p.key = S.keys j := hp.same.key
    have htrent : p.trentK = S.trentK := hp.same.trentK
    have hmade : SigmaSigner.sign S.platform.hash ⟨p.signer.trentK, some p.trentK⟩ p.key
        (getBytes claimK) d.1 d.2.1 d.2.2 = .ok sigClaimK := hsign
    rw [hp.signed hs, htrent, hkey] at hmade
    exact ⟨d.1, d.2.1, d.2.2, hmade⟩

/-! ### Messages -/

theorem Upright.payload (hp : S.Upright j p) (hh : ∀ k, S.honest k = true) (d : Draws) (k : Fin n) :
    S.Upright j ((ProtocolSign.payload S.platform d ((S.keys k).getPublicKeys, k.val)).exec p).2 ∧
    ∀ e p', (ProtocolSign.payload S.platform d ((S.keys k).getPublicKeys, k.val)).exec p
        = (.ok e, p') →
      e.1 = (S.keys k).publicKey ∧ S.Proper j k p.round e.2 ∧ p'.round = p.round := by
  have hkey : p.key = S.keys j := hp.same.key
  have htrent : p.trentK = S.trentK := hp.same.trentK
  have hown : (S.keys k).getPublicKeys.publicKey = p.key.publicKey → k = j := by
    rw [hkey]
    exact fun h => S.distinct h
  by_cases hr : p.round = p.N + 2
  · unfold ProtocolSign.payload
    rw [Act.exec_get_bind]
    dsimp only
    rw [if_pos hr, hkey, htrent]
    rcases hs : SigmaSigner.sign S.platform.hash ⟨some S.trentK, some (S.keys k).getPublicKeys⟩
      (S.keys j) p.contract.getHashableData (d.sign p.round k.val).1 (d.sign p.round k.val).2.1
      (d.sign p.round k.val).2.2 with e | s
    · rw [Act.exec_error_bind]
      exact ⟨hp, fun _ _ h => absurd (congrArg Prod.fst h) (by simp)⟩
    · have hchecked : S.Checked j s := by
        refine ⟨p.contract.getHashableData, ?_⟩
        refine verify_of_sign (S.valid j (hh j)) (S.owned j (hh j)) S.trent
          (S.valid k (hh k)).getPublicKeys hs ⟨?_, ?_⟩ <;> rintro r ⟨⟩ <;> rfl
      rw [Act.exec_ok_bind]
      by_cases hkj : k = j
      · subst hkj
        obtain ⟨st, hexec, hupright⟩ := hp.exec_addSignature (hh k) hchecked
        have hbeq : ((S.keys k).getPublicKeys.publicKey == (S.keys k).publicKey) = true :=
          beq_iff_eq.mpr rfl
        rw [hbeq, if_pos rfl, Act.exec_bind_ok hexec, Act.exec_pure]
        refine ⟨hupright, fun e p' h => ?_⟩
        obtain ⟨he, rfl⟩ := Prod.mk.inj h
        obtain rfl := Except.ok.inj he
        exact ⟨rfl, hchecked, rfl⟩
      · have hbeq : ((S.keys k).getPublicKeys.publicKey == (S.keys j).publicKey) = false :=
          beq_eq_false_iff_ne.mpr fun h => hkj (S.distinct h)
        rw [hbeq, if_neg Bool.false_ne_true]
        refine ⟨hp, fun e p' h => ?_⟩
        obtain ⟨he, rfl⟩ := Prod.mk.inj h
        obtain rfl := Except.ok.inj he
        exact ⟨rfl, hchecked, rfl⟩
  · rw [exec_payload_promise hr]
    rcases ho : PCS.getPcs S.platform.hash p.key p.trentK (p.contract.roundData p.round)
      (S.keys k).getPublicKeys (d.sign p.round k.val).1 (d.sign p.round k.val).2.2 with e | o
    · exact ⟨hp, fun _ _ h => absurd (congrArg Prod.fst h) (by simp)⟩
    · have hv := getPcs_verifies (hh j) (hh k) hp.same ho
      have hmade : S.Made j k p.round o := by
        rw [hkey, htrent, roundData_of_same hp.same j] at ho
        exact ⟨_, _, ho⟩
      dsimp only
      refine ⟨?_, fun e p' h => ?_⟩
      · split
        · rename_i hsame
          obtain rfl := hown hsame
          exact hp.setPromise hv hmade
        · exact hp
      · obtain ⟨he, rfl⟩ := Prod.mk.inj h
        obtain rfl := Except.ok.inj he
        refine ⟨rfl, hmade, ?_⟩
        split <;> rfl

theorem Upright.sendMessage (hp : S.Upright j p) (hh : ∀ k, S.honest k = true)
    (hs : p.signs = true) (d : Draws) :
    S.Upright j ((ProtocolSign.sendMessage S.platform d).exec p).2 := by
  have hmem : ∀ rk ∈ p.contract.parties.zipIdx,
      ∃ k : Fin n, rk = ((S.keys k).getPublicKeys, k.val) := by
    rintro ⟨key, i⟩ hrk
    obtain ⟨k, rfl, rfl⟩ := (getElem?_of_same hp.same).mp (List.mem_zipIdx_iff_getElem?.mp hrk)
    exact ⟨k, rfl⟩
  unfold ProtocolSign.sendMessage
  rw [Act.exec_get_bind]
  by_cases hw : p.contract.wish = .refuse
  · rw [if_pos hw]
    exact hp.resolve_sendMessage (hh j) hs d.resolve
  rw [if_neg hw]
  have hloop : S.Upright j
      ((p.contract.parties.zipIdx.mapM (ProtocolSign.payload S.platform d)).exec p).2 := by
    refine Act.keeps_mapM (R := fun q q' => S.Upright j q → S.Upright j q') (fun _ h => h)
      (fun _ _ _ h h' hq => h' (h hq)) ?_ p hp
    intro rk hrk q hq
    obtain ⟨k, rfl⟩ := hmem rk hrk
    exact (hq.payload hh d k).1
  have hsilent : Party.Silent S.platform (fun _ _ => True) p
      ((p.contract.parties.zipIdx.mapM (ProtocolSign.payload S.platform d)).exec p).2 :=
    payloads_writes p d
  have hsigns := hsilent.evolves.signs hs
  have hreturns : ∀ content q, (p.contract.parties.zipIdx.mapM
      (ProtocolSign.payload S.platform d)).exec p = (.ok content, q) →
      q.round = p.round ∧ ∀ e ∈ content, ∃ k, e.1 = (S.keys k).publicKey ∧
        S.Proper j k p.round e.2 := by
    intro content q hexec
    obtain ⟨⟨-, hround⟩, -, hall⟩ := Act.mapM_returns
      (I := fun _ q => S.Upright j q ∧ q.round = p.round)
      (R := fun _ e => ∃ k, e.1 = (S.keys k).publicKey ∧ S.Proper j k p.round e.2)
      (by
        rintro i rk hrk q e q' ⟨hq, hround⟩ hexec
        obtain ⟨k, rfl⟩ := hmem rk (List.mem_of_getElem? hrk)
        obtain ⟨hkept, hentry⟩ := hq.payload hh d k
        obtain ⟨hkey, hproper, hround'⟩ := hentry e q' hexec
        rw [hexec] at hkept
        rw [hround] at hproper
        exact ⟨⟨hkept, hround'.trans hround⟩, k, hkey, hproper⟩)
      ⟨hp, rfl⟩ hexec
    refine ⟨hround, fun e he => ?_⟩
    obtain ⟨-, -, hproper⟩ := hall e he
    exact hproper
  apply Act.after_bind
  · exact fun _ _ => hloop
  intro content hcontent
  generalize hq : ((p.contract.parties.zipIdx.mapM (ProtocolSign.payload S.platform d)).exec p).2 = q
    at hloop hsigns
  obtain ⟨hround, hproper⟩ := hreturns content q (Prod.ext hcontent hq)
  rw [Act.exec_get_bind]
  apply Act.after_lift hloop
  intro _ _
  rw [Act.exec_modify]
  refine hloop.send (hh j) (.signing q content hsigns) ?_ fun _ _ _ h => absurd h (by simp)
  intro r content' h
  obtain ⟨rfl, rfl⟩ := Outgoing.signing.inj h
  rw [hround]
  exact hproper

theorem Upright.sendRounds (hh : ∀ k, S.honest k = true) (d : Draws) (left : ℕ)
    (hp : S.Upright j p) (hs : p.signs = true) :
    S.Upright j ((ProtocolSign.sendRounds S.platform d left).exec p).2 := by
  induction left generalizing p with
  | zero => exact hp
  | succ left ih =>
    rw [ProtocolSign.sendRounds, Act.exec_get_bind]
    split
    · rename_i hc
      obtain ⟨hr, hformed, hst⟩ := hc
      rw [Act.exec_modify_bind]
      have hnext : S.Upright j { p with round := p.round + 1 } :=
        hp.write (hh j) (.next p hs hr hformed hst) hp.signer rfl rfl rfl
      have hchain : Evolves S.platform (fun _ _ => True) { p with round := p.round + 1 }
          ((ProtocolSign.sendMessage S.platform d).exec { p with round := p.round + 1 }).2 :=
        sign_sendMessage_writes (p := { p with round := p.round + 1 }) hs d
      apply Act.after_bind
      · exact fun _ _ => hnext.sendMessage hh hs d
      · exact fun _ _ => ih (hnext.sendMessage hh hs d) (hchain.signs hs)
    · exact hp

def Honestly (S : Setting n) (i j : Fin n) (message : SignMessage) : Prop :=
  ∀ r, message.round = .ok r →
    (∀ o, message.promise (S.keys j).publicKey = .ok (some o) → S.Made i j r o) ∧
    ∀ s, message.signature (S.keys j).publicKey = .ok (some s) → S.Checked i s

theorem Upright.receiveSignature (hp : S.Upright j p) (hj : S.honest j = true) {i : Fin n}
    {message : SignMessage} (hmessage : ∀ s, message.signature (S.keys j).publicKey = .ok (some s) →
      S.Checked i s) :
    S.Upright j ((ProtocolSign.receiveSignature S.platform i message).exec p).2 := by
  have hkey : p.key = S.keys j := hp.same.key
  unfold ProtocolSign.receiveSignature
  rw [Act.exec_get_bind, hkey]
  apply Act.after_lift hp
  intro signature hsignature
  cases signature with
  | none => exact hp
  | some s =>
    dsimp only
    apply Act.after_lift hp
    intro b _
    cases b with
    | false => exact hp
    | true =>
      simp only [if_true]
      apply Act.after_lift hp
      intro k hk
      rw [party_eq_ok, mem_parties hp.same i, Option.some.injEq] at hk
      subst hk
      obtain ⟨st, hexec, hupright⟩ := hp.exec_addSignature hj (hmessage s hsignature)
      rw [Act.exec_bind_ok hexec, Act.exec_get_bind]
      apply Act.after_lift hupright
      intro b _
      cases b with
      | false => exact hupright
      | true =>
        simp only [if_true]
        apply Act.after_lift hupright
        intro _ _
        rw [Act.exec_modify_bind, Act.exec_modify]
        exact (hupright.status hj (show Status.finalized ≠ .signing by decide)).deaf hj

theorem Upright.verifyAndStore (hp : S.Upright j p) (hj : S.honest j = true)
    {message : SignMessage} {senderId : ℤ}
    (hmessage : ∀ i, (S.keys i).publicKey = senderId → S.Honestly i j message) :
    S.Upright j ((ProtocolSign.verifyAndStoreSignature S.platform message senderId).exec p).2 := by
  have hkey : p.key = S.keys j := hp.same.key
  unfold ProtocolSign.verifyAndStoreSignature
  rw [Act.exec_get_bind]
  apply Act.after_lift hp
  intro i hi
  obtain ⟨i, rfl, hsender⟩ := (indexOf_of_same hp.same).mp hi
  apply Act.after_lift hp
  intro r hr
  obtain ⟨hpromise, hsignature⟩ := hmessage i hsender r hr
  split
  · exact hp
  · split
    · exact hp.receiveSignature hj hsignature
    · rcases receivePromise_state (P := S.platform) p i r message with
        hsame | ⟨o, -, -, ho, hv, hstored⟩
      · rwa [hsame]
      · rw [hstored]
        rw [hkey] at ho
        exact hp.setPromise hv (hpromise o ho)

/-! ### Answers -/

theorem Upright.addResolved (hp : S.Upright j p) (hj : S.honest j = true)
    (htrent : p.signer.trentK = some S.trentK) (round : ℤ) (si : Option SigmaSignature × ℕ) :
    S.Upright j ((ProtocolResolve.addResolved S.platform round si).exec p).2 ∧
      ((ProtocolResolve.addResolved S.platform round si).exec p).2.signer.trentK
        = some S.trentK := by
  unfold ProtocolResolve.addResolved
  rw [Act.exec_get_bind]
  rcases hk : p.party si.2 with e | k
  · rw [Act.exec_error_bind]
    exact ⟨hp, htrent⟩
  obtain ⟨k, -, rfl⟩ := (getElem?_of_same hp.same).mp (party_eq_ok.mp hk)
  rw [Act.exec_ok_bind, Act.exec_modify_bind, Act.exec_get_bind]
  have hset := hp.setReceiverK hj (S.keys k).getPublicKeys
  have htrent' : (p.setReceiverK (S.keys k).getPublicKeys).signer.trentK = some S.trentK := htrent
  rcases si.1 with _ | s
  · rw [nonNull_none, Act.exec_error_bind]
    exact ⟨hset, htrent'⟩
  rw [nonNull_some, Act.exec_ok_bind]
  rcases haccepts : ProtocolResolve.accepts S.platform
    (p.setReceiverK (S.keys k).getPublicKeys).signer
    (p.setReceiverK (S.keys k).getPublicKeys).contract round s with e | _ | _
  · rw [Act.exec_error_bind]
    exact ⟨hset, htrent'⟩
  · exact ⟨hset, htrent'⟩
  · have hchecked : S.Checked k s := by
      obtain ⟨r, -, hr⟩ := exists_of_any haccepts
      refine ⟨p.contract.roundData r, ?_⟩
      rw [← htrent]
      exact hr
    obtain ⟨st, hexec, hupright⟩ := hset.exec_addSignature hj hchecked
    rw [Act.exec_ok_bind, if_pos rfl, hexec]
    exact ⟨hupright, htrent'⟩

theorem Upright.answered (hp : S.Upright j p) (hj : S.honest j = true) (a : TrentAnswer)
    (senderId : ℤ) : S.Upright j ((ProtocolResolve.answered S.platform a senderId).exec p).2 := by
  unfold ProtocolResolve.answered
  rw [Act.exec_get_bind]
  split
  · apply Act.after_lift hp
    intro dishonest _
    cases dishonest with
    | true => exact hp
    | false =>
      simp only [Bool.false_eq_true, if_false, Act.exec_modify_bind, Act.exec_get_bind]
      have hset := hp.setTrentK hj
      have htrent : (p.setTrentK p.trentK).signer.trentK = some S.trentK :=
        congrArg some hp.same.trentK
      generalize p.setTrentK p.trentK = q at hset htrent
      apply Act.after_lift hset
      intro b _
      cases b with
      | false => exact hset
      | true =>
        simp only [if_true]
        unfold ProtocolResolve.verdict
        apply Act.after_lift hset
        intro kind _
        split
        · unfold ProtocolResolve.aborted
          rw [Act.exec_modify_bind, Act.exec_modify]
          exact (hset.status hj (show Status.cancelled ≠ .signing by decide)).stop hj
        · split
          · unfold ProtocolResolve.resolved
            rw [Act.exec_get_bind]
            apply Act.after_lift hset
            intro sigSign _
            have hloop := Act.keeps_forM (f := ProtocolResolve.addResolved S.platform q.getRound)
              (l := sigSign.zipIdx)
              (R := fun q q' => S.Upright j q ∧ q.signer.trentK = some S.trentK →
                S.Upright j q' ∧ q'.signer.trentK = some S.trentK) (fun _ h => h)
              (fun _ _ _ h h' hq => h' (h hq))
              (fun si _ q hq => hq.1.addResolved hj hq.2 _ si) q ⟨hset, htrent⟩
            apply Act.after_bind
            · exact fun _ _ => hloop.1
            intro _ _
            rw [Act.exec_get_bind]
            apply Act.after_lift hloop.1
            intro b _
            cases b with
            | false => exact hloop.1
            | true =>
              simp only [if_true]
              rw [Act.exec_modify_bind, Act.exec_modify]
              exact (hloop.1.status hj (show Status.finalized ≠ .signing by decide)).stop hj
          · exact hset
  · exact hp

/-- **Every event keeps it.** -/
theorem Upright.next (hp : S.Upright j p) (hh : ∀ k, S.honest k = true) {e : Event}
    (he : ∀ message senderId d, e = .receive message senderId d →
      ∀ i, (S.keys i).publicKey = senderId → S.Honestly i j message) :
    S.Upright j ((Party.machine S.platform).next p e) := by
  have hj := hh j
  have htakes := takes_next (P := S.platform) p e
  generalize (Party.machine S.platform).next p e = p' at htakes ⊢
  cases htakes with
  | ignored => exact hp
  | listen hphase =>
    exact hp.write hj (.listen p hphase) (fun _ => congrArg some hp.same.trentK) rfl rfl rfl
  | create hphase =>
    have hw : Writes S.platform (fun _ _ => True) p _ := .create p hphase
    refine ⟨hp.same.trans hw.same, hw.ready hp.ready, hw.roundInv (ownPromises hj hp.same) hp.rounds,
      fun _ => hp.signer (by rw [hphase]; decide), fun _ _ _ h => absurd h (by simp),
      hp.signatures, hp.written, hp.requests⟩
  | start d hphase =>
    have hstart : S.Upright j { p with phase := .running } :=
      hp.write hj (.start p hphase) (fun _ => hp.signer (by rw [hphase]; decide)) rfl rfl rfl
    exact hstart.sendMessage hh rfl d
  | receive message senderId d hl =>
    unfold ProtocolSign.received
    have hstored := hp.verifyAndStore hj (he message senderId d rfl)
    have hstore : Silent S.platform (fun _ _ => True) p
        ((ProtocolSign.verifyAndStoreSignature S.platform message senderId).exec p).2 :=
      verifyAndStoreSignature_writes fun _ _ _ _ _ => trivial
    apply Act.after_bind
    · exact fun _ _ => hstored
    · intro _ _
      rw [Act.exec_get_bind]
      exact Upright.sendRounds hh d _ hstored (hstore.evolves.signs (hp.ready hl))
  | answer a senderId => exact hp.answered hj a senderId
  | resolve d hs => exact hp.resolve_sendMessage hj hs d
  | setWish w => exact hp.write hj (.wish p w) hp.signer rfl rfl rfl

/-! ### All parties -/

theorem Upright.honestly {i : Fin n} (hp : S.Upright i p) {r : ℤ} {content : List (ℤ × Payload)}
    (hmem : .signing r content ∈ p.sent) (j : Fin n) : S.Honestly i j (.ofContent r content) := by
  intro r' hr
  obtain rfl : r = r' := Except.ok.inj hr
  have hentry : ∀ payload, entry content (S.keys j).publicKey = some payload →
      S.Proper i j r payload := by
    intro payload h
    rw [entry, Option.map_eq_some_iff] at h
    obtain ⟨e, he, rfl⟩ := h
    have hpk : (e.1 == (S.keys j).publicKey) = true :=
      List.find?_some (p := fun e : ℤ × Payload => e.1 == (S.keys j).publicKey) he
    obtain ⟨k, hk, hproper⟩ :=
      hp.written r content hmem e (List.mem_reverse.mp (List.mem_of_find?_eq_some he))
    obtain rfl := S.distinct (hk.symm.trans (beq_iff_eq.mp hpk))
    exact hproper
  refine ⟨fun o ho => ?_, fun s hs => ?_⟩
  · simp only [SignMessage.ofContent] at ho
    split at ho
    · rename_i o' h
      obtain rfl := Option.some.inj (Except.ok.inj ho)
      exact hentry _ h
    · exact absurd ho (by simp)
    · exact absurd ho (by simp)
  · simp only [SignMessage.ofContent] at hs
    split at hs
    · rename_i s' h
      obtain rfl := Option.some.inj (Except.ok.inj hs)
      exact hentry _ h
    · exact absurd hs (by simp)
    · exact absurd hs (by simp)

end

theorem next_upright (hh : ∀ k, S.honest k = true) {s : Fin n → Party}
    (hs : ∀ j, S.Upright j (s j)) (e : NetEvent n) (j : Fin n) :
    S.Upright j (S.machine.next s e j) := by
  cases hlocal : S.localEvent s e with
  | none =>
    rw [next_of_none S hlocal]
    exact hs j
  | some je =>
    obtain ⟨j', e'⟩ := je
    rw [next_of_some S hlocal]
    by_cases hj : j = j'
    · subst hj
      rw [Function.update_self]
      refine (hs j).next hh ?_
      rintro message senderId d rfl i hi
      cases e with
      | act j₀ e =>
        cases e with
        | receive message' senderId' d' =>
          simp only [localEvent] at hlocal
          by_cases hf : S.Foreign senderId'
          · rw [if_pos hf, Option.some.injEq, Prod.mk.injEq, Event.receive.injEq] at hlocal
            obtain ⟨-, -, rfl, -⟩ := hlocal
            exact absurd hi (hf i (hh i))
          · rw [if_neg hf] at hlocal
            exact absurd hlocal (by simp)
        | _ => simp [localEvent] at hlocal
      | deliver i₀ j₀ m d' =>
        simp only [localEvent] at hlocal
        rcases hm : (s i₀).sent[m]? with _ | ⟨round, content⟩ | _
        · simp [hm] at hlocal
        · simp only [hm, Option.some.injEq, Prod.mk.injEq, Event.receive.injEq] at hlocal
          obtain ⟨-, rfl, hsender, -⟩ := hlocal
          obtain rfl : i = i₀ := S.distinct (hi.trans hsender.symm)
          exact (hs i).honestly (List.mem_of_getElem? hm) j
        · simp [hm] at hlocal
    · rw [Function.update_of_ne hj]
      exact hs j

theorem run_upright (hh : ∀ k, S.honest k = true) (hfresh : S.Unsigned) (es : List (NetEvent n)) :
    ∀ j, S.Upright j (S.machine.run S.initial es j) :=
  S.machine.invariant (I := fun s => ∀ j, S.Upright j (s j)) (initial_upright hfresh)
    (fun _ e hs => next_upright hh hs e) es

end Setting

end SXP.Sigma
