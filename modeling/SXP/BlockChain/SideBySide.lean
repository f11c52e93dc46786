import SXP.BlockChain.Establisher

/-!
# Two establishers side by side

What an establisher sends does not depend on the status of its contract, on what has been checked,
or on who else is behind the objects that are keys of the signatures.  Two establishers that differ
in nothing else do the same.
-/

namespace SXP.BlockChain

open SXP.Lib SXP.Lib.Java

/-! ### Two contracts side by side -/

namespace BlockChainContract

open Act (Alike Sides)

variable {P : Platform}

/-- The contracts differ in their status, and in what has been checked; the keys of the signatures
are the same objects. -/
structure Same (c c' : BlockChainContract) : Prop where
  id : c.id = c'.id
  date : c.date = c'.date
  parties : c.parties = c'.parties
  clauses : c.clauses = c'.clauses
  signatures : c.signatures.map (fun e => (e.1.ref, e.2)) =
    c'.signatures.map fun e => (e.1.ref, e.2)
  hasSignatures : c.hasSignatures = c'.hasSignatures
  signer : c.signer = c'.signer
  initialized : c.signer.isSome = true

/-- There is something to compare with in both of them, or in none. -/
structure Comparable (P : Platform) (c c' : BlockChainContract) : Prop where
  clauses : c.clauses.isNone = c'.clauses.isNone
  digest : Alike (fun _ _ => True) (c.getHashableData P) (c'.getHashableData P)

theorem signature_eq (c : BlockChainContract) (k : EthereumKey) : c.signature k =
    ((c.signatures.map fun e => (e.1.ref, e.2)).find? fun e => e.1 == k.ref).map Prod.snd := by
  rw [signature, List.find?_map, Option.map_map]
  rfl

theorem exists_isFinalized {c : BlockChainContract} {digest : Digest}
    (h : c.getHashableData P = .ok digest) (hsigner : c.signer.isSome = true) :
    ∃ b, c.isFinalized = .ok b := by
  obtain ⟨terms, hterms⟩ := Option.isSome_iff_exists.mp hsigner
  obtain ⟨_, -, h⟩ := bind_eq_ok.mp h
  obtain ⟨clauses, hclauses, -⟩ := bind_eq_ok.mp h
  have hverify : ∃ b, c.verify terms = .ok b := by
    cases terms with
    | none => exact ⟨false, rfl⟩
    | some t =>
      rw [verify, verif, hclauses]
      dsimp only
      split
      · exact ⟨false, rfl⟩
      · split
        · exact ⟨_, rfl⟩
        · exact ⟨false, rfl⟩
  obtain ⟨b, hb⟩ := hverify
  rw [isFinalized, hterms, nonNull_some, ok_bind]
  split
  · exact ⟨_, all_of_total fun _ _ => hb⟩
  · exact ⟨false, rfl⟩

namespace Same

variable {c c' : BlockChainContract}

theorem signature (h : Same c c') {k k' : EthereumKey} (hk : k.ref = k'.ref) :
    c.signature k = c'.signature k' := by
  rw [signature_eq, signature_eq, h.signatures, hk]

theorem contains (h : Same c c') {k k' : EthereumKey} (hk : k.ref = k'.ref) :
    c.contains k = c'.contains k' := by
  rw [BlockChainContract.contains, BlockChainContract.contains, h.parties, hk]

theorem verify (h : Same c c') (terms : Option Terms) : c.verify terms = c'.verify terms := by
  cases terms with
  | none => rfl
  | some t => simp only [BlockChainContract.verify, verif, h.parties, h.clauses]

theorem isFinalized (h : Same c c') : c.isFinalized = c'.isFinalized := by
  have hstored : (c.parties.all fun k => (c.signature k).isSome) =
      c'.parties.all fun k => (c'.signature k).isSome := by
    simp only [h.parties, h.signature rfl]
  have hverified : ∀ terms, all (fun _ => c.verify terms) c.signatures =
      all (fun _ => c'.verify terms) c'.signatures := by
    intro terms
    rw [h.verify, ← all_map (fun _ => c'.verify terms) fun e => (e.1.ref, e.2), h.signatures,
      all_map]
  unfold BlockChainContract.isFinalized
  rw [h.signer, hstored]
  simp only [hverified]

theorem put (h : Same c c') {k k' : EthereumKey} (hk : k.ref = k'.ref) (s : EthereumSignature) :
    Same (c.put k s) (c'.put k' s) := by
  have hput : ∀ (c : BlockChainContract) (k : EthereumKey),
      (c.put k s).signatures.map (fun e => (e.1.ref, e.2)) =
        (k.ref, s) :: (c.signatures.map fun e => (e.1.ref, e.2)).filter fun e => e.1 != k.ref := by
    intro c k
    rw [BlockChainContract.put, List.map_cons, List.filter_map]
    rfl
  refine ⟨h.id, h.date, h.parties, h.clauses, ?_, h.hasSignatures, h.signer, h.initialized⟩
  rw [hput, hput, h.signatures, hk]

theorem withStatus (h : Same c c') (status status' : Option Sigma.Status)
    (checks checks' : List Check) :
    Same { c with status := status, checks := checks }
      { c' with status := status', checks := checks' } :=
  ⟨h.id, h.date, h.parties, h.clauses, h.signatures, h.hasSignatures, h.signer, h.initialized⟩

theorem addSignature (h : Same c c') {k k' : Option EthereumKey}
    (hk : k.map EthereumKey.ref = k'.map EthereumKey.ref) (s : EthereumSignature) :
    Sides Same Eq (BlockChainContract.addSignature k s) (BlockChainContract.addSignature k' s)
      c c' := by
  cases k with
  | none =>
    obtain rfl : k' = none := by simpa [eq_comm] using hk
    exact Act.sides_lift (.error _ _) h
  | some k =>
    obtain ⟨k', rfl, href⟩ : ∃ k'', k' = some k'' ∧ k.ref = k''.ref := by
      simpa [eq_comm] using hk
    refine Act.sides_get ?_
    rw [h.contains href]
    split
    · exact Act.sides_lift (.error _ _) h
    · refine Act.sides_bind (Act.sides_modify rfl (h.put href s)) fun _ _ t t' _ ht => ?_
      rw [h.hasSignatures]
      split
      · exact Act.sides_lift (.error _ _) ht
      · refine Act.sides_get ?_
        rw [ht.isFinalized]
        refine Act.sides_bind (Act.sides_lift (.refl (fun _ => rfl) _) ht) fun b b' u u' hb hu => ?_
        rw [hb]
        split
        · exact Act.sides_modify rfl (hu.withStatus _ _ _ _)
        · exact Act.sides_pure rfl hu

theorem sign (h : Same c c') (terms : Option Terms) {k k' : EthereumKey} (hk : k.ref = k'.ref)
    (answer : Option EthereumSignature) :
    Sides Same Eq (BlockChainContract.sign terms k answer)
      (BlockChainContract.sign terms k' answer) c c' := by
  refine Act.sides_bind (Act.sides_modify rfl (h.withStatus _ _ _ _)) fun _ _ t t' _ ht => ?_
  cases transact terms answer with
  | none => exact Act.sides_lift (.error _ _) ht
  | some s =>
    have hsome : (some k).map EthereumKey.ref = (some k').map EthereumKey.ref := congrArg some hk
    refine Act.sides_bind (ht.addSignature hsome s) fun _ _ u u' hs hu => ?_
    exact Act.sides_pure rfl hu

theorem getHashableData (h : Same c c') : c.getHashableData P = c'.getHashableData P := by
  rw [BlockChainContract.getHashableData, BlockChainContract.getHashableData, h.parties, h.clauses,
    h.date]

theorem comparable (h : Same c c') : Comparable P c c' :=
  ⟨by rw [h.clauses], by rw [h.getHashableData]; exact .refl (fun _ => trivial) _⟩

theorem checkContrat (h : Same c c') {o o' : Option BlockChainContract}
    (ho : Option.Rel (Comparable P) o o') :
    Sides Same (fun _ _ => True) (BlockChainContract.checkContrat P o)
      (BlockChainContract.checkContrat P o') c c' := by
  have hanswer : Alike (fun _ _ => True)
      (c.equals P o >>= fun equal => if equal then return true else c.isFinalized)
      (c'.equals P o' >>= fun equal => if equal then return true else c'.isFinalized) := by
    rw [← h.isFinalized]
    cases ho with
    | none => exact .refl (fun _ => trivial) _
    | some ho =>
      rw [equals, equals, ho.clauses, ← h.getHashableData]
      split
      · exact .refl (fun _ => trivial) _
      · rcases hmine : c.getHashableData P with e | mine
        · exact .error e e
        · have hdigest := ho.digest
          generalize BlockChainContract.getHashableData P _ = others at hdigest ⊢
          generalize BlockChainContract.getHashableData P _ = others' at hdigest ⊢
          cases hdigest with
          | error e e' => exact .error e e'
          | @ok digest digest' _ =>
            -- one of them may be equal and the other one not
            obtain ⟨final, hfinal⟩ := exists_isFinalized hmine h.initialized
            rw [hfinal]
            simp only [ok_bind, pure_eq]
            cases mine == digest <;> cases mine == digest' <;> exact .ok trivial
  refine Act.sides_get (Act.sides_bind (Act.sides_modify rfl (h.withStatus _ _ _ _)) ?_)
  intro _ _ t t' _ ht
  refine Act.sides_bind (Act.sides_lift hanswer ht) fun accepted accepted' u u' _ hu => ?_
  cases accepted with
  | false =>
    cases accepted' with
    | false => exact Act.sides_pure trivial hu
    | true => exact ⟨.ok trivial, hu.withStatus u.status (some .finalized) u.checks u'.checks⟩
  | true =>
    cases accepted' with
    | false => exact ⟨.ok trivial, hu.withStatus (some .finalized) u'.status u.checks u'.checks⟩
    | true => exact ⟨.ok trivial, hu.withStatus _ _ u.checks u'.checks⟩

end Same

end BlockChainContract

/-! ### Two establishers side by side -/

namespace Establisher

open Act (Alike Sides)

variable {P : Platform}

structure Same (e e' : Establisher) : Prop where
  key : e.key = e'.key
  contract : e.contract.Same e'.contract
  contractId : e.contractId = e'.contractId
  othersParties : e.othersParties = e'.othersParties
  contractAddress : e.contractAddress = e'.contractAddress
  deployedContractHash : e.deployedContractHash = e'.deployedContractHash
  contractSourceHash : e.contractSourceHash = e'.contractSourceHash
  shareTxSign : e.shareTxSign = e'.shareTxSign
  sent : e.sent = e'.sent

namespace Same

variable {e e' : Establisher}

theorem isDeployed (h : Same e e') : e.isDeployed = e'.isDeployed := by
  rw [Establisher.isDeployed, Establisher.isDeployed, h.deployedContractHash]

theorem onContract {α β : Type} {Q : α → β → Prop} {x : Act BlockChainContract α}
    {y : Act BlockChainContract β} (h : Same e e')
    (hxy : Sides BlockChainContract.Same Q x y e.contract e'.contract) :
    Sides Same Q (Establisher.onContract x) (Establisher.onContract y) e e' :=
  ⟨hxy.1, { h with contract := hxy.2 }⟩

theorem sendAll (h : Same e e') (content : Java String) :
    Sides Same Eq (Establisher.sendAll content) (Establisher.sendAll content) e e' := by
  refine Act.sides_get ?_
  rw [h.othersParties, h.key]
  refine Act.sides_forM (fun k _ s t hst => ?_) h
  refine Act.sides_bind (Act.sides_lift (.refl (fun _ => rfl) _) hst)
    fun who who' s t hwho hst => ?_
  refine Act.sides_bind (Act.sides_lift (.refl (fun _ => rfl) _) hst)
    fun src src' s t hsrc hst => ?_
  refine Act.sides_bind (Act.sides_lift (.refl (fun _ => rfl) _) hst)
    fun text text' s t ht hst => ?_
  refine Act.sides_modify rfl { hst with sent := ?_ }
  rw [hst.sent, hst.contractId, hwho, hsrc, ht]

theorem sendContractAddr (h : Same e e') :
    Sides Same Eq Establisher.sendContractAddr Establisher.sendContractAddr e e' := by
  refine Act.sides_get ?_
  rw [h.isDeployed, h.contractAddress]
  split
  · exact Act.sides_lift (.error _ _) h
  · exact h.sendAll _

theorem sendSolidityHash (h : Same e e') :
    Sides Same Eq Establisher.sendSolidityHash Establisher.sendSolidityHash e e' := by
  refine Act.sides_get ?_
  rw [h.isDeployed, h.contractSourceHash]
  split
  · exact Act.sides_lift (.error _ _) h
  · exact h.sendAll _

theorem shareSign (h : Same e e') :
    Sides Same Eq (Establisher.shareSign P) (Establisher.shareSign P) e e' := by
  refine Act.sides_get ?_
  rw [h.contract.signature (congrArg EthereumKey.ref h.key)]
  refine Act.sides_bind (h.sendAll _) fun _ _ s t _ hst => ?_
  exact Act.sides_modify rfl { hst with shareTxSign := rfl }

theorem start (h : Same e e') :
    Sides Same Eq Establisher.start Establisher.start e e' := by
  refine Act.sides_get ?_
  rw [h.isDeployed]
  split
  · exact Act.sides_bind h.sendContractAddr fun _ _ s t _ hst => hst.sendSolidityHash
  · exact Act.sides_pure rfl h

theorem addSignature (h : Same e e') {k k' : Option EthereumKey}
    (hk : k.map EthereumKey.ref = k'.map EthereumKey.ref) (s : EthereumSignature) :
    Sides Same Eq (Establisher.onContract (BlockChainContract.addSignature k s))
      (Establisher.onContract (BlockChainContract.addSignature k' s)) e e' :=
  h.onContract (h.contract.addSignature hk s)

theorem checkContrat (h : Same e e') {c c' : Option BlockChainContract}
    (hc : Option.Rel (BlockChainContract.Comparable P) c c') :
    Sides Same Eq
      (Establisher.onContract (BlockChainContract.checkContrat P c) >>= fun _ => pure ())
      (Establisher.onContract (BlockChainContract.checkContrat P c') >>= fun _ => pure ())
      e e' :=
  Act.sides_bind (h.onContract (h.contract.checkContrat hc)) fun _ _ _ _ _ hst =>
    Act.sides_pure rfl hst

theorem upDateSignatures (h : Same e e') (who txSign : String) :
    Sides Same Eq (Establisher.upDateSignatures P who txSign)
      (Establisher.upDateSignatures P who txSign) e e' := by
  refine Act.sides_get ?_
  rw [h.contract.parties, h.key]
  refine Act.sides_forM (fun k _ s t hst => ?_) h
  refine Act.sides_bind (Act.sides_lift (.refl (fun _ => rfl) _) hst) fun text _ s t htext hst => ?_
  rw [htext]
  split
  · refine Act.sides_bind (Act.sides_lift (.refl (fun _ => rfl) _) hst) fun _ _ s t _ hst => ?_
    refine Act.sides_bind (Act.sides_lift (.refl (fun _ => rfl) _) hst) fun sg sg' s t hsg hst => ?_
    rw [hsg]
    exact hst.addSignature rfl sg'
  · exact Act.sides_pure rfl hst

theorem handle (h : Same e e') (sourceId : String) (content : List Char) :
    Sides Same Eq (Establisher.handle P sourceId content) (Establisher.handle P sourceId content)
      e e' := by
  unfold Establisher.handle
  refine Act.sides_get ?_
  rw [h.key, h.isDeployed, h.contractSourceHash]
  split
  · exact Act.sides_lift (.error _ _) h
  · refine Act.sides_bind (Act.sides_lift (.refl (fun _ => rfl) _) h) fun _ _ s t _ hst => ?_
    split
    · exact Act.sides_modify rfl { hst with contractAddress := rfl }
    · exact Act.sides_pure rfl hst
  · refine Act.sides_bind (Act.sides_lift (.refl (fun _ => rfl) _) h) fun _ _ s t _ hst => ?_
    split
    · exact Act.sides_lift (.error _ _) hst
    · exact Act.sides_pure rfl hst
  · refine Act.sides_bind (Act.sides_lift (.refl (fun _ => rfl) _) h) fun _ _ s t _ hst => ?_
    refine Act.sides_bind (hst.upDateSignatures sourceId _) fun _ _ s t _ hst => ?_
    refine Act.sides_get ?_
    rw [hst.shareTxSign, hst.contract.signature (congrArg EthereumKey.ref hst.key)]
    split
    · refine Act.sides_bind hst.shareSign fun _ _ s t _ hst => ?_
      exact Act.sides_get (hst.checkContrat (.some hst.contract.comparable))
    · exact Act.sides_get (hst.checkContrat (.some hst.contract.comparable))
  · exact Act.sides_lift (.error _ _) h

theorem notify (h : Same e e') (m : Message) :
    Sides Same Eq (Establisher.notify P m) (Establisher.notify P m) e e' := by
  refine Act.sides_get ?_
  rw [h.contract.parties, h.contractId]
  refine Act.sides_bind (Act.sides_lift (.refl (fun _ => rfl) _) h) fun b _ s t hb hst => ?_
  rw [hb]
  split
  · exact Act.sides_lift (.error _ _) hst
  · split
    · exact Act.sides_lift (.error _ _) hst
    · exact hst.handle m.sourceId _

theorem sign (h : Same e e') {c c' : Option BlockChainContract}
    (hc : Option.Rel (BlockChainContract.Comparable P) c c') (answer : Option EthereumSignature) :
    Sides Same Eq (Establisher.sign P c answer) (Establisher.sign P c' answer) e e' := by
  refine Act.sides_get ?_
  rw [h.contract.signer, h.key]
  refine Act.sides_bind (h.onContract (h.contract.sign _ rfl answer)) fun _ _ s t _ hst => ?_
  refine Act.sides_bind (hst.onContract (hst.contract.checkContrat hc)) fun _ _ s t _ hst => ?_
  exact hst.shareSign

end Same

end Establisher

end SXP.BlockChain
